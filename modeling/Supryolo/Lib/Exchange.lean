import Mathlib.Tactic

/-!
Relations that can be exchanged: taking a step of one and then a step of the
other leads to the same states in either order. What can be exchanged with every
part of a composite relation can be exchanged with the whole of it.
-/

namespace Supryolo.Exchange

variable {σ ι : Type} {A B C : σ → σ → Prop}

def Swaps (A B : σ → σ → Prop) : Prop :=
  ∀ s u, (∃ m, A s m ∧ B m u) ↔ ∃ m, B s m ∧ A m u

theorem Swaps.symm (h : Swaps A B) : Swaps B A := fun s u => (h s u).symm

theorem swaps_congr (h : Swaps A B) (hiff : ∀ s u, C s u ↔ B s u) : Swaps A C := by
  intro s u
  simp only [hiff]
  exact h s u

theorem swaps_eq : Swaps A Eq := by
  intro s u
  constructor
  · rintro ⟨m, hA, rfl⟩
    exact ⟨s, rfl, hA⟩
  · rintro ⟨m, rfl, hA⟩
    exact ⟨u, hA, rfl⟩

theorem swaps_false : Swaps A fun _ _ => False := by
  intro s u
  constructor
  · rintro ⟨m, -, h⟩
    exact h.elim
  · rintro ⟨m, h, -⟩
    exact h.elim

theorem swaps_comp (hB : Swaps A B) (hC : Swaps A C) : Swaps A (Relation.Comp B C) := by
  intro s u
  constructor
  · rintro ⟨m, hA, k, hmk, hku⟩
    obtain ⟨m', hsm, hmk⟩ := (hB s k).mp ⟨m, hA, hmk⟩
    obtain ⟨k', hmk', hku⟩ := (hC m' u).mp ⟨k, hmk, hku⟩
    exact ⟨k', ⟨m', hsm, hmk'⟩, hku⟩
  · rintro ⟨k, ⟨m, hsm, hmk⟩, hA⟩
    obtain ⟨k', hmk', hku⟩ := (hC m u).mpr ⟨k, hmk, hA⟩
    obtain ⟨m', hsm', hmk''⟩ := (hB s k').mpr ⟨m, hsm, hmk'⟩
    exact ⟨m', hsm', k', hmk'', hku⟩

theorem swaps_exists {B : ι → σ → σ → Prop} (h : ∀ i, Swaps A (B i)) :
    Swaps A fun s u => ∃ i, B i s u := by
  intro s u
  constructor
  · rintro ⟨m, hA, i, hB⟩
    obtain ⟨m', hB, hA⟩ := (h i s u).mp ⟨m, hA, hB⟩
    exact ⟨m', ⟨i, hB⟩, hA⟩
  · rintro ⟨m, ⟨i, hB⟩, hA⟩
    obtain ⟨m', hA, hB⟩ := (h i s u).mpr ⟨m, hB, hA⟩
    exact ⟨m', hA, i, hB⟩

/-- A condition that does not look at the states. -/
theorem swaps_guard {p : Prop} (h : p → Swaps A B) : Swaps A fun s u => p ∧ B s u := by
  intro s u
  constructor
  · rintro ⟨m, hA, hp, hB⟩
    obtain ⟨m', hB, hA⟩ := (h hp s u).mp ⟨m, hA, hB⟩
    exact ⟨m', ⟨hp, hB⟩, hA⟩
  · rintro ⟨m, ⟨hp, hB⟩, hA⟩
    obtain ⟨m', hA, hB⟩ := (h hp s u).mpr ⟨m, hB, hA⟩
    exact ⟨m', hA, hp, hB⟩

end Supryolo.Exchange
