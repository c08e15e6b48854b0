import Mathlib

/-!
Tilings of a prefix of the natural numbers: stretches, each given by its start
and its length, laid down one after the other from zero. They are disjoint, none
is empty, and together they are the prefix.
-/

namespace Supryolo.Tiling

/-- Stretches laid down from `0` to `limit` without a gap. -/
inductive Tiles : List (Nat × Nat) → Nat → Prop
  | nil : Tiles [] 0
  | snoc {tiles : List (Nat × Nat)} {limit : Nat} (h : Tiles tiles limit) {count : Nat}
      (hcount : 0 < count) : Tiles (tiles ++ [(limit, count)]) (limit + count)

def stretch (tile : Nat × Nat) : Set Nat := {c | tile.1 ≤ c ∧ c < tile.1 + tile.2}

variable {tiles : List (Nat × Nat)} {limit : Nat}

theorem Tiles.mem (h : Tiles tiles limit) {tile : Nat × Nat} (htile : tile ∈ tiles) :
    0 < tile.2 ∧ tile.1 + tile.2 ≤ limit := by
  induction h with
  | nil => cases htile
  | snoc h hcount ih =>
      rcases List.mem_append.mp htile with hbefore | hlast
      · obtain ⟨hpositive, hle⟩ := ih hbefore
        exact ⟨hpositive, by omega⟩
      · rw [List.mem_singleton.mp hlast]
        exact ⟨hcount, le_refl _⟩

/-- Together the stretches are the prefix. -/
theorem Tiles.covers (h : Tiles tiles limit) (c : Nat) :
    (∃ tile ∈ tiles, c ∈ stretch tile) ↔ c < limit := by
  induction h with
  | nil => simp
  | @snoc tiles limit h count hcount ih =>
      have hlast : c ∈ stretch (limit, count) ↔ limit ≤ c ∧ c < limit + count := Iff.rfl
      simp only [List.mem_append, List.mem_singleton, or_and_right, exists_or, exists_eq_left, ih,
        hlast]
      omega

/-- An earlier stretch ends before a later one starts. -/
theorem Tiles.pairwise (h : Tiles tiles limit) :
    tiles.Pairwise fun a b => a.1 + a.2 ≤ b.1 := by
  induction h with
  | nil => exact List.Pairwise.nil
  | snoc h hcount ih =>
      refine List.pairwise_append.mpr ⟨ih, List.pairwise_singleton _ _, ?_⟩
      intro a ha b hb
      rw [List.mem_singleton.mp hb]
      exact (h.mem ha).2

theorem disjoint_stretch {a b : Nat × Nat} (h : a.1 + a.2 ≤ b.1) :
    Disjoint (stretch a) (stretch b) := by
  refine Set.disjoint_left.mpr ?_
  rintro c ⟨-, hc⟩ ⟨hc', -⟩
  omega

end Supryolo.Tiling
