import Supryolo.Lib.Loops

/-!
Readers that consume a list from the front. A reader spells a writer when it
accepts exactly the inputs that begin with what the writer writes for a legal
value; it then returns that value and leaves what follows. Readers in sequence
are taken apart with `Spells.bind`, one field at a time.
-/

namespace Supryolo.Readers

open Loops

variable {ι ε α β : Type} {read : StateT (List ι) (Except ε) α} {write : α → List ι}
  {legal : α → Prop} {input rest : List ι}

def Spells (read : StateT (List ι) (Except ε) α) (write : α → List ι) (legal : α → Prop) : Prop :=
  ∀ input value rest,
    read.run input = .ok (value, rest) ↔ legal value ∧ input = write value ++ rest

theorem run_bind_iff {next : α → StateT (List ι) (Except ε) β} {result : β} :
    (read >>= next).run input = .ok (result, rest) ↔
      ∃ value left, read.run input = .ok (value, left) ∧
        (next value).run left = .ok (result, rest) := by
  rw [StateT.run_bind, bind_eq_ok]
  constructor
  · rintro ⟨⟨value, left⟩, hread, hnext⟩
    exact ⟨value, left, hread, hnext⟩
  · rintro ⟨value, left, hread, hnext⟩
    exact ⟨(value, left), hread, hnext⟩

theorem run_pure_iff {value result : α} :
    (pure value : StateT (List ι) (Except ε) α).run input = .ok (result, rest) ↔
      value = result ∧ input = rest := by
  rw [StateT.run_pure, pure_eq_ok, Prod.mk.injEq]

theorem Spells.bind (h : Spells read write legal) {next : α → StateT (List ι) (Except ε) β}
    {result : β} :
    (read >>= next).run input = .ok (result, rest) ↔
      ∃ value left, (legal value ∧ input = write value ++ left) ∧
        (next value).run left = .ok (result, rest) := by
  rw [run_bind_iff]
  simp only [h input]

/-- A guard that throws has passed. -/
theorem run_guard_iff {γ : Type} {p : Prop} [Decidable p] {e : ε}
    {next : γ → StateT (List ι) (Except ε) β} {later : StateT (List ι) (Except ε) β} {result : β} :
    (if p then throw e >>= next else later).run input = .ok (result, rest) ↔
      ¬ p ∧ later.run input = .ok (result, rest) := by
  by_cases hp : p
  · simp only [hp, if_true, not_true, false_and, iff_false]
    intro h
    cases h
  · simp only [hp, if_false, not_false_eq_true, true_and]

/-- A reader that makes something of the first `n` items, when there are so many. -/
theorem run_front_iff {n : Nat} {e : ε} {f : List ι → α} {value : α} :
    (do
      let b ← get
      if b.length < n then throw e
      set (b.drop n)
      pure (f (b.take n)) : StateT (List ι) (Except ε) α).run input = .ok (value, rest) ↔
      ¬ input.length < n ∧ f (input.take n) = value ∧ input.drop n = rest := by
  rw [run_bind_iff]
  simp only [StateT.run_get, pure_eq_ok, Prod.mk.injEq]
  constructor
  · rintro ⟨b, left, ⟨rfl, rfl⟩, h⟩
    obtain ⟨hlength, h⟩ := run_guard_iff.mp h
    cases h
    exact ⟨hlength, rfl, rfl⟩
  · rintro ⟨hlength, rfl, rfl⟩
    exact ⟨input, input, ⟨rfl, rfl⟩, run_guard_iff.mpr ⟨hlength, rfl⟩⟩

/-- The first `n` items, when there are so many. -/
theorem take_drop_iff {n : Nat} {front left : List ι} :
    (¬ input.length < n ∧ input.take n = front ∧ input.drop n = left) ↔
      front.length = n ∧ input = front ++ left := by
  constructor
  · rintro ⟨hlength, rfl, rfl⟩
    refine ⟨?_, (List.take_append_drop n input).symm⟩
    rw [List.length_take]
    omega
  · rintro ⟨hlength, rfl⟩
    refine ⟨?_, List.take_left' hlength, List.drop_left' hlength⟩
    rw [List.length_append]
    omega

end Supryolo.Readers
