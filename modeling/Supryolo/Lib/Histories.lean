import Supryolo.Lib.Loops

/-!
Histories of a machine whose steps may fail. A history takes inputs one after
the other and records what each of them returned; a step that fails ends it. It
can be cut at any of its inputs, and what every step keeps holds at its end.
-/

namespace Supryolo.Histories

open Loops

variable {σ ι ο ε : Type} {step : σ → ι → Except ε (ο × σ)} {start s s' : σ}
  {inputs : List ι} {outputs : List ο}

def history (step : σ → ι → Except ε (ο × σ)) : σ → List ι → Except ε (List ο × σ)
  | s, [] => pure ([], s)
  | s, input :: rest => do
      let (output, s) ← step s input
      let (outputs, s) ← history step s rest
      pure (output :: outputs, s)

theorem history_cons {input : ι} {rest : List ι} :
    history step start (input :: rest) = .ok (outputs, s) ↔
      ∃ output middle later, step start input = .ok (output, middle) ∧
        history step middle rest = .ok (later, s) ∧ outputs = output :: later := by
  constructor
  · intro h
    obtain ⟨⟨output, middle⟩, hstep, h⟩ := bind_eq_ok.mp h
    obtain ⟨⟨later, last⟩, hlater, h⟩ := bind_eq_ok.mp h
    obtain ⟨rfl, rfl⟩ := Prod.mk.inj (pure_eq_ok.mp h)
    exact ⟨output, middle, later, hstep, hlater, rfl⟩
  · rintro ⟨output, middle, later, hstep, hlater, rfl⟩
    rw [history, hstep, ok_bind]
    dsimp only
    rw [hlater]
    rfl

/-- A history goes through the end of each of its beginnings. -/
theorem history_append {first last : List ι} :
    history step start (first ++ last) = .ok (outputs, s) ↔
      ∃ earlier middle later, history step start first = .ok (earlier, middle) ∧
        history step middle last = .ok (later, s) ∧ outputs = earlier ++ later := by
  induction first generalizing start outputs with
  | nil =>
      constructor
      · intro h
        exact ⟨[], start, outputs, rfl, h, rfl⟩
      · rintro ⟨earlier, middle, later, hnil, h, rfl⟩
        obtain ⟨rfl, rfl⟩ := Prod.mk.inj (pure_eq_ok.mp hnil)
        exact h
  | cons input rest ih =>
      rw [List.cons_append, history_cons]
      constructor
      · rintro ⟨output, next, returned, hstep, hrest, rfl⟩
        obtain ⟨earlier, middle, later, hearlier, hlater, rfl⟩ := ih.mp hrest
        exact ⟨output :: earlier, middle, later,
          history_cons.mpr ⟨output, next, earlier, hstep, hearlier, rfl⟩, hlater, rfl⟩
      · rintro ⟨earlier, middle, later, hearlier, hlater, rfl⟩
        obtain ⟨output, next, returned, hstep, hrest, rfl⟩ := history_cons.mp hearlier
        exact ⟨output, next, returned ++ later, hstep,
          ih.mpr ⟨returned, middle, later, hrest, hlater, rfl⟩, rfl⟩

theorem append_history {first last : List ι} {earlier later : List ο} {middle : σ}
    (hfirst : history step start first = .ok (earlier, middle))
    (hlast : history step middle last = .ok (later, s)) :
    history step start (first ++ last) = .ok (earlier ++ later, s) :=
  history_append.mpr ⟨earlier, middle, later, hfirst, hlast, rfl⟩

theorem history_length (h : history step start inputs = .ok (outputs, s)) :
    outputs.length = inputs.length := by
  induction inputs generalizing start outputs with
  | nil =>
      obtain ⟨rfl, -⟩ := Prod.mk.inj (pure_eq_ok.mp h)
      rfl
  | cons input rest ih =>
      obtain ⟨output, middle, later, -, hlater, rfl⟩ := history_cons.mp h
      rw [List.length_cons, List.length_cons, ih hlater]

/-- What has happened after the first `i` inputs is a history of its own. -/
theorem history_take (h : history step start inputs = .ok (outputs, s)) (i : Nat) :
    ∃ middle, history step start (inputs.take i) = .ok (outputs.take i, middle) ∧
      history step middle (inputs.drop i) = .ok (outputs.drop i, s) := by
  have hlength := history_length h
  rw [← List.take_append_drop i inputs] at h
  obtain ⟨earlier, middle, later, hearlier, hlater, rfl⟩ := history_append.mp h
  have hsame : (earlier ++ later).take i = earlier ∧ (earlier ++ later).drop i = later := by
    have hfirst := history_length hearlier
    have hlast := history_length hlater
    rw [List.length_take] at hfirst
    rw [List.length_drop] at hlast
    by_cases hi : i ≤ inputs.length
    · rw [Nat.min_eq_left hi] at hfirst
      exact ⟨List.take_left' hfirst, List.drop_left' hfirst⟩
    · obtain rfl : later = [] := List.length_eq_zero_iff.mp (by omega)
      rw [List.append_nil]
      exact ⟨List.take_of_length_le (by omega), List.drop_of_length_le (by omega)⟩
  rw [hsame.1, hsame.2]
  exact ⟨middle, hearlier, hlater⟩

/-- Induction on the length of a history: what holds of the empty one and
survives another step holds of all. -/
theorem history_induction {motive : List ι → List ο → σ → Prop}
    (h : history step start inputs = .ok (outputs, s)) (nil : motive [] [] start)
    (snoc : ∀ inputs outputs s input output s', motive inputs outputs s →
      step s input = .ok (output, s') → motive (inputs ++ [input]) (outputs ++ [output]) s') :
    motive inputs outputs s := by
  induction inputs using List.reverseRecOn generalizing outputs s with
  | nil =>
      obtain ⟨rfl, rfl⟩ := Prod.mk.inj (pure_eq_ok.mp h)
      exact nil
  | append_singleton inputs input ih =>
      obtain ⟨earlier, middle, later, hearlier, hlast, rfl⟩ := history_append.mp h
      obtain ⟨output, last, returned, hstep, hnil, rfl⟩ := history_cons.mp hlast
      obtain ⟨rfl, rfl⟩ := Prod.mk.inj (pure_eq_ok.mp hnil)
      exact snoc _ _ _ _ _ _ (ih hearlier) hstep

/-- The step that returned a given output, with what came before and after. -/
theorem history_at {i : Nat} {output : ο} (h : history step start inputs = .ok (outputs, s))
    (houtput : outputs[i]? = some output) :
    ∃ input before after, inputs[i]? = some input ∧
      history step start (inputs.take i) = .ok (outputs.take i, before) ∧
      step before input = .ok (output, after) ∧
      history step after (inputs.drop (i + 1)) = .ok (outputs.drop (i + 1), s) := by
  have hlt := (List.getElem?_eq_some_iff.mp houtput).1
  have hi : i < inputs.length := history_length h ▸ hlt
  obtain ⟨before, hbefore, hlater⟩ := history_take h i
  rw [List.drop_eq_getElem_cons hi, List.drop_eq_getElem_cons hlt] at hlater
  obtain ⟨returned, after, rest, hstep, hrest, hcons⟩ := history_cons.mp hlater
  obtain ⟨rfl, rfl⟩ := List.cons.inj hcons
  rw [List.getElem?_eq_getElem hlt, Option.some.injEq] at houtput
  exact ⟨inputs[i], before, after, List.getElem?_eq_getElem hi, hbefore, houtput ▸ hstep, hrest⟩

/-- The last value the inputs set. -/
def lastSet {α : Type} (set : ι → Option α) (inputs : List ι) : Option α :=
  (inputs.filterMap set).getLast?

theorem lastSet_concat {α : Type} (set : ι → Option α) (inputs : List ι) (input : ι) :
    lastSet set (inputs ++ [input]) = (set input).or (lastSet set inputs) := by
  rw [lastSet, List.filterMap_append, List.getLast?_append]
  cases hset : set input with
  | none => simp [hset, lastSet]
  | some value => simp [hset]

end Supryolo.Histories
