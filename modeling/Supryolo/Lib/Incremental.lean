import Mathlib.Tactic

/-!
Incremental decoders. A decoder looks at the input gathered so far and either
waits for more, or takes a part of it away and possibly emits an item, or
fails. What it decides never depends on input that has not arrived: more input
behind the part it takes changes nothing. Hence a stream decodes to the same
items however it is cut into pieces.
-/

namespace Supryolo.Incremental

variable {σ ι ο ε : Type}

inductive Move (σ ι ο : Type)
  | wait
  | take (state : σ) (rest : List ι) (emitted : Option ο)

/-- The decision taken on `xs` stands whatever follows, and a part that is taken
away is not empty. -/
def Stands (decision : List ι → Except ε (Move σ ι ο)) (xs : List ι) :
    Except ε (Move σ ι ο) → Prop
  | .error e => ∀ more, decision (xs ++ more) = .error e
  | .ok .wait => True
  | .ok (.take s rest o) =>
      rest.length < xs.length ∧ ∀ more, decision (xs ++ more) = .ok (.take s (rest ++ more) o)

structure Decoder (σ ι ο ε : Type) where
  step : σ → List ι → Except ε (Move σ ι ο)
  stands : ∀ s xs, Stands (step s) xs (step s xs)

/-- A decision on the first `n` items of the input. -/
def onFront (n : Nat) (f : List ι → Except ε (σ × Option ο)) (xs : List ι) :
    Except ε (Move σ ι ο) :=
  if xs.length < n then .ok .wait
  else (f (xs.take n)).map fun result => .take result.1 (xs.drop n) result.2

theorem onFront_stands {n : Nat} (hn : 0 < n) (f : List ι → Except ε (σ × Option ο))
    (xs : List ι) : Stands (onFront n f) xs (onFront n f xs) := by
  by_cases hshort : xs.length < n
  · have hwait : onFront n f xs = .ok .wait := if_pos hshort
    rw [hwait]
    trivial
  · have hle : n ≤ xs.length := Nat.le_of_not_lt hshort
    have hmore (more : List ι) : onFront n f (xs ++ more) =
        (f (xs.take n)).map fun result => .take result.1 (xs.drop n ++ more) result.2 := by
      rw [onFront, if_neg (by rw [List.length_append]; omega), List.take_append_of_le_length hle,
        List.drop_append_of_le_length hle]
    have hnow := hmore []
    rw [List.append_nil, List.append_nil] at hnow
    rw [hnow]
    cases hresult : f (xs.take n) with
    | error e =>
        intro more
        rw [hmore, hresult]
        rfl
    | ok result =>
        refine ⟨?_, ?_⟩
        · rw [List.length_drop]
          omega
        · intro more
          rw [hmore, hresult]
          rfl

namespace Decoder

variable (d : Decoder σ ι ο ε)

theorem shrinks {s s' : σ} {xs rest : List ι} {o : Option ο}
    (hstep : d.step s xs = .ok (.take s' rest o)) : rest.length < xs.length := by
  have hstands := d.stands s xs
  rw [hstep] at hstands
  exact hstands.1

theorem stable {s s' : σ} {xs rest : List ι} {o : Option ο}
    (hstep : d.step s xs = .ok (.take s' rest o)) (more : List ι) :
    d.step s (xs ++ more) = .ok (.take s' (rest ++ more) o) := by
  have hstands := d.stands s xs
  rw [hstep] at hstands
  exact hstands.2 more

theorem stable_error {s : σ} {xs : List ι} {e : ε} (hstep : d.step s xs = .error e)
    (more : List ι) : d.step s (xs ++ more) = .error e := by
  have hstands := d.stands s xs
  rw [hstep] at hstands
  exact hstands more

/-- At most `fuel` moves; the items emitted, the state and the input left. -/
def drain : Nat → σ → List ι → Except ε (List ο × σ × List ι)
  | 0, s, xs => .ok ([], s, xs)
  | fuel + 1, s, xs =>
      match d.step s xs with
      | .error e => .error e
      | .ok .wait => .ok ([], s, xs)
      | .ok (.take s' rest o) =>
          (drain fuel s' rest).map fun result => (o.toList ++ result.1, result.2)

/-- All moves the input allows: each of them shortens it. -/
def run (s : σ) (xs : List ι) : Except ε (List ο × σ × List ι) := d.drain (xs.length + 1) s xs

/-- Fuel beyond the length of the input makes no difference. -/
theorem drain_congr {fuel fuel' : Nat} {s : σ} {xs : List ι} (hfuel : xs.length < fuel)
    (hfuel' : xs.length < fuel') : d.drain fuel s xs = d.drain fuel' s xs := by
  induction fuel generalizing fuel' s xs with
  | zero => omega
  | succ fuel ih =>
      obtain ⟨other, rfl⟩ := Nat.exists_eq_succ_of_ne_zero (Nat.ne_zero_of_lt hfuel')
      simp only [drain]
      cases hstep : d.step s xs with
      | error e => rfl
      | ok move =>
          cases move with
          | wait => rfl
          | take s' rest o =>
              have hshrink := d.shrinks hstep
              dsimp only
              rw [ih (by omega : rest.length < fuel) (by omega : rest.length < other)]

variable {d}

theorem run_error {s : σ} {xs : List ι} {e : ε} (hstep : d.step s xs = .error e) :
    d.run s xs = .error e := by
  simp only [run, drain, hstep]

theorem run_wait {s : σ} {xs : List ι} (hstep : d.step s xs = .ok .wait) :
    d.run s xs = .ok ([], s, xs) := by
  simp only [run, drain, hstep]

theorem run_take {s s' : σ} {xs rest : List ι} {o : Option ο}
    (hstep : d.step s xs = .ok (.take s' rest o)) :
    d.run s xs = (d.run s' rest).map fun result => (o.toList ++ result.1, result.2) := by
  have hfuel : d.drain xs.length s' rest = d.run s' rest :=
    d.drain_congr (d.shrinks hstep) (Nat.lt_succ_self _)
  rw [← hfuel]
  simp only [run, drain, hstep]

theorem run_take_iff {s mid s' : σ} {xs left rest : List ι} {o : Option ο} {items : List ο}
    (hstep : d.step s xs = .ok (.take mid left o)) :
    d.run s xs = .ok (items, s', rest) ↔
      ∃ later, d.run mid left = .ok (later, s', rest) ∧ items = o.toList ++ later := by
  rw [run_take hstep]
  constructor
  · intro h
    cases hleft : d.run mid left with
    | error e => rw [hleft] at h; cases h
    | ok result =>
        obtain ⟨later, last, remaining⟩ := result
        rw [hleft] at h
        cases h
        exact ⟨later, rfl, rfl⟩
  · rintro ⟨later, hlater, rfl⟩
    rw [hlater]
    rfl

/-- The moves of a run: it takes what it can and ends waiting. -/
inductive Runs (d : Decoder σ ι ο ε) : σ → List ι → List ο → σ → List ι → Prop
  | wait {s : σ} {xs : List ι} (hstep : d.step s xs = .ok .wait) : Runs d s xs [] s xs
  | take {s mid s' : σ} {xs left rest : List ι} {o : Option ο} {items : List ο}
      (hstep : d.step s xs = .ok (.take mid left o)) (later : Runs d mid left items s' rest) :
      Runs d s xs (o.toList ++ items) s' rest

theorem run_iff {s s' : σ} {xs rest : List ι} {items : List ο} :
    d.run s xs = .ok (items, s', rest) ↔ Runs d s xs items s' rest := by
  constructor
  · intro hrun
    induction hlength : xs.length using Nat.strong_induction_on generalizing s xs items with
    | _ n ih =>
        cases hstep : d.step s xs with
        | error e => rw [run_error hstep] at hrun; cases hrun
        | ok move =>
            cases move with
            | wait =>
                rw [run_wait hstep] at hrun
                cases hrun
                exact .wait hstep
            | take mid left o =>
                obtain ⟨later, hlater, rfl⟩ := (run_take_iff hstep).mp hrun
                exact .take hstep (ih left.length (hlength ▸ d.shrinks hstep) hlater rfl)
  · intro hruns
    induction hruns with
    | wait hstep => exact run_wait hstep
    | take hstep later ih => exact (run_take_iff hstep).mpr ⟨_, ih, rfl⟩

/-- Input that arrives later is decoded from where the decoder stopped. -/
theorem run_append {s s' : σ} {xs rest : List ι} {items : List ο}
    (hrun : d.run s xs = .ok (items, s', rest)) (more : List ι) :
    d.run s (xs ++ more) =
      (d.run s' (rest ++ more)).map fun result => (items ++ result.1, result.2) := by
  induction run_iff.mp hrun with
  | @wait s xs hstep => cases d.run s (xs ++ more) <;> rfl
  | @take s mid s' xs left rest o items hstep later ih =>
      rw [run_take (d.stable hstep more), ih (run_iff.mpr later)]
      cases d.run s' (rest ++ more) with
      | error e => rfl
      | ok result => simp only [Except.map, List.append_assoc]

/-- A failure is not undone by input that arrives later. -/
theorem run_append_error {s : σ} {xs : List ι} {e : ε} (hrun : d.run s xs = .error e)
    (more : List ι) : d.run s (xs ++ more) = .error e := by
  induction hlength : xs.length using Nat.strong_induction_on generalizing s xs with
  | _ n ih =>
      cases hstep : d.step s xs with
      | error e' =>
          rw [run_error hstep] at hrun
          cases hrun
          exact run_error (d.stable_error hstep more)
      | ok move =>
          cases move with
          | wait => rw [run_wait hstep] at hrun; cases hrun
          | take mid left o =>
              rw [run_take hstep] at hrun
              have hleft : d.run mid left = .error e := by
                cases hresult : d.run mid left with
                | error e' => rw [hresult] at hrun; cases hrun; rfl
                | ok result => rw [hresult] at hrun; cases hrun
              have hshrink := d.shrinks hstep
              rw [run_take (d.stable hstep more), ih left.length (hlength ▸ hshrink) hleft rfl]
              rfl

/-- A run ends where nothing more can be taken. -/
theorem Runs.stops {s s' : σ} {xs rest : List ι} {items : List ο} (h : Runs d s xs items s' rest) :
    d.step s' rest = .ok .wait := by
  induction h with
  | wait hstep => exact hstep
  | take hstep later ih => exact ih

/-- A run that does not fail did not fail on any beginning of its input. -/
theorem run_split {s s' : σ} {xs more rest : List ι} {items : List ο}
    (h : d.run s (xs ++ more) = .ok (items, s', rest)) :
    ∃ first mid left later, d.run s xs = .ok (first, mid, left) ∧
      d.run mid (left ++ more) = .ok (later, s', rest) ∧ items = first ++ later := by
  cases hfirst : d.run s xs with
  | error e => rw [run_append_error hfirst] at h; cases h
  | ok result =>
      obtain ⟨first, mid, left⟩ := result
      rw [run_append hfirst] at h
      cases hlater : d.run mid (left ++ more) with
      | error e => rw [hlater] at h; cases h
      | ok result =>
          obtain ⟨later, last, remaining⟩ := result
          rw [hlater] at h
          cases h
          exact ⟨first, mid, left, later, rfl, hlater, rfl⟩

/-- What is produced comes from a move. -/
theorem Runs.produced {s s' : σ} {xs rest : List ι} {items : List ο} (h : Runs d s xs items s' rest)
    {item : ο} (hitem : item ∈ items) :
    ∃ s xs s' left, d.step s xs = .ok (.take s' left (some item)) := by
  induction h with
  | wait hstep => cases hitem
  | take hstep later ih =>
      rcases List.mem_append.mp hitem with hnow | hlater
      · obtain rfl := Option.mem_toList.mp hnow
        exact ⟨_, _, _, _, hstep⟩
      · exact ih hlater

/-- When every move takes at least `width` items away, there are not many. -/
theorem Runs.items_le {width : Nat}
    (hwidth : ∀ s xs s' left o, d.step s xs = .ok (.take s' left o) → left.length + width ≤ xs.length)
    {s s' : σ} {xs rest : List ι} {items : List ο} (h : Runs d s xs items s' rest) :
    items.length * width + rest.length ≤ xs.length := by
  induction h with
  | wait hstep => simp
  | @take s mid s' xs left rest o items hstep later ih =>
      have htaken := hwidth _ _ _ _ _ hstep
      have hone : o.toList.length ≤ 1 := by cases o <;> simp
      have hmul := Nat.mul_le_mul_right width hone
      rw [List.length_append, Nat.add_mul]
      omega

end Decoder

end Supryolo.Incremental
