import Mathlib.Tactic

/-!
Sixteen-word mixing networks of the ChaCha/BLAKE family, over an arbitrary
word type. A step rewrites four words of the state in place; a round mixes the
four columns and then the four diagonals with message words selected by one row
of a schedule. The two facts used about such a network are that it commutes
with a map of words that respects the step, and that steps on disjoint
positions commute.
-/

namespace Supryolo.Rounds

variable {α β : Type*}

/-- The four words rewritten by one mixing step. -/
structure Quad (α : Type*) where
  a : α
  b : α
  c : α
  d : α

/-- A mixing step takes four state words and two message words. -/
abbrev Mix (α : Type*) := α → α → α → α → α → α → Quad α

abbrev State (α : Type*) := Vector α 16

abbrev Row := Vector (Fin 16) 16

/-- A word by its position is the word at that index. -/
theorem get_val {n : Nat} (v : Vector α n) (i : Fin n) : v.get i = v[i.val] := rfl

/-- Positions are written as literals. -/
instance neZero_words : NeZero 16 := ⟨by decide⟩

/-- So are those of half a state. -/
instance neZero_half : NeZero 8 := ⟨by decide⟩

/-- So are the ten rows of a schedule. -/
instance neZero_rows : NeZero 10 := ⟨by decide⟩

/-- Overwrites one word of the state. -/
def put (v : State α) (i : Fin 16) (x : α) : State α := v.set i x

/-- Word `i` of the lower half of the state. -/
def lower (v : State α) (i : Fin 8) : α := v.get (i.castAdd 8)

/-- Word `i` of the upper half of the state. -/
def upper (v : State α) (i : Fin 8) : α := v.get (i.natAdd 8)

/-- One mixing step on the words at positions `a`, `b`, `c` and `d`. -/
def column (mix : Mix α) (v : State α) (a b c d : Fin 16) (x y : α) : State α :=
  let words := mix (v.get a) (v.get b) (v.get c) (v.get d) x y
  put (put (put (put v a words.a) b words.b) c words.c) d words.d

def columns (mix : Mix α) (m : State α) (s : Row) (v : State α) : State α :=
  let v := column mix v 0 4 8 12 (m.get (s.get 0)) (m.get (s.get 1))
  let v := column mix v 1 5 9 13 (m.get (s.get 2)) (m.get (s.get 3))
  let v := column mix v 2 6 10 14 (m.get (s.get 4)) (m.get (s.get 5))
  column mix v 3 7 11 15 (m.get (s.get 6)) (m.get (s.get 7))

def diagonals (mix : Mix α) (m : State α) (s : Row) (v : State α) : State α :=
  let v := column mix v 0 5 10 15 (m.get (s.get 8)) (m.get (s.get 9))
  let v := column mix v 1 6 11 12 (m.get (s.get 10)) (m.get (s.get 11))
  let v := column mix v 2 7 8 13 (m.get (s.get 12)) (m.get (s.get 13))
  column mix v 3 4 9 14 (m.get (s.get 14)) (m.get (s.get 15))

def mixRound (mix : Mix α) (m : State α) (s : Row) (v : State α) : State α :=
  diagonals mix m s (columns mix m s v)

/-- A whole schedule of rounds. -/
def mixRounds (mix : Mix α) (m : State α) (schedule : List Row) (v : State α) : State α :=
  schedule.foldl (fun v s => mixRound mix m s v) v

/-- A map of words that carries one mixing step to another. -/
def Respects (f : α → β) (first : Mix α) (second : Mix β) : Prop :=
  ∀ a b c d x y,
    let words := first a b c d x y
    second (f a) (f b) (f c) (f d) (f x) (f y) =
      ⟨f words.a, f words.b, f words.c, f words.d⟩

section Map

variable {f : α → β} {first : Mix α} {second : Mix β}

theorem put_map (f : α → β) (v : State α) (i : Fin 16) (x : α) :
    (put v i x).map f = put (v.map f) i (f x) := by
  rw [put, put, Vector.map_set]

theorem column_map (h : Respects f first second) (v : State α) (a b c d : Fin 16) (x y : α) :
    (column first v a b c d x y).map f = column second (v.map f) a b c d (f x) (f y) := by
  have hwords := h (v.get a) (v.get b) (v.get c) (v.get d) x y
  simp only [column, put_map, get_val, Vector.getElem_map] at hwords ⊢
  rw [hwords]

theorem mixRound_map (h : Respects f first second) (m : State α) (s : Row) (v : State α) :
    (mixRound first m s v).map f = mixRound second (m.map f) s (v.map f) := by
  simp only [mixRound, diagonals, columns, column_map h, get_val, Vector.getElem_map]

/-- A map that respects the mixing step commutes with every schedule. -/
theorem mixRounds_map (h : Respects f first second) (m : State α) (schedule : List Row)
    (v : State α) :
    (mixRounds first m schedule v).map f = mixRounds second (m.map f) schedule (v.map f) := by
  induction schedule generalizing v with
  | nil => rfl
  | cons s rest ih =>
      simp only [mixRounds, List.foldl_cons] at ih ⊢
      rw [ih, mixRound_map h]

end Map

/-- The word a step leaves at position `i`. -/
theorem column_getElem (mix : Mix α) (v : State α) (a b c d : Fin 16) (x y : α)
    (i : Nat) (hi : i < 16) :
    (column mix v a b c d x y)[i] =
      let words := mix (v.get a) (v.get b) (v.get c) (v.get d) x y
      if d.val = i then words.d else if c.val = i then words.c
      else if b.val = i then words.b else if a.val = i then words.a else v[i] := by
  simp only [column, put, Vector.getElem_set]

/-- Two steps on the same four positions are one step. -/
theorem column_column (first second : Mix α) (v : State α) (a b c d : Fin 16) (x y x' y' : α)
    (hnodup : [a, b, c, d].Nodup) :
    column second (column first v a b c d x y) a b c d x' y' =
      column (fun a b c d x y =>
        let words := first a b c d x y
        second words.a words.b words.c words.d x' y') v a b c d x y := by
  simp only [List.nodup_cons, List.mem_cons, List.not_mem_nil, or_false, not_or,
    Fin.ext_iff] at hnodup
  obtain ⟨⟨hab, hac, had⟩, ⟨hbc, hbd⟩, hcd, -⟩ := hnodup
  apply Vector.ext
  intro i hi
  rw [column_getElem, column_getElem, column_getElem]
  simp only [get_val, column_getElem, hab, hac, had, hbc, hbd, hcd, Ne.symm hab,
    Ne.symm hac, Ne.symm had, Ne.symm hbc, Ne.symm hbd, Ne.symm hcd, if_true, if_false]
  by_cases hd : d.val = i
  · simp [hd]
  by_cases hc : c.val = i
  · simp [hd, hc]
  by_cases hb : b.val = i
  · simp [hd, hc, hb]
  by_cases ha : a.val = i
  · simp [hd, hc, hb, ha]
  · simp [hd, hc, hb, ha]

/-- Steps on disjoint positions commute. -/
theorem column_comm (mix : Mix α) (v : State α) (a b c d a' b' c' d' : Fin 16)
    (x y x' y' : α)
    (hdisjoint : ∀ i ∈ [a, b, c, d], i ∉ [a', b', c', d']) :
    column mix (column mix v a b c d x y) a' b' c' d' x' y' =
      column mix (column mix v a' b' c' d' x' y') a b c d x y := by
  have hkeep (i : Fin 16) (hi : i ∈ [a', b', c', d']) :
      (column mix v a b c d x y).get i = v.get i := by
    have hout : i ∉ [a, b, c, d] := fun hmem => hdisjoint i hmem hi
    simp only [List.mem_cons, List.not_mem_nil, or_false, not_or] at hout
    rw [get_val, column_getElem]
    simp [get_val, Fin.val_inj, Ne.symm hout.1, Ne.symm hout.2.1, Ne.symm hout.2.2.1,
      Ne.symm hout.2.2.2]
  have hkeep' (i : Fin 16) (hi : i ∈ [a, b, c, d]) :
      (column mix v a' b' c' d' x' y').get i = v.get i := by
    have hout := hdisjoint i hi
    simp only [List.mem_cons, List.not_mem_nil, or_false, not_or] at hout
    rw [get_val, column_getElem]
    simp [get_val, Fin.val_inj, Ne.symm hout.1, Ne.symm hout.2.1, Ne.symm hout.2.2.1,
      Ne.symm hout.2.2.2]
  apply Vector.ext
  intro i hi
  rw [column_getElem, column_getElem, column_getElem, column_getElem]
  rw [hkeep a' (by simp), hkeep b' (by simp), hkeep c' (by simp), hkeep d' (by simp),
    hkeep' a (by simp), hkeep' b (by simp), hkeep' c (by simp), hkeep' d (by simp)]
  by_cases hmem : (⟨i, hi⟩ : Fin 16) ∈ [a, b, c, d]
  · have hout := hdisjoint _ hmem
    simp only [List.mem_cons, List.not_mem_nil, or_false, not_or, Fin.ext_iff] at hout
    simp [Ne.symm hout.1, Ne.symm hout.2.1, Ne.symm hout.2.2.1, Ne.symm hout.2.2.2]
  · simp only [List.mem_cons, List.not_mem_nil, or_false, not_or, Fin.ext_iff] at hmem
    simp [Ne.symm hmem.1, Ne.symm hmem.2.1, Ne.symm hmem.2.2.1, Ne.symm hmem.2.2.2]

end Supryolo.Rounds
