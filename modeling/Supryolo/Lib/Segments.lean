import Mathlib.Data.List.Basic

/-!
Lists cut at a separator. Every separator completes a segment; what follows the
last of them is the remainder. Of a list that grows at its end the completed
segments stay as they are, and only the remainder matters for the next ones.
-/

namespace Supryolo.Segments

variable {α : Type} [DecidableEq α] {sep : α}

def completed (sep : α) (xs : List α) : List (List α) := (xs.splitOn sep).dropLast

def remainder (sep : α) (xs : List α) : List α :=
  (xs.splitOn sep).getLast (List.splitOn_ne_nil sep xs)

theorem completed_of_not_mem {xs : List α} (h : sep ∉ xs) : completed sep xs = [] := by
  rw [completed, List.splitOn_eq_singleton h]
  rfl

theorem remainder_of_not_mem {xs : List α} (h : sep ∉ xs) : remainder sep xs = xs := by
  simp only [remainder, List.splitOn_eq_singleton h, List.getLast_singleton]

theorem completed_cons {front : List α} (h : sep ∉ front) (rest : List α) :
    completed sep (front ++ sep :: rest) = front :: completed sep rest := by
  rw [completed, List.splitOn_append_cons_self_of_not_mem h,
    List.dropLast_cons_of_ne_nil (List.splitOn_ne_nil sep rest)]
  rfl

theorem remainder_cons {front : List α} (h : sep ∉ front) (rest : List α) :
    remainder sep (front ++ sep :: rest) = remainder sep rest := by
  simp only [remainder, List.splitOn_append_cons_self_of_not_mem h]
  exact List.getLast_cons _

/-- Either nothing is completed, or a first segment is. -/
theorem cases_separator (sep : α) (xs : List α) :
    sep ∉ xs ∨ ∃ front rest, xs = front ++ sep :: rest ∧ sep ∉ front := by
  by_cases h : sep ∈ xs
  · obtain ⟨front, rest, hsplit, hfront⟩ := List.eq_append_cons_of_mem h
    exact Or.inr ⟨front, rest, hsplit, hfront⟩
  · exact Or.inl h

theorem not_mem_remainder (sep : α) (xs : List α) : sep ∉ remainder sep xs := by
  induction hlength : xs.length using Nat.strongRecOn generalizing xs with
  | _ n ih =>
      rcases cases_separator sep xs with h | ⟨front, rest, rfl, hfront⟩
      · rwa [remainder_of_not_mem h]
      · rw [remainder_cons hfront]
        refine ih rest.length ?_ rest rfl
        rw [← hlength, List.length_append, List.length_cons]
        omega

/-- What comes later completes segments together with the remainder. -/
theorem splitOn_append (sep : α) (xs more : List α) :
    (xs ++ more).splitOn sep = completed sep xs ++ (remainder sep xs ++ more).splitOn sep := by
  induction hlength : xs.length using Nat.strongRecOn generalizing xs with
  | _ n ih =>
      rcases cases_separator sep xs with h | ⟨front, rest, rfl, hfront⟩
      · rw [completed_of_not_mem h, remainder_of_not_mem h, List.nil_append]
      · have hshorter : rest.length < n := by
          rw [← hlength, List.length_append, List.length_cons]
          omega
        rw [List.append_assoc, List.cons_append, List.splitOn_append_cons_self_of_not_mem hfront,
          ih rest.length hshorter rest rfl, completed_cons hfront, remainder_cons hfront,
          List.cons_append]

theorem completed_append (sep : α) (xs more : List α) :
    completed sep (xs ++ more) = completed sep xs ++ completed sep (remainder sep xs ++ more) := by
  rw [completed, splitOn_append,
    List.dropLast_append_of_ne_nil (List.splitOn_ne_nil sep _)]
  rfl

theorem remainder_append (sep : α) (xs more : List α) :
    remainder sep (xs ++ more) = remainder sep (remainder sep xs ++ more) := by
  simp only [remainder, splitOn_append sep xs more]
  exact List.getLast_append_of_ne_nil _ _

/-- The remainder is the beginning of a segment of the whole. -/
theorem remainder_prefix (sep : α) (xs more : List α) :
    ∃ segment ∈ (xs ++ more).splitOn sep, remainder sep xs <+: segment := by
  rw [splitOn_append]
  rcases cases_separator sep more with h | ⟨front, rest, rfl, hfront⟩
  · refine ⟨remainder sep xs ++ more, List.mem_append_right _ ?_, List.prefix_append _ _⟩
    rw [List.splitOn_eq_singleton]
    · exact List.mem_singleton_self _
    · simp [not_mem_remainder, h]
  · refine ⟨remainder sep xs ++ front, List.mem_append_right _ ?_, List.prefix_append _ _⟩
    rw [← List.append_assoc, List.splitOn_append_cons_self_of_not_mem]
    · exact List.mem_cons_self
    · simp [not_mem_remainder, hfront]

end Supryolo.Segments
