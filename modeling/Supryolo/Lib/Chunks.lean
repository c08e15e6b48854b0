import Mathlib.Tactic

namespace Supryolo.Chunks

variable {α : Type} {n : Nat}

/-- The loop of `toChunks` fills the piece at hand before it starts another. -/
private theorem go_eq (hn : 0 < n) (xs : List α) (piece : Array α) (done : Array (List α))
    (hpiece : 0 < piece.size) (hle : piece.size ≤ n) :
    List.toChunks.go n xs piece done =
      done.toList ++ (piece.toList ++ xs.take (n - piece.size)) ::
        (xs.drop (n - piece.size)).toChunks n := by
  induction xs generalizing piece done with
  | nil => simp [List.toChunks.go, List.toChunks]
  | cons x xs ih =>
      rw [List.toChunks.go]
      by_cases hfull : piece.size = n
      · obtain ⟨m, rfl⟩ := Nat.exists_eq_succ_of_ne_zero hn.ne'
        have hnext (done : Array (List α)) : List.toChunks.go (m + 1) xs #[x] done =
            done.toList ++ (x :: xs.take m) :: (xs.drop m).toChunks (m + 1) := by
          rw [ih #[x] done (by simp) (by simp)]
          simp
        have hstart : (x :: xs).toChunks (m + 1) =
            (x :: xs.take m) :: (xs.drop m).toChunks (m + 1) := by
          rw [List.toChunks, hnext]
          · simp
          · exact m.succ_ne_zero
        rw [if_pos (by simp [hfull])]
        have hempty : ((Array.mkEmpty (m + 1)).push x : Array α) = #[x] := rfl
        rw [hempty, hnext, hfull]
        simp [hstart]
      · rw [if_neg (by simp [hfull]), ih _ _ (by simp) (by simp; omega)]
        obtain ⟨k, hk⟩ : ∃ k, n - piece.size = k + 1 := ⟨n - piece.size - 1, by omega⟩
        have hk' : n - (piece.push x).size = k := by
          simp
          omega
        rw [hk, hk']
        simp

/-- The first piece is the front of the list. -/
theorem toChunks_eq (hn : 0 < n) {xs : List α} (hxs : xs ≠ []) :
    xs.toChunks n = xs.take n :: (xs.drop n).toChunks n := by
  cases xs with
  | nil => exact absurd rfl hxs
  | cons x xs =>
      obtain ⟨m, rfl⟩ := Nat.exists_eq_succ_of_ne_zero hn.ne'
      rw [List.toChunks, go_eq hn _ _ _ (by simp) (by simp)]
      · simp
      · exact hn.ne'

@[simp] theorem toChunks_nil : ([] : List α).toChunks n = [] := by
  unfold List.toChunks
  rfl

theorem length_le_of_mem_toChunks (hn : 0 < n) {xs piece : List α} (h : piece ∈ xs.toChunks n) :
    piece.length ≤ n := by
  induction hlength : xs.length using Nat.strong_induction_on generalizing xs with
  | _ m ih =>
      by_cases hxs : xs = []
      · rw [hxs, toChunks_nil] at h
        cases h
      · have hpositive := List.length_pos_iff.mpr hxs
        rw [toChunks_eq hn hxs] at h
        rcases List.mem_cons.mp h with rfl | h
        · exact List.length_take_le n xs
        · exact ih (xs.drop n).length (by rw [List.length_drop]; omega) h rfl

/-- How many pieces there are. -/
theorem length_toChunks (hn : 0 < n) (xs : List α) :
    (xs.toChunks n).length = (xs.length + n - 1) / n := by
  induction hlength : xs.length using Nat.strong_induction_on generalizing xs with
  | _ m ih =>
      by_cases hxs : xs = []
      · subst hxs
        obtain rfl : 0 = m := hlength
        rw [toChunks_nil, List.length_nil, Nat.zero_add, Nat.div_eq_of_lt (by omega)]
      · have hpositive := List.length_pos_iff.mpr hxs
        have hdrop : (xs.drop n).length = m - n := by rw [List.length_drop, hlength]
        rw [toChunks_eq hn hxs, List.length_cons, ih (m - n) (by omega) (xs.drop n) hdrop]
        by_cases hle : m ≤ n
        · have hzero : m - n = 0 := by omega
          rw [hzero, Nat.zero_add, Nat.div_eq_of_lt (by omega), Nat.div_eq_of_lt_le] <;> omega
        · have hsplit : m + n - 1 = (m - n + n - 1) + n := by omega
          rw [hsplit, Nat.add_div_right _ hn]

end Supryolo.Chunks
