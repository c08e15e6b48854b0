import Mathlib.Data.List.DropRight
import Mathlib.Tactic.Common

namespace Supryolo.Retained

variable {α : Type}

/-- The oldest element makes room where there are too many. -/
def push (bound : Nat) (queue : List α) (x : α) : List α :=
  if (queue ++ [x]).length > bound then (queue ++ [x]).tail else queue ++ [x]

theorem rtake_of_length_le {bound : Nat} {xs : List α} (h : xs.length ≤ bound) :
    xs.rtake bound = xs := by
  rw [List.rtake, Nat.sub_eq_zero_of_le h, List.drop_zero]

theorem length_rtake (bound : Nat) (xs : List α) :
    (xs.rtake bound).length = min bound xs.length := by
  rw [List.rtake, List.length_drop]
  omega

theorem tail_rtake {bound : Nat} {xs : List α} (h : bound < xs.length) :
    (xs.rtake (bound + 1)).tail = xs.rtake bound := by
  rw [List.rtake, List.rtake, List.tail_drop]
  congr 1
  omega

/-- A queue holds the newest of all elements that were put into it. -/
theorem push_rtake (bound : Nat) (xs : List α) (x : α) :
    push bound (xs.rtake bound) x = (xs ++ [x]).rtake bound := by
  cases bound with
  | zero => simp [push, List.rtake_zero]
  | succ bound =>
      rw [List.rtake_concat_succ, push, List.length_append, length_rtake, List.length_singleton]
      by_cases h : bound < xs.length
      · rw [if_pos (by omega), List.tail_append_of_ne_nil, tail_rtake h]
        rw [← List.length_pos_iff, length_rtake]
        omega
      · rw [if_neg (by omega), rtake_of_length_le (by omega), rtake_of_length_le (by omega)]

/-- The elements put in before each emptying, and those put in since. -/
structure Batches (α : Type) where
  done : List (List α) := []
  since : List α := []

namespace Batches

def put (b : Batches α) (x : α) : Batches α := { b with since := b.since ++ [x] }

def drain (b : Batches α) : Batches α := { done := b.done ++ [b.since] }

/-- All elements that were put in. -/
def all (b : Batches α) : List α := b.done.flatten ++ b.since

@[simp] theorem all_put (b : Batches α) (x : α) : (b.put x).all = b.all ++ [x] := by
  rw [all, all, put, List.append_assoc]

@[simp] theorem all_drain (b : Batches α) : b.drain.all = b.all := by
  rw [all, all, drain, List.flatten_append, List.flatten_singleton, List.append_nil]

end Batches

end Supryolo.Retained
