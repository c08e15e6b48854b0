import Mathlib.Algebra.BigOperators.Group.Finset.Basic
import Mathlib.Algebra.BigOperators.Intervals
import Mathlib.Data.Fintype.BigOperators
import Mathlib.Tactic

/-!
Launch grids. `blocks` blocks of `width` threads, each thread visiting `roll`
indices `width` apart, together visit every index below
`blocks * (roll * width)` exactly once. The statement is a sum over the grid in
an arbitrary commutative monoid, so it also holds for multisets of results.
-/

namespace Supryolo.Grid

variable {M : Type*} [AddCommMonoid M]

theorem sum_blocks (f : Nat → M) (blocks width : Nat) :
    ∑ b ∈ Finset.range blocks, ∑ j ∈ Finset.range width, f (b * width + j) =
      ∑ i ∈ Finset.range (blocks * width), f i := by
  induction blocks with
  | zero => simp
  | succ blocks ih =>
      rw [Finset.sum_range_succ, ih, Nat.succ_mul, Finset.sum_range_add]

/-- Every index below the size of the grid is visited by exactly one thread in
exactly one of its passes. -/
theorem sum_grid (f : Nat → M) (blocks width roll : Nat) :
    ∑ thread : Fin blocks × Fin width, ∑ k ∈ Finset.range roll,
        f (thread.1.val * width * roll + thread.2.val + k * width) =
      ∑ i ∈ Finset.range (blocks * (roll * width)), f i := by
  have hblock (b : Nat) :
      ∑ t ∈ Finset.range width, ∑ k ∈ Finset.range roll, f (b * width * roll + t + k * width) =
        ∑ j ∈ Finset.range (roll * width), f (b * (roll * width) + j) := by
    rw [Finset.sum_comm, ← sum_blocks (fun j => f (b * (roll * width) + j)) roll width]
    apply Finset.sum_congr rfl
    intro k _
    apply Finset.sum_congr rfl
    intro t _
    congr 1
    ring
  rw [Fintype.sum_prod_type, ← sum_blocks f blocks (roll * width),
    Finset.sum_range fun b => ∑ j ∈ Finset.range (roll * width), f (b * (roll * width) + j)]
  apply Finset.sum_congr rfl
  intro b _
  rw [← hblock, Finset.sum_range fun t =>
    ∑ k ∈ Finset.range roll, f (b.val * width * roll + t + k * width)]

/-- Indices past the bound are skipped. -/
theorem sum_guarded (f : Nat → M) (count total : Nat) (hle : count ≤ total) :
    ∑ i ∈ Finset.range total, (if i < count then f i else 0) =
      ∑ i ∈ Finset.range count, f i := by
  rw [← Finset.sum_filter]
  apply Finset.sum_congr _ fun _ _ => rfl
  ext i
  simp only [Finset.mem_filter, Finset.mem_range]
  omega

theorem coe_flatMap_range {α : Type*} (f : Nat → List α) (n : Nat) :
    ((List.range n).flatMap f : Multiset α) = ∑ i ∈ Finset.range n, (f i : Multiset α) := by
  induction n with
  | zero => simp
  | succ n ih =>
      rw [List.range_succ, Finset.sum_range_succ, List.flatMap_append, ← Multiset.coe_add, ih]
      simp

end Supryolo.Grid
