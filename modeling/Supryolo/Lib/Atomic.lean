import Mathlib.Algebra.BigOperators.Group.Finset.Basic
import Mathlib.Algebra.Order.BigOperators.Group.Finset
import Mathlib.Data.Fintype.BigOperators
import Mathlib.Logic.Relation
import Mathlib.Tactic

/-!
Threads that append to one bounded buffer through an atomic counter. A thread
claims a slot by fetch-and-increment and later stores its item there, unless
the slot lies past the end of the buffer. Claims and stores of different
threads interleave freely. The counter is a machine integer and wraps at
`modulus`.

Whatever the order, a finished execution has counted every item once, and when
all items fit the filled part of the buffer is a permutation of them.
-/

namespace Supryolo.Atomic

variable {ι α : Type*} [DecidableEq ι]

/-- Items a thread has still to append, and the slot it has claimed but not
yet written. -/
structure Thread (α : Type*) where
  remaining : List α
  claimed : Option (Nat × α)

structure Config (ι α : Type*) where
  counter : Nat
  slots : Nat → α
  threads : ι → Thread α

/-- Memory holds arbitrary values before the threads start. -/
def Config.initial (items : ι → List α) (memory : Nat → α) : Config ι α where
  counter := 0
  slots := memory
  threads i := ⟨items i, none⟩

inductive Step (capacity modulus : Nat) : Config ι α → Config ι α → Prop
  | claim (c : Config ι α) (i : ι) (x : α) (rest : List α)
      (hthread : c.threads i = ⟨x :: rest, none⟩) :
      Step capacity modulus c
        { c with
          counter := (c.counter + 1) % modulus
          threads := Function.update c.threads i ⟨rest, some (c.counter, x)⟩ }
  | store (c : Config ι α) (i : ι) (rest : List α) (slot : Nat) (x : α)
      (hthread : c.threads i = ⟨rest, some (slot, x)⟩) :
      Step capacity modulus c
        { c with
          slots := if slot < capacity then Function.update c.slots slot x else c.slots
          threads := Function.update c.threads i ⟨rest, none⟩ }

def Run (capacity modulus : Nat) : Config ι α → Config ι α → Prop :=
  Relation.ReflTransGen (Step capacity modulus)

def Config.Done (c : Config ι α) : Prop := ∀ i, c.threads i = ⟨[], none⟩

variable [Fintype ι]

/-- All items that some thread has still to append. -/
def Config.pending (c : Config ι α) : Multiset α :=
  ∑ i, ((c.threads i).remaining : Multiset α)

/-- `log` lists the items in the order of their claims: it accounts for every
item no longer pending, and slot `k` holds entry `k` or is about to. -/
structure Logged (capacity : Nat) (all : Multiset α) (c : Config ι α) (log : List α) :
    Prop where
  counter : c.counter = log.length
  items : (log : Multiset α) + c.pending = all
  claims : ∀ i slot x, (c.threads i).claimed = some (slot, x) → log[slot]? = some x
  slots : ∀ k x, k < capacity → log[k]? = some x →
    c.slots k = x ∨ ∃ i, (c.threads i).claimed = some (k, x)

omit [DecidableEq ι] in
/-- Sums that agree in all terms but one differ by that term. -/
theorem sum_others {M : Type*} [AddCommMonoid M] {f g : ι → M} {i : ι}
    (hothers : ∀ k, k ≠ i → g k = f k) : ∑ k, g k + f i = ∑ k, f k + g i := by
  classical
  have hsplit (h : ι → M) : ∑ k, h k = h i + ∑ k ∈ Finset.univ.erase i, h k :=
    (Finset.add_sum_erase Finset.univ h (Finset.mem_univ i)).symm
  have hrest : ∑ k ∈ Finset.univ.erase i, g k = ∑ k ∈ Finset.univ.erase i, f k :=
    Finset.sum_congr rfl fun k hk => hothers k (Finset.ne_of_mem_erase hk)
  rw [hsplit g, hsplit f, hrest]
  abel

/-- Changing one thread changes a sum over all threads by that thread's terms. -/
theorem sum_update {M : Type*} [AddCommMonoid M] (f : Thread α → M) (threads : ι → Thread α)
    (i : ι) (thread : Thread α) :
    ∑ j, f (Function.update threads i thread j) + f (threads i) =
      ∑ j, f (threads j) + f thread := by
  have hsplit (h : ι → M) : ∑ j, h j = h i + ∑ j ∈ Finset.univ.erase i, h j :=
    (Finset.add_sum_erase Finset.univ h (Finset.mem_univ i)).symm
  have hrest : ∑ j ∈ Finset.univ.erase i, f (Function.update threads i thread j) =
      ∑ j ∈ Finset.univ.erase i, f (threads j) := by
    apply Finset.sum_congr rfl
    intro j hj
    rw [Function.update_of_ne (Finset.ne_of_mem_erase hj)]
  rw [hsplit, hsplit fun j => f (threads j), hrest, Function.update_self]
  abel

omit [DecidableEq ι] in
theorem Logged.initial (capacity : Nat) (items : ι → List α) (memory : Nat → α) :
    Logged capacity (∑ i, (items i : Multiset α)) (Config.initial items memory) [] where
  counter := rfl
  items := by simp [Config.pending, Config.initial]
  claims i slot x h := by simp [Config.initial] at h
  slots k x _ h := by simp at h

/-- Every step extends or keeps the log. -/
theorem Logged.step {capacity modulus : Nat} {all : Multiset α} {c c' : Config ι α}
    {log : List α} (hlog : Logged capacity all c log) (hfit : Multiset.card all < modulus)
    (hstep : Step capacity modulus c c') : ∃ log', Logged capacity all c' log' := by
  cases hstep with
  | claim i x rest hthread =>
      have hsum := sum_update (fun t => (t.remaining : Multiset α)) c.threads i
        ⟨rest, some (c.counter, x)⟩
      rw [hthread] at hsum
      have hpending : c.pending = {x} +
          ∑ j, ((Function.update c.threads i ⟨rest, some (c.counter, x)⟩ j).remaining :
            Multiset α) := by
        apply add_right_cancel (b := (rest : Multiset α))
        rw [Config.pending, ← hsum, ← Multiset.cons_coe, ← Multiset.singleton_add]
        abel
      have hcard : log.length + 1 ≤ Multiset.card all := by
        rw [← hlog.items, hpending]
        simp
      refine ⟨log ++ [x], ?_, ?_, ?_, ?_⟩
      · simp only [hlog.counter, List.length_append, List.length_singleton]
        exact Nat.mod_eq_of_lt (by omega)
      · rw [← hlog.items, hpending, Config.pending, ← Multiset.coe_add, Multiset.coe_singleton,
          add_assoc]
      · intro j slot y hclaim
        by_cases hj : j = i
        · subst hj
          simp only [Function.update_self, Option.some.injEq, Prod.mk.injEq] at hclaim
          obtain ⟨rfl, rfl⟩ := hclaim
          rw [hlog.counter, List.getElem?_concat_length]
        · simp only [Function.update_of_ne hj] at hclaim
          have hold := hlog.claims j slot y hclaim
          rw [List.getElem?_append_left (List.getElem?_eq_some_iff.mp hold).1]
          exact hold
      · intro k y hk hy
        by_cases hlast : k = log.length
        · subst hlast
          rw [List.getElem?_concat_length] at hy
          cases hy
          exact Or.inr ⟨i, by simp [hlog.counter]⟩
        · have hold : log[k]? = some y := by
            have hlt := (List.getElem?_eq_some_iff.mp hy).1
            simp only [List.length_append, List.length_singleton] at hlt
            rwa [List.getElem?_append_left (by omega)] at hy
          rcases hlog.slots k y hk hold with hslot | ⟨j, hj⟩
          · exact Or.inl hslot
          · refine Or.inr ⟨j, ?_⟩
            have hne : j ≠ i := by
              rintro rfl
              rw [hthread] at hj
              cases hj
            simpa [Function.update_of_ne hne] using hj
  | store i rest slot x hthread =>
      have hsum := sum_update (fun t => (t.remaining : Multiset α)) c.threads i ⟨rest, none⟩
      rw [hthread] at hsum
      have hpending : c.pending =
          ∑ j, ((Function.update c.threads i ⟨rest, none⟩ j).remaining : Multiset α) :=
        (add_right_cancel hsum).symm
      have hentry : log[slot]? = some x := hlog.claims i slot x (by rw [hthread])
      refine ⟨log, hlog.counter, ?_, ?_, ?_⟩
      · rw [← hlog.items, hpending]
        rfl
      · intro j other y hclaim
        by_cases hj : j = i
        · subst hj
          simp at hclaim
        · simp only [Function.update_of_ne hj] at hclaim
          exact hlog.claims j other y hclaim
      · intro k y hk hy
        by_cases hsame : k = slot
        · subst hsame
          rw [hentry] at hy
          cases hy
          exact Or.inl (by simp [hk])
        · rcases hlog.slots k y hk hy with hslot | ⟨j, hj⟩
          · refine Or.inl ?_
            dsimp only
            split
            · rw [Function.update_of_ne hsame]
              exact hslot
            · exact hslot
          · refine Or.inr ⟨j, ?_⟩
            have hne : j ≠ i := by
              rintro rfl
              rw [hthread] at hj
              simp only [Option.some.injEq, Prod.mk.injEq] at hj
              exact hsame hj.1.symm
            simpa [Function.update_of_ne hne] using hj

theorem Run.logged {capacity modulus : Nat} {items : ι → List α} {memory : Nat → α}
    {c : Config ι α} (hrun : Run capacity modulus (Config.initial items memory) c)
    (hfit : Multiset.card (∑ i, (items i : Multiset α)) < modulus) :
    ∃ log, Logged capacity (∑ i, (items i : Multiset α)) c log := by
  induction hrun with
  | refl => exact ⟨[], Logged.initial capacity items memory⟩
  | tail _ hstep ih =>
      obtain ⟨log, hlog⟩ := ih
      exact hlog.step hfit hstep

/-- A finished execution has counted every item, in whatever order the threads
ran; if the items fit, the filled slots hold exactly them. -/
theorem Run.done {capacity modulus : Nat} {items : ι → List α} {memory : Nat → α}
    {c : Config ι α} (hrun : Run capacity modulus (Config.initial items memory) c)
    (hdone : c.Done) (hfit : Multiset.card (∑ i, (items i : Multiset α)) < modulus) :
    c.counter = Multiset.card (∑ i, (items i : Multiset α)) ∧
      (c.counter ≤ capacity →
        ((List.range c.counter).map c.slots : Multiset α) = ∑ i, (items i : Multiset α)) := by
  obtain ⟨log, hlog⟩ := hrun.logged hfit
  have hpending : c.pending = 0 := by
    apply Finset.sum_eq_zero
    intro i _
    rw [hdone i]
    rfl
  have hitems := hlog.items
  rw [hpending, add_zero] at hitems
  refine ⟨by rw [hlog.counter, ← hitems]; rfl, ?_⟩
  intro hcapacity
  rw [← hitems, hlog.counter]
  congr 1
  apply List.ext_getElem (by simp)
  intro k hk hk'
  rw [List.getElem_map, List.getElem_range]
  rcases hlog.slots k log[k] (by rw [hlog.counter] at hcapacity; omega) (by simp) with
    hslot | ⟨i, hclaim⟩
  · exact hslot
  · rw [hdone i] at hclaim
    cases hclaim

/-- Steps left to the thread: a claim and a store for each remaining item. -/
def Thread.weight (t : Thread α) : Nat :=
  2 * t.remaining.length + (if t.claimed.isSome then 1 else 0)

/-- Steps left to all threads together. -/
def Config.weight (c : Config ι α) : Nat := ∑ i, (c.threads i).weight

theorem Step.weight_lt {capacity modulus : Nat} {c c' : Config ι α}
    (hstep : Step capacity modulus c c') : c'.weight < c.weight := by
  cases hstep with
  | claim i x rest hthread =>
      have hsum := sum_update Thread.weight c.threads i ⟨rest, some (c.counter, x)⟩
      simp only [hthread, Thread.weight, List.length_cons, Option.isSome] at hsum
      simp only [Config.weight, Thread.weight, Option.isSome]
      grind
  | store i rest slot x hthread =>
      have hsum := sum_update Thread.weight c.threads i ⟨rest, none⟩
      simp only [hthread, Thread.weight, Option.isSome] at hsum
      simp only [Config.weight, Thread.weight, Option.isSome]
      grind

omit [Fintype ι] in
theorem exists_step_of_not_done (capacity modulus : Nat) {c : Config ι α} (h : ¬ c.Done) :
    ∃ c', Step capacity modulus c c' := by
  simp only [Config.Done, not_forall] at h
  obtain ⟨i, hi⟩ := h
  cases hthread : c.threads i with
  | mk remaining claimed =>
      cases claimed with
      | some claim => exact ⟨_, Step.store c i remaining claim.1 claim.2 hthread⟩
      | none =>
          cases remaining with
          | nil => exact absurd hthread hi
          | cons x rest => exact ⟨_, Step.claim c i x rest hthread⟩

/-- No execution runs for ever: each one can be completed. -/
theorem exists_done (capacity modulus : Nat) (c : Config ι α) :
    ∃ c', Run capacity modulus c c' ∧ c'.Done := by
  induction hweight : c.weight using Nat.strong_induction_on generalizing c with
  | _ n ih =>
      by_cases hdone : c.Done
      · exact ⟨c, Relation.ReflTransGen.refl, hdone⟩
      · obtain ⟨next, hstep⟩ := exists_step_of_not_done capacity modulus hdone
        obtain ⟨last, hrun, hlast⟩ := ih next.weight (hweight ▸ hstep.weight_lt) next rfl
        exact ⟨last, Relation.ReflTransGen.head hstep hrun, hlast⟩

end Supryolo.Atomic
