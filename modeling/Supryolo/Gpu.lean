import Supryolo.Cpu
import Supryolo.Lib.Atomic
import Supryolo.Lib.Grid
import Supryolo.Lib.Loops

/-!
What the CUDA and OpenCL backends share. Both kernels hash an 80-byte header
whose message words and, optionally, whose partly mixed first-round state the
host has prepared; both keep a nonce when the first digest word passes a 64-bit
prefilter, and both append it to a buffer of 4096 slots through an atomic
counter that the host reads back.
-/

namespace Supryolo.Gpu

open Words Rounds

def capacity : Nat := 4096

/-- Working state before the first round, as host and device code set it up. -/
def stateInitial : State UInt64 :=
  let v : State UInt64 := Vector.ofFn fun i => iv[i.val % 8]
  let v := put v 0 (v.get 0 ^^^ 0x01010020)
  let v := put v 12 (v.get 12 ^^^ 80)
  put v 14 (~~~(v.get 14))

/-- The three first-round column steps that do not read the nonce, which the
host applies once per launch. -/
def hostInitial (m : Vector UInt64 10) : State UInt64 :=
  let v := g stateInitial 0 4 8 12 (m.get 0) (m.get 1)
  let v := g v 1 5 9 13 (m.get 2) (m.get 3)
  g v 3 7 11 15 (m.get 6) (m.get 7)

/-- The message words a thread works on. -/
def kernelMessage (m : Vector UInt64 10) (nonce : UInt64) : State UInt64 :=
  let words : State UInt64 := Vector.ofFn fun i => if h : i.val < 10 then m[i.val] else 0
  put words 4 nonce

/-- One pass of the round loop. With `precompute` the first pass leaves out the
column steps the host has applied. -/
def kernelRound (mix : Mix UInt64) (precompute : Bool) (m : State UInt64) (s : Row) (r : Nat)
    (v : State UInt64) : State UInt64 :=
  let v :=
    if !precompute || r != 0 then
      let v := column mix v 0 4 8 12 (m.get (s.get 0)) (m.get (s.get 1))
      column mix v 1 5 9 13 (m.get (s.get 2)) (m.get (s.get 3))
    else v
  let v := column mix v 2 6 10 14 (m.get (s.get 4)) (m.get (s.get 5))
  let v := if !precompute || r != 0 then column mix v 3 7 11 15 (m.get (s.get 6)) (m.get (s.get 7)) else v
  diagonals mix m s v

/-- The round loop of `hash80`. -/
def kernelRounds (mix : Mix UInt64) (precompute : Bool) (rows : Vector Row 12)
    (m : Vector UInt64 10) (initial : State UInt64) (nonce : UInt64) : State UInt64 :=
  (List.finRange 12).foldl
    (fun v r => kernelRound mix precompute (kernelMessage m nonce) (rows.get r) r.val v)
    (if precompute then initial else stateInitial)

theorem stateInitial_eq : stateInitial = blakeInitial 80 := by decide

theorem kernelMessage_header (h : Header) (nonce : UInt64) :
    kernelMessage (Vector.ofFn fun i => loadLe h (8 * i)) nonce =
      headerMessage (storeLe h 32 nonce) := by
  rw [headerMessage_storeLe]
  apply congrArg fun words : State UInt64 => put words 4 nonce
  apply Vector.ext
  intro i hi
  simp [headerMessage]

theorem kernelRound_full (mix : Mix UInt64) (precompute : Bool) (m : State UInt64) (s : Row)
    (r : Nat) (v : State UInt64) (hfull : precompute = false ∨ r ≠ 0) :
    kernelRound mix precompute m s r v = mixRound mix m s v := by
  have hguard : (!precompute || r != 0) = true := by
    rcases hfull with rfl | hr
    · rfl
    · simp [hr]
  simp only [kernelRound, hguard, if_true, mixRound, columns]

/-- The shortened first pass completes the host's work to a full round: the
step it keeps touches none of the words of the steps it leaves out. -/
theorem kernelRound_precomputed (m : Vector UInt64 10) (nonce : UInt64) (s : Row)
    (hrow : s = sigma.get 0) :
    kernelRound mixWords true (kernelMessage m nonce) s 0 (hostInitial m) =
      mixRound mixWords (kernelMessage m nonce) s stateInitial := by
  subst hrow
  have hword (i : Fin 16) (hi : i.val < 10) (hne : i.val ≠ 4) :
      (kernelMessage m nonce).get i = m[i.val] := by
    simp [kernelMessage, put, get_val, hi, Ne.symm hne]
  have hguard : (!true || (0 : Nat) != 0) = false := rfl
  have h0 : (kernelMessage m nonce).get ((sigma.get 0).get 0) = m.get 0 := hword 0 (by decide) (by decide)
  have h1 : (kernelMessage m nonce).get ((sigma.get 0).get 1) = m.get 1 := hword 1 (by decide) (by decide)
  have h2 : (kernelMessage m nonce).get ((sigma.get 0).get 2) = m.get 2 := hword 2 (by decide) (by decide)
  have h3 : (kernelMessage m nonce).get ((sigma.get 0).get 3) = m.get 3 := hword 3 (by decide) (by decide)
  have h6 : (kernelMessage m nonce).get ((sigma.get 0).get 6) = m.get 6 := hword 6 (by decide) (by decide)
  have h7 : (kernelMessage m nonce).get ((sigma.get 0).get 7) = m.get 7 := hword 7 (by decide) (by decide)
  simp only [kernelRound, hguard, Bool.false_eq_true, if_false, mixRound, columns, hostInitial,
    h0, h1, h2, h3, h6, h7]
  rw [g_eq_column _ _ _ _ _ _ _ (by decide), g_eq_column _ _ _ _ _ _ _ (by decide),
    g_eq_column _ _ _ _ _ _ _ (by decide),
    column_comm _ _ 3 7 11 15 2 6 10 14 _ _ _ _ (by decide)]

/-- With the standard schedule and mixing step, the kernel's round loop is the
scalar one, with and without the host's share of the first round. -/
theorem kernelRounds_eq (precompute : Bool) (rows : Vector Row 12) (m : Vector UInt64 10)
    (nonce : UInt64) (hrows : rows.toList = schedule) :
    kernelRounds mixWords precompute rows m (hostInitial m) nonce =
      mixRounds mixWords (kernelMessage m nonce) schedule stateInitial := by
  have hrow : rows.get 0 = sigma.get 0 := by
    have hhead : rows.toList[0] = schedule[0] := by simp only [hrows]
    exact hhead
  have hlist : schedule = (List.finRange 12).map rows.get := by
    rw [← hrows]
    apply List.ext_getElem (by simp)
    intro i hi hi'
    simp [get_val]
  have hrange : List.finRange 12 = 0 :: (List.finRange 11).map Fin.succ := by decide
  rw [hlist, mixRounds, List.foldl_map, kernelRounds, hrange, List.foldl_cons, List.foldl_cons]
  have hfirst : kernelRound mixWords precompute (kernelMessage m nonce) (rows.get 0) 0
      (if precompute then hostInitial m else stateInitial) =
        mixRound mixWords (kernelMessage m nonce) (rows.get 0) stateInitial := by
    cases precompute with
    | false => exact kernelRound_full _ _ _ _ _ _ (Or.inl rfl)
    | true => exact kernelRound_precomputed m nonce _ hrow
  change List.foldl _ (kernelRound mixWords precompute (kernelMessage m nonce) (rows.get 0) 0
    (if precompute then hostInitial m else stateInitial)) _ = _
  rw [hfirst]
  apply List.foldl_ext
  intro v r hr
  obtain ⟨q, -, rfl⟩ := List.mem_map.mp hr
  exact kernelRound_full _ _ _ _ _ _ (Or.inr (by simp))

/-- The first digest word, which alone the kernels look at. -/
theorem blakeWords_zero (m : State UInt64) :
    (blakeWords 80 m).get 0 =
      iv.get 0 ^^^ (0x01010020 : UInt64) ^^^
        lower (mixRounds mixWords m schedule (blakeInitial 80)) 0 ^^^
        upper (mixRounds mixWords m schedule (blakeInitial 80)) 0 :=
  blakeWords_get 80 m 0

/-- The 64-bit prefilter: the first eight digest bytes of the nonce's header do
not exceed the first eight target bytes. -/
def passes (w : Work) (n : UInt64) : Bool :=
  decide (leading (digest (storeLe w.header 32 n)) ≤ leading w.target)

/-- The nonces of a range that pass the prefilter. -/
def candidates (w : Work) (start : UInt64) (count : UInt32) : List UInt64 :=
  (nonceRange start count.toNat).filter (passes w)

theorem passes_of_hits {w : Work} {n : UInt64} (hhit : hits w n = true) : passes w n = true :=
  decide_eq_true (leading_le_of_meets hhit)

theorem candidates_filter_hits (w : Work) (start : UInt64) (count : UInt32) :
    (candidates w start count).filter (hits w) = (nonceRange start count.toNat).filter (hits w) := by
  rw [candidates, List.filter_filter]
  apply List.filter_congr
  intro n _
  cases hhit : hits w n with
  | false => rfl
  | true => simp [passes_of_hits hhit]

theorem candidates_length_le (w : Work) (start : UInt64) (count : UInt32) :
    (candidates w start count).length ≤ count.toNat := by
  refine (List.length_filter_le _ _).trans ?_
  simp [nonceRange]

/-- A thread's appends: the index it computes, when in range, and the nonce
there, when the prefilter lets it through. -/
def appends (w : Work) (start : UInt64) (count : UInt32) (i : Nat) : List UInt64 :=
  if i < count.toNat then [start + i.toUInt64].filter (passes w) else []

/-- A grid that reaches at least `count` indices appends exactly the candidates. -/
theorem sum_appends (w : Work) (start : UInt64) (count : UInt32) (blocks width roll : Nat)
    (hcover : count.toNat ≤ blocks * (roll * width)) :
    ∑ thread : Fin blocks × Fin width,
        ((List.range roll).flatMap (fun k => appends w start count
          (thread.1.val * width * roll + thread.2.val + k * width)) : Multiset UInt64) =
      (candidates w start count : Multiset UInt64) := by
  simp only [Grid.coe_flatMap_range]
  rw [Grid.sum_grid fun i => (appends w start count i : Multiset UInt64)]
  have hguard (i : Nat) : (appends w start count i : Multiset UInt64) =
      if i < count.toNat then (([start + i.toUInt64].filter (passes w) : List UInt64) :
        Multiset UInt64) else 0 := by
    unfold appends
    split <;> rfl
  simp only [hguard]
  rw [Grid.sum_guarded _ _ _ hcover, ← Grid.coe_flatMap_range, candidates, nonceRange,
    ← Loops.flatMap_filter_singleton (passes w), List.flatMap_map]

/-- A launch runs every thread of the grid to its end, in any interleaving of
their claims and stores, from a zeroed counter and an arbitrary buffer. -/
def Executes {threads : Type} [DecidableEq threads] (items : threads → List UInt64)
    (last : Atomic.Config threads UInt64) : Prop :=
  ∃ memory, Atomic.Run capacity (2 ^ 32) (Atomic.Config.initial items memory) last ∧ last.Done

/-- The part of the buffer the host reads back. -/
def readBack {threads : Type} (last : Atomic.Config threads UInt64) : List UInt64 :=
  (List.range last.counter).map last.slots

section Launch

variable {threads : Type} [DecidableEq threads] [Fintype threads]
  {items : threads → List UInt64}

theorem exists_executes (items : threads → List UInt64) : ∃ last, Executes items last := by
  obtain ⟨last, hrun, hdone⟩ :=
    Atomic.exists_done capacity (2 ^ 32) (Atomic.Config.initial items fun _ => 0)
  exact ⟨last, fun _ => 0, hrun, hdone⟩

/-- Whatever the interleaving, the counter ends at the number of candidates,
and a buffer that was large enough holds them in some order. -/
theorem Executes.candidates {w : Work} {start : UInt64} {count : UInt32}
    {last : Atomic.Config threads UInt64} (hexec : Executes items last)
    (hitems : ∑ i, (items i : Multiset UInt64) = (candidates w start count : Multiset UInt64)) :
    last.counter = (Gpu.candidates w start count).length ∧
      (last.counter ≤ capacity → List.Perm (readBack last) (Gpu.candidates w start count)) := by
  obtain ⟨memory, hrun, hdone⟩ := hexec
  have hfit : Multiset.card (∑ i, (items i : Multiset UInt64)) < 2 ^ 32 := by
    rw [hitems]
    exact lt_of_le_of_lt (candidates_length_le w start count) count.toNat_lt
  obtain ⟨hcounter, hslots⟩ := hrun.done hdone hfit
  rw [hitems] at hcounter hslots
  exact ⟨hcounter, fun hle => Multiset.coe_eq_coe.mp (hslots hle)⟩

end Launch

end Supryolo.Gpu
