import Supryolo.Gpu

/-!
Model of `opencl/blake2b.cl` and of the scan path of `opencl/runtime.cpp`. The
preprocessor switches `PRECOMPUTE` and `AMD_ROTATE` are arguments. Failures of
the OpenCL runtime itself are left out: a launch runs every work-item of its
range once.
-/

namespace Supryolo

/-- A backend instance. The constructor throws for any other workgroup size, and
variants 0 to 3 are the pairs of the two switches. -/
structure OpenCl where
  block : Nat
  precompute : Bool
  amdRotate : Bool
  admitted : 32 ≤ block ∧ block ≤ 1024 ∧ block % 32 = 0

end Supryolo

namespace Supryolo.OpenCl

open Words Rounds Gpu Loops

/-- `cl_amd_media_ops`: the low half of `src0:src1` shifted right. -/
def amdBitalign (src0 src1 n : UInt32) : UInt32 := funnelShift src0 src1 n

/-- On a little-endian device `as_uint2` yields the low half as `s0` and the
high half as `s1`; `as_ulong` puts them together again. -/
def asUlong (s0 s1 : UInt32) : UInt64 := pack s1 s0

def amdRor (x : UInt64) (n : UInt32) : UInt64 :=
  let s0 := lowHalf x
  let s1 := highHalf x
  if n = 32 then asUlong s1 s0
  else if n < 32 then asUlong (amdBitalign s1 s0 n) (amdBitalign s0 s1 n)
  else asUlong (amdBitalign s0 s1 (n - 32)) (amdBitalign s1 s0 (n - 32))

/-- The built-in `rotate`: bits shifted off the left side return on the right. -/
def rotate (x i : UInt64) : UInt64 := (x <<< (i % 64)) ||| (x >>> (64 - i % 64))

def ror (amdRotate : Bool) (x : UInt64) (n : UInt32) : UInt64 :=
  if amdRotate then amdRor x n else rotate x (64 - n.toUInt64)

/-- The macro `G`. -/
def mix (amdRotate : Bool) : Mix UInt64 := fun a b c d x y =>
  let a := a + (b + x)
  let d := ror amdRotate (d ^^^ a) 32
  let c := c + d
  let b := ror amdRotate (b ^^^ c) 24
  let a := a + (b + y)
  let d := ror amdRotate (d ^^^ a) 16
  let c := c + d
  let b := ror amdRotate (b ^^^ c) 63
  ⟨a, b, c, d⟩

/-- The kernel reads ten message words and the sixteen words of the prepared
state from one buffer. -/
def hash80 (precompute amdRotate : Bool) (input : Vector UInt64 26) (nonce : UInt64) :
    Vector UInt64 4 :=
  let m : Vector UInt64 10 := Vector.ofFn fun i => input[i.val]
  let initial : State UInt64 := Vector.ofFn fun i => input[10 + i.val]
  let rows : Vector Row 12 := Vector.ofFn fun r => sigma.get (Fin.ofNat 10 r.val)
  let v := kernelRounds (mix amdRotate) precompute rows m initial nonce
  Vector.ofFn fun word =>
    let i := Fin.castAdd 4 word
    iv.get i ^^^ (if word.val = 0 then 0x01010020 else 0) ^^^ lower v i ^^^ upper v i

/-- `as_uchar8(x).s76543210` reverses the eight bytes. -/
def swap64 (x : UInt64) : UInt64 := leWord (leBytes 8 x).reverse

/-- The nonces the work-item with the given global id appends. -/
def scanItem (precompute amdRotate : Bool) (input : Vector UInt64 26) (start : UInt64)
    (count : UInt32) (target : UInt64) (i : Nat) : List UInt64 :=
  if i ≥ count.toNat then []
  else if swap64 ((hash80 precompute amdRotate input (start + i.toUInt64)).get 0) ≤ target then
    [start + i.toUInt64]
  else []

/-- The 26-word buffer: the header's words and the partly mixed state. -/
def prepare (h : Header) : Vector UInt64 26 :=
  let m : Vector UInt64 10 := Vector.ofFn fun i => loadLe h (8 * i)
  m ++ hostInitial m

/-- The global size is `count` rounded up to whole workgroups. -/
def global (block : Nat) (count : UInt32) : Nat := (count.toNat + block - 1) / block * block

/-- Body of the host's loop over the candidates. -/
def collectStep (w : Work) (start : UInt64) (count : UInt32) (target : UInt64)
    (nonces : List UInt64) (nonce : UInt64) : Except String (List UInt64) :=
  if nonce < start ∨ nonce - start ≥ count.toUInt64 then throw "OpenCL nonce out of range"
  else do
    let hash ← blake2b256 (storeLe w.header 32 nonce).toList
    let high := beWord (hash.toList.take 8)
    if high > target then throw "OpenCL candidate failed scalar validation"
    pure (if meets hash w.target then nonces ++ [nonce] else nonces)

/-- `std::adjacent_find` found an equal pair. -/
def hasAdjacentEqual : List UInt64 → Bool
  | first :: second :: rest => first == second || hasAdjacentEqual (second :: rest)
  | _ => false

def collect (w : Work) (start : UInt64) (count : UInt32) (n : Nat) (found : List UInt64) :
    Except String Scan :=
  let target := beWord (w.target.toList.take 8)
  if n > capacity then
    throw "OpenCL candidate buffer overflow; reduce batch or increase difficulty"
  else do
    let nonces ← found.foldlM (collectStep w start count target) []
    let sorted := nonces.mergeSort fun a b => decide (a ≤ b)
    if hasAdjacentEqual sorted then throw "duplicate OpenCL candidate"
    pure { hashes := count.toUInt64, nonces := sorted }

/-- The possible outcomes of `OpenCl::scan`, one for each order of the
work-items' atomic steps. -/
inductive ScansTo (c : OpenCl) (w : Work) (start : UInt64) (count : UInt32) :
    Except String Scan → Prop
  | overflow (h : rangeOverflows start count = true) :
      ScansTo c w start count (throw "nonce range overflow")
  | finished (last : Atomic.Config (Fin (global c.block count)) UInt64)
      (h : rangeOverflows start count = false)
      (hexec : Executes
        (fun i : Fin (global c.block count) => scanItem c.precompute c.amdRotate (prepare w.header)
          start count (beWord (w.target.toList.take 8)) i) last) :
      ScansTo c w start count (collect w start count last.counter (readBack last))

/-- Both rotation macros are right rotations at the four amounts `G` uses. -/
theorem ror_eq (amdRotate : Bool) (x : UInt64) :
    ror amdRotate x 32 = rotateRight x 32 ∧ ror amdRotate x 24 = rotateRight x 24 ∧
      ror amdRotate x 16 = rotateRight x 16 ∧ ror amdRotate x 63 = rotateRight x 63 := by
  cases amdRotate with
  | false =>
      refine ⟨?_, ?_, ?_, ?_⟩
      all_goals exact UInt64.or_comm _ _
  | true =>
      refine ⟨pack_halves_swapped x, pack_funnelShift x 24 (by decide) (by decide),
        pack_funnelShift x 16 (by decide) (by decide), pack_funnelShift_swapped x 31 (by decide)⟩

theorem mix_eq_mixWords (amdRotate : Bool) : mix amdRotate = mixWords := by
  funext a b c d x y
  simp only [mix, (ror_eq amdRotate _).1, (ror_eq amdRotate _).2.1, (ror_eq amdRotate _).2.2.1,
    (ror_eq amdRotate _).2.2.2, mixWords, mixHalf]

theorem hash80_eq (precompute amdRotate : Bool) (h : Header) (nonce : UInt64) :
    (hash80 precompute amdRotate (prepare h) nonce).get 0 =
      loadLe (digest (storeLe h 32 nonce)) 0 := by
  let m : Vector UInt64 10 := Vector.ofFn fun i => loadLe h (8 * i)
  have hwords : (Vector.ofFn fun i : Fin 10 => (prepare h)[i.val]) = m := by
    apply Vector.ext
    intro i hi
    rw [Vector.getElem_ofFn]
    exact Vector.getElem_append_left hi
  have hstate : (Vector.ofFn fun i : Fin 16 => (prepare h)[10 + i.val]) = hostInitial m := by
    apply Vector.ext
    intro i hi
    rw [Vector.getElem_ofFn]
    refine (Vector.getElem_append_right (by omega) (by omega)).trans ?_
    simp only [Nat.add_sub_cancel_left]
    rfl
  have hrounds : kernelRounds (mix amdRotate) precompute
      (Vector.ofFn fun r : Fin 12 => sigma.get (Fin.ofNat 10 r.val)) m (hostInitial m) nonce =
        mixRounds mixWords (headerMessage (storeLe h 32 nonce)) schedule (blakeInitial 80) := by
    rw [mix_eq_mixWords, ← stateInitial_eq, ← kernelMessage_header]
    exact kernelRounds_eq _ _ _ _ (by decide)
  rw [digest, loadLe_storeWords, blakeWords_zero, hash80, hwords, hstate, hrounds]
  generalize mixRounds mixWords (headerMessage (storeLe h 32 nonce)) schedule
    (blakeInitial 80) = v
  rw [get_val (Vector.ofFn _), Vector.getElem_ofFn]
  rfl

theorem swap64_eq_byteSwap (x : UInt64) : swap64 x = byteSwap x := leWord_reverse _

theorem scanItem_eq (c : OpenCl) (w : Work) (start : UInt64) (count : UInt32) (i : Nat) :
    scanItem c.precompute c.amdRotate (prepare w.header) start count
        (beWord (w.target.toList.take 8)) i =
      appends w start count i := by
  unfold scanItem appends
  by_cases hin : i < count.toNat
  · rw [if_neg (Nat.not_le.mpr hin), if_pos hin, hash80_eq, swap64_eq_byteSwap,
      ← leading_eq_byteSwap, List.filter_singleton, passes, Bool.cond_decide]
    rfl
  · rw [if_pos (Nat.le_of_not_lt hin), if_neg hin]

/-- The work-items of a launch append exactly the candidates. -/
theorem launch_items (c : OpenCl) (w : Work) (start : UInt64) (count : UInt32) :
    ∑ i : Fin (global c.block count),
        (scanItem c.precompute c.amdRotate (prepare w.header) start count
          (beWord (w.target.toList.take 8)) i : Multiset UInt64) =
      (candidates w start count : Multiset UInt64) := by
  obtain ⟨block, precompute, amdRotate, hlow, hhigh, hwarp⟩ := c
  have hcover : count.toNat ≤ global block count * (1 * 1) := by
    have hdiv := Nat.div_add_mod (count.toNat + block - 1) block
    have hmod := Nat.mod_lt (count.toNat + block - 1) (by omega : 0 < block)
    rw [Nat.mul_comm] at hdiv
    unfold global
    omega
  rw [← sum_appends w start count (global block count) 1 1 hcover, Fintype.sum_prod_type]
  apply Finset.sum_congr rfl
  intro i _
  rw [scanItem_eq ⟨block, precompute, amdRotate, hlow, hhigh, hwarp⟩]
  simp

/-- None of the loop's errors is raised on a candidate of the range. -/
theorem collectStep_eq (w : Work) (start : UInt64) (count : UInt32) (nonces : List UInt64)
    (n : UInt64) (hfits : start.toNat + count.toNat ≤ 2 ^ 64)
    (hmem : n ∈ candidates w start count) :
    collectStep w start count (beWord (w.target.toList.take 8)) nonces n =
      .ok (nonces ++ [n].filter (hits w)) := by
  obtain ⟨hrange, hpass⟩ := List.mem_filter.mp hmem
  obtain ⟨hlow, hhigh⟩ := (mem_nonceRange hfits n).mp hrange
  have hguard : ¬ (n < start ∨ n - start ≥ count.toUInt64) := by
    rintro (hbefore | hafter)
    · exact absurd hlow (UInt64.not_le.mpr hbefore)
    · have hdiff := UInt64.le_iff_toNat_le.mp hafter
      rw [UInt64.toNat_sub_of_le _ _ hlow, UInt32.toNat_toUInt64] at hdiff
      have := UInt64.le_iff_toNat_le.mp hlow
      omega
  have htop : ¬ beWord ((digest (storeLe w.header 32 n)).toList.take 8) >
      beWord (w.target.toList.take 8) :=
    UInt64.not_lt.mpr (of_decide_eq_true hpass)
  unfold collectStep
  rw [if_neg hguard, blake2b256_header, ok_bind]
  dsimp only
  rw [if_neg htop, List.filter_singleton, hits]
  cases meets (digest (storeLe w.header 32 n)) w.target <;> simp <;> rfl

theorem collect_fold (w : Work) (start : UInt64) (count : UInt32) (found nonces : List UInt64)
    (hfits : start.toNat + count.toNat ≤ 2 ^ 64)
    (hmem : ∀ n ∈ found, n ∈ candidates w start count) :
    found.foldlM (collectStep w start count (beWord (w.target.toList.take 8))) nonces =
      .ok (nonces ++ found.filter (hits w)) := by
  induction found generalizing nonces with
  | nil => simp; rfl
  | cons n rest ih =>
      rw [List.foldlM_cons, collectStep_eq w start count nonces n hfits (hmem n (List.mem_cons_self ..)),
        ok_bind, ih _ fun k hk => hmem k (List.mem_cons_of_mem _ hk), List.append_assoc,
        ← List.filter_append, List.singleton_append]

theorem hasAdjacentEqual_of_increasing {nonces : List UInt64}
    (hincreasing : nonces.Pairwise (· < ·)) : hasAdjacentEqual nonces = false := by
  induction nonces with
  | nil => rfl
  | cons first rest ih =>
      cases rest with
      | nil => rfl
      | cons second more =>
          obtain ⟨hfirst, hrest⟩ := List.pairwise_cons.mp hincreasing
          have hne : first ≠ second := UInt64.ne_of_lt (hfirst second (List.mem_cons_self ..))
          rw [hasAdjacentEqual, ih hrest, beq_eq_false_iff_ne.mpr hne]
          rfl

/-- Sorting any order of a strictly increasing list recovers it. -/
theorem mergeSort_eq_of_perm {found sorted : List UInt64} (hperm : List.Perm found sorted)
    (hincreasing : sorted.Pairwise (· < ·)) :
    found.mergeSort (fun a b => decide (a ≤ b)) = sorted := by
  have hle : (found.mergeSort fun a b => decide (a ≤ b)).Pairwise (· ≤ ·) := by
    have hsorted := @List.pairwise_mergeSort UInt64 (fun a b => decide (a ≤ b))
      (fun a b c hab hbc => decide_eq_true
        (UInt64.le_trans (of_decide_eq_true hab) (of_decide_eq_true hbc)))
      (fun a b => by simpa using UInt64.le_total a b) found
    exact hsorted.imp fun h => of_decide_eq_true h
  exact List.Perm.eq_of_pairwise (fun a b _ _ hab hba => UInt64.le_antisymm hab hba) hle
    (hincreasing.imp fun h => UInt64.le_of_lt h)
    ((List.mergeSort_perm found _).trans hperm)

/-- A finished launch yields the scalar scan's list, or the overflow error. -/
theorem collect_of_executes (c : OpenCl) (w : Work) (start : UInt64) (count : UInt32)
    (hfits : start.toNat + count.toNat ≤ 2 ^ 64)
    {last : Atomic.Config (Fin (global c.block count)) UInt64}
    (hexec : Executes
      (fun i : Fin (global c.block count) => scanItem c.precompute c.amdRotate (prepare w.header)
        start count (beWord (w.target.toList.take 8)) i) last) :
    ((candidates w start count).length ≤ capacity →
      collect w start count last.counter (readBack last) =
        .ok { hashes := count.toUInt64
              nonces := (nonceRange start count.toNat).filter (hits w) }) ∧
    (capacity < (candidates w start count).length →
      collect w start count last.counter (readBack last) =
        .error "OpenCL candidate buffer overflow; reduce batch or increase difficulty") := by
  obtain ⟨hcounter, hperm⟩ := hexec.candidates (launch_items c w start count)
  refine ⟨?_, ?_⟩
  · intro hfew
    have hfit : last.counter ≤ capacity := hcounter ▸ hfew
    have hread := hperm hfit
    have hincreasing : ((nonceRange start count.toNat).filter (hits w)).Pairwise (· < ·) :=
      (nonceRange_increasing hfits).filter _
    have hkept : List.Perm ((readBack last).filter (hits w))
        ((nonceRange start count.toNat).filter (hits w)) := by
      rw [← candidates_filter_hits]
      exact hread.filter _
    have hsorted := mergeSort_eq_of_perm hkept hincreasing
    unfold collect
    dsimp only
    rw [if_neg (Nat.not_lt.mpr hfit),
      collect_fold w start count _ _ hfits fun n hn => hread.mem_iff.mp hn, List.nil_append,
      ok_bind, hsorted, hasAdjacentEqual_of_increasing hincreasing]
    rfl
  · intro hmany
    unfold collect
    dsimp only
    rw [if_pos (hcounter ▸ hmany)]
    rfl

/-- A scan that returns has kept only nonces of its range that hit. -/
theorem ScansTo.mem_of_ok {c : OpenCl} {w : Work} {start : UInt64} {count : UInt32} {r : Scan}
    (h : ScansTo c w start count (.ok r)) :
    r.hashes = count.toUInt64 ∧
      ∀ n ∈ r.nonces, n ∈ nonceRange start count.toNat ∧ hits w n = true := by
  generalize houtcome : Except.ok r = outcome at h
  cases h with
  | overflow h => cases houtcome
  | finished last h hexec =>
      have hfits := ((rangeOverflows_eq_false_iff start count).mp h).2
      obtain ⟨hfew, hmany⟩ := collect_of_executes c w start count hfits hexec
      rcases Nat.lt_or_ge capacity (candidates w start count).length with hover | hfit
      · rw [hmany hover] at houtcome
        cases houtcome
      · rw [hfew hfit] at houtcome
        cases houtcome
        exact ⟨rfl, fun n hn => List.mem_filter.mp hn⟩

/-- A scan that returns has kept all of them. -/
theorem ScansTo.nonces_of_ok {c : OpenCl} {w : Work} {start : UInt64} {count : UInt32} {r : Scan}
    (h : ScansTo c w start count (.ok r)) :
    r.nonces = (nonceRange start count.toNat).filter (hits w) := by
  generalize houtcome : Except.ok r = outcome at h
  cases h with
  | overflow h => cases houtcome
  | finished last h hexec =>
      have hfits := ((rangeOverflows_eq_false_iff start count).mp h).2
      obtain ⟨hfew, hmany⟩ := collect_of_executes c w start count hfits hexec
      rcases Nat.lt_or_ge capacity (candidates w start count).length with hover | hfit
      · rw [hmany hover] at houtcome
        cases houtcome
      · rw [hfew hfit] at houtcome
        cases houtcome
        rfl

/-- `OpenCl::scan` finishes, and in whatever order the work-items' atomic steps
happen it returns the scalar scan's list, or the overflow error and nothing
else when more than 4096 nonces pass the prefilter. -/
theorem scan_eq_cpu (c : OpenCl) (w : Work) (start : UInt64) (count : UInt32)
    (hcount : 1 ≤ count.toNat) (hrange : start.toNat + count.toNat - 1 ≤ 2 ^ 64 - 1) :
    (∃ outcome, ScansTo c w start count outcome) ∧
      ∀ outcome, ScansTo c w start count outcome →
        ((candidates w start count).length ≤ 4096 →
          ∃ r, outcome = .ok r ∧ Cpu.scan w start count = .ok r ∧
            r.nonces.Pairwise (· < ·)) ∧
        (4096 < (candidates w start count).length →
          outcome = .error
            "OpenCL candidate buffer overflow; reduce batch or increase difficulty") := by
  have hfits : start.toNat + count.toNat ≤ 2 ^ 64 := by omega
  have hguard : rangeOverflows start count = false :=
    (rangeOverflows_eq_false_iff start count).mpr ⟨hcount, hfits⟩
  refine ⟨?_, ?_⟩
  · obtain ⟨last, hexec⟩ := exists_executes fun i : Fin (global c.block count) =>
      scanItem c.precompute c.amdRotate (prepare w.header) start count
        (beWord (w.target.toList.take 8)) i
    exact ⟨_, ScansTo.finished last hguard hexec⟩
  · intro outcome hscan
    cases hscan with
    | overflow h => rw [hguard] at h; cases h
    | finished last h hexec =>
        obtain ⟨hfew, hmany⟩ := collect_of_executes c w start count hfits hexec
        refine ⟨?_, hmany⟩
        intro hcandidates
        exact ⟨_, hfew hcandidates, Cpu.scan_eq w start count hguard,
          (nonceRange_increasing hfits).filter _⟩

/-- The AMD variant with precomputation, on a range that ends at `2^64`. -/
theorem scan_eq_cpu_top :
    ∃ r,
      ScansTo ⟨64, true, true, by decide⟩ ⟨Vector.replicate 80 7, Vector.replicate 32 255⟩
        0xfffffffffffffffb 5 (.ok r) ∧
      Cpu.scan ⟨Vector.replicate 80 7, Vector.replicate 32 255⟩ 0xfffffffffffffffb 5 = .ok r := by
  obtain ⟨⟨outcome, hscan⟩, hall⟩ := scan_eq_cpu ⟨64, true, true, by decide⟩
    ⟨Vector.replicate 80 7, Vector.replicate 32 255⟩ 0xfffffffffffffffb 5 (by decide) (by decide)
  have hfew := candidates_length_le ⟨Vector.replicate 80 7, Vector.replicate 32 255⟩
    0xfffffffffffffffb 5
  obtain ⟨r, rfl, hscalar, -⟩ := (hall outcome hscan).1 (hfew.trans (by decide))
  exact ⟨r, hscan, hscalar⟩

end Supryolo.OpenCl
