import Supryolo.Gpu

/-!
Model of `cuda/blake2b.cu`. The kernel's template parameters `Mode` and `Roll`
are arguments. The runtime's own failures (`check`) are left out: a launch runs
every thread of its grid once.
-/

namespace Supryolo.Cuda

open Words Rounds Gpu

/-- PTX `shf.r.wrap.b32 d, a, b, c`: the low half of `b:a` shifted right. -/
def shfRWrap (a b c : UInt32) : UInt32 := funnelShift b a c

def rotate (R : UInt32) (mode : Nat) (x : UInt64) : UInt64 :=
  if mode % 2 = 0 then (x >>> R.toUInt64) ||| (x <<< (64 - R.toUInt64))
  else
    let lo := lowHalf x
    let hi := highHalf x
    if R = 32 then pack lo hi
    else if R < 32 then pack (shfRWrap hi lo R) (shfRWrap lo hi R)
    else pack (shfRWrap lo hi (R - 32)) (shfRWrap hi lo (R - 32))

def mix (mode : Nat) : Mix UInt64 := fun a b c d x y =>
  let a := a + (b + x)
  let d := rotate 32 mode (d ^^^ a)
  let c := c + d
  let b := rotate 24 mode (b ^^^ c)
  let a := a + (b + y)
  let d := rotate 16 mode (d ^^^ a)
  let c := c + d
  let b := rotate 63 mode (b ^^^ c)
  ⟨a, b, c, d⟩

/-- The kernel's own schedule, with the first two rows repeated at its end. -/
def s : Vector Row 12 :=
  #[#[0, 1, 2, 3, 4, 5, 6, 7, 8, 9, 10, 11, 12, 13, 14, 15].toVector,
    #[14, 10, 4, 8, 9, 15, 13, 6, 1, 12, 0, 2, 11, 7, 5, 3].toVector,
    #[11, 8, 12, 0, 5, 2, 15, 13, 10, 14, 3, 6, 7, 1, 9, 4].toVector,
    #[7, 9, 3, 1, 13, 12, 11, 14, 2, 6, 5, 10, 4, 0, 15, 8].toVector,
    #[9, 0, 5, 7, 2, 4, 10, 15, 14, 1, 11, 12, 6, 8, 3, 13].toVector,
    #[2, 12, 6, 10, 0, 11, 8, 3, 4, 13, 7, 5, 15, 14, 1, 9].toVector,
    #[12, 5, 1, 15, 14, 13, 4, 10, 0, 7, 6, 3, 9, 2, 8, 11].toVector,
    #[13, 11, 7, 14, 12, 1, 3, 9, 5, 0, 15, 4, 8, 6, 2, 10].toVector,
    #[6, 15, 14, 9, 11, 3, 0, 8, 12, 2, 13, 7, 1, 4, 10, 5].toVector,
    #[10, 2, 8, 4, 7, 6, 1, 5, 15, 11, 9, 14, 3, 12, 13, 0].toVector,
    #[0, 1, 2, 3, 4, 5, 6, 7, 8, 9, 10, 11, 12, 13, 14, 15].toVector,
    #[14, 10, 4, 8, 9, 15, 13, 6, 1, 12, 0, 2, 11, 7, 5, 3].toVector].toVector

/-- Launch parameters the host prepares from the work. -/
structure Params where
  m : Vector UInt64 10
  target : UInt64
  initial : State UInt64

def hash80 (mode : Nat) (p : Params) (nonce : UInt64) : Vector UInt64 4 :=
  let v := kernelRounds (mix mode) (decide (mode ≥ 2)) s p.m p.initial nonce
  Vector.ofFn fun word =>
    let i := Fin.castAdd 4 word
    iv.get i ^^^ lower v i ^^^ upper v i ^^^ (if word.val = 0 then 0x01010020 else 0)

/-- `__byte_perm`: four of the eight bytes of `y:x`, picked by the low three
bits of the selector's nibbles. -/
def bytePerm (x y selector : UInt32) : UInt32 :=
  (leWord (List.ofFn fun j : Fin 4 =>
    byteAt (pack y x) ((selector >>> (4 * j.val).toUInt32).toNat % 8))).toUInt32

def swap (x : UInt64) : UInt64 :=
  let lo := bytePerm (lowHalf x) 0 0x0123
  let hi := bytePerm (highHalf x) 0 0x0123
  pack lo hi

/-- The nonce at index `i`. From mode 4 on, a batch that stays below a 32-bit
boundary keeps the high word of `start`. -/
def kernelNonce (mode : Nat) (start : UInt64) (count : UInt32) (i : UInt64) : UInt64 :=
  if mode ≥ 4 ∧ lowHalf start ≤ 0xffffffff - (count - 1) then
    (start &&& 0xffffffff00000000) ||| (lowHalf start + lowHalf i).toUInt64
  else start + i

/-- The nonces one thread of `kernel<Mode, false, Roll>` appends, in the order
of its rolled loop. -/
def kernel (mode roll : Nat) (p : Params) (start : UInt64) (count : UInt32)
    (blockDim blockIdx threadIdx : Nat) : List UInt64 :=
  let base := blockIdx.toUInt64 * blockDim.toUInt64 * roll.toUInt64 + threadIdx.toUInt64
  (List.range roll).flatMap fun k =>
    let i := base + k.toUInt64 * blockDim.toUInt64
    if i ≥ count.toUInt64 then []
    else
      let nonce := kernelNonce mode start count i
      if swap ((hash80 mode p nonce).get 0) ≤ p.target then [nonce] else []

structure Launch where
  mode : Nat
  roll : Nat
  grid : Nat

def launch (variant : Nat) (count : UInt32) (block : Nat) : Except String Launch :=
  let rolled (mode roll : Nat) : Launch :=
    ⟨mode, roll, (count.toNat + roll * block - 1) / (roll * block)⟩
  match variant with
  | 0 => pure (rolled 0 1)
  | 1 => pure (rolled 1 1)
  | 2 => pure (rolled 2 1)
  | 3 => pure (rolled 3 1)
  | 4 => pure (rolled 5 1)
  | 5 => pure (rolled 5 2)
  | 6 => pure (rolled 5 4)
  | _ => throw "invalid kernel variant"

def params (w : Work) : Params :=
  let m : Vector UInt64 10 := Vector.ofFn fun i => loadLe w.header (8 * i)
  { m := m, target := beWord (w.target.toList.take 8), initial := hostInitial m }

end Supryolo.Cuda

namespace Supryolo

/-- A backend instance. The constructor throws for any other configuration. -/
structure Cuda where
  block : Nat
  variant : Nat
  admitted : 32 ≤ block ∧ block ≤ 1024 ∧ block % 32 = 0 ∧ variant ≤ 6

end Supryolo

namespace Supryolo.Cuda

open Words Rounds Gpu Loops

/-- Body of the host's loop over the buffer. The header copy is carried along
because the loop overwrites its nonce field in place. -/
def collectStep (w : Work) (p : Params) (state : Header × List UInt64) (n : UInt64) :
    Except String (Header × List UInt64) := do
  let h := storeLe state.1 32 n
  let digest ← blake2b256 h.toList
  let top := beWord (digest.toList.take 8)
  if top > p.target then throw "CUDA hash validation failed"
  pure (h, if meets digest w.target then state.2 ++ [n] else state.2)

/-- What the host makes of the counter and the buffer. -/
def collect (w : Work) (p : Params) (count : UInt32) (hostCount : Nat) (nonces : List UInt64) :
    Except String Scan :=
  if hostCount > capacity then throw "CUDA candidate buffer overflow; reduce batch size"
  else do
    let state ← nonces.foldlM (collectStep w p) (w.header, [])
    pure { hashes := count.toUInt64, nonces := state.2 }

/-- The possible outcomes of `Cuda::scan`, one for each order of the threads'
atomic steps. -/
inductive ScansTo (c : Cuda) (w : Work) (start : UInt64) (count : UInt32) :
    Except String Scan → Prop
  | overflow (h : rangeOverflows start count = true) :
      ScansTo c w start count (throw "nonce range overflow")
  | invalid (message : String) (h : rangeOverflows start count = false)
      (hlaunch : launch c.variant count c.block = .error message) :
      ScansTo c w start count (.error message)
  | finished (l : Launch) (last : Atomic.Config (Fin l.grid × Fin c.block) UInt64)
      (h : rangeOverflows start count = false)
      (hlaunch : launch c.variant count c.block = .ok l)
      (hexec : Executes
        (fun thread => kernel l.mode l.roll (params w) start count c.block thread.1 thread.2) last) :
      ScansTo c w start count (collect w (params w) count last.counter (readBack last))

theorem rotate_odd_low (R : UInt32) (mode : Nat) (x : UInt64) (hodd : mode % 2 = 1)
    (hpositive : 0 < R.toNat) (hbound : R.toNat < 32) :
    rotate R mode x = rotateRight x R.toUInt64 := by
  have hmode : ¬ mode % 2 = 0 := by omega
  have hne : R ≠ 32 := by
    rintro rfl
    exact absurd hbound (by decide)
  have hlt : R < 32 := UInt32.lt_iff_toNat_lt.mpr hbound
  simp only [rotate, hmode, hne, hlt, if_false, if_true, shfRWrap]
  exact pack_funnelShift x R hpositive hbound

/-- In both rotation modes the four rotations of `mix` are right rotations. -/
theorem rotate_eq (mode : Nat) (x : UInt64) :
    rotate 32 mode x = rotateRight x 32 ∧ rotate 24 mode x = rotateRight x 24 ∧
      rotate 16 mode x = rotateRight x 16 ∧ rotate 63 mode x = rotateRight x 63 := by
  rcases Nat.mod_two_eq_zero_or_one mode with heven | hodd
  · simp only [rotate, heven, if_true]
    exact ⟨rfl, rfl, rfl, rfl⟩
  · refine ⟨?_, rotate_odd_low 24 mode x hodd (by decide) (by decide),
      rotate_odd_low 16 mode x hodd (by decide) (by decide), ?_⟩
    · simp only [rotate, hodd, if_true]
      exact pack_halves_swapped x
    · have hmode : ¬ mode % 2 = 0 := by omega
      have hne : (63 : UInt32) ≠ 32 := by decide
      have hlt : ¬ (63 : UInt32) < 32 := by decide
      simp only [rotate, hmode, hne, hlt, if_false, shfRWrap]
      exact pack_funnelShift_swapped x 31 (by decide)

theorem mix_eq_mixWords (mode : Nat) : mix mode = mixWords := by
  funext a b c d x y
  simp only [mix, (rotate_eq mode _).1, (rotate_eq mode _).2.1, (rotate_eq mode _).2.2.1,
    (rotate_eq mode _).2.2.2, mixWords, mixHalf]

theorem hash80_eq (mode : Nat) (w : Work) (nonce : UInt64) :
    (hash80 mode (params w) nonce).get 0 = loadLe (digest (storeLe w.header 32 nonce)) 0 := by
  have hrounds : kernelRounds (mix mode) (decide (mode ≥ 2)) s (params w).m (params w).initial
      nonce = mixRounds mixWords (headerMessage (storeLe w.header 32 nonce)) schedule
        (blakeInitial 80) := by
    rw [mix_eq_mixWords, ← stateInitial_eq, ← kernelMessage_header]
    exact kernelRounds_eq _ s _ _ (by decide)
  rw [digest, loadLe_storeWords, blakeWords_zero, hash80, hrounds]
  generalize mixRounds mixWords (headerMessage (storeLe w.header 32 nonce)) schedule
    (blakeInitial 80) = v
  rw [get_val (Vector.ofFn _), Vector.getElem_ofFn]
  change iv.get 0 ^^^ lower v 0 ^^^ upper v 0 ^^^ 0x01010020 = _
  ac_rfl

theorem params_target (w : Work) : (params w).target = leading w.target := rfl

private theorem bytePerm_reverse (x : UInt32) :
    bytePerm x 0 0x0123 =
      (leWord (List.ofFn fun j : Fin 4 => byteAt (pack 0 x) (3 - j.val))).toUInt32 := by
  rw [bytePerm]
  apply congrArg fun bytes => (leWord bytes).toUInt32
  apply congrArg List.ofFn
  funext j
  fin_cases j <;> rfl

theorem swap_eq_byteSwap (x : UInt64) : swap x = byteSwap x := by
  simp only [swap, bytePerm_reverse]
  rw [pack_leWord _ _ (by simp) (by simp), byteSwap_eq_leWord]
  apply congrArg leWord
  have hlow (j : Nat) (hj : j < 4) := byteAt_lowHalf x 0 j hj
  have hhigh (j : Nat) (hj : j < 4) := byteAt_highHalf x 0 j hj
  simp [List.ofFn_succ, hlow, hhigh]

/-- The shortcut for a uniform high word computes the same nonce. -/
theorem kernelNonce_eq (mode : Nat) (start : UInt64) (count : UInt32) (n : Nat)
    (hn : n < count.toNat) :
    kernelNonce mode start count n.toUInt64 = start + n.toUInt64 := by
  have hcount := count.toNat_lt
  have hnat : n.toUInt64.toNat = n := by
    simp only [Nat.toUInt64_eq, UInt64.toNat_ofNat']
    exact Nat.mod_eq_of_lt (by omega)
  unfold kernelNonce
  split
  · rename_i hshort
    have hone : (1 : UInt32) ≤ count := UInt32.le_iff_toNat_le.mpr (by change 1 ≤ count.toNat; omega)
    have hpred : (count - 1).toNat = count.toNat - 1 := UInt32.toNat_sub_of_le _ _ hone
    have hlimit : (0xffffffff - (count - 1) : UInt32).toNat = 2 ^ 32 - 1 - (count.toNat - 1) := by
      rw [UInt32.toNat_sub_of_le _ _ (UInt32.le_iff_toNat_le.mpr (by rw [hpred]; change _ ≤ 2 ^ 32 - 1; omega)),
        hpred]
      rfl
    have hstart := UInt32.le_iff_toNat_le.mp hshort.2
    rw [hlimit, lowHalf_toNat] at hstart
    have hlow : (lowHalf start + lowHalf n.toUInt64).toNat = start.toNat % 2 ^ 32 + n := by
      rw [UInt32.toNat_add, lowHalf_toNat, lowHalf_toNat, hnat, Nat.mod_eq_of_lt (by omega : n < 2 ^ 32)]
      exact Nat.mod_eq_of_lt (by omega)
    have hword := start.toNat_lt
    rw [and_or_eq_pack]
    apply UInt64.toNat_inj.mp
    rw [pack_toNat, highHalf_toNat, hlow, UInt64.toNat_add, hnat,
      Nat.mod_eq_of_lt (by omega : start.toNat + n < 2 ^ 64)]
    omega
  · rfl

theorem kernel_eq (mode roll : Nat) (w : Work) (start : UInt64) (count : UInt32)
    (blockDim blockIdx threadIdx : Nat)
    (hbound : ∀ k < roll, blockIdx * blockDim * roll + threadIdx + k * blockDim < 2 ^ 64) :
    kernel mode roll (params w) start count blockDim blockIdx threadIdx =
      (List.range roll).flatMap fun k => appends w start count
        (blockIdx * blockDim * roll + threadIdx + k * blockDim) := by
  unfold kernel
  apply List.flatMap_congr
  intro k hk
  have hlt := hbound k (List.mem_range.mp hk)
  generalize hindex : blockIdx * blockDim * roll + threadIdx + k * blockDim = n at hlt
  have hword : blockIdx.toUInt64 * blockDim.toUInt64 * roll.toUInt64 + threadIdx.toUInt64 +
      k.toUInt64 * blockDim.toUInt64 = n.toUInt64 := by
    rw [← hindex]
    simp only [Nat.toUInt64_eq, UInt64.ofNat_add, UInt64.ofNat_mul]
  have hnat : n.toUInt64.toNat = n := by
    simp only [Nat.toUInt64_eq, UInt64.toNat_ofNat']
    exact Nat.mod_eq_of_lt hlt
  have hguard : n.toUInt64 ≥ count.toUInt64 ↔ ¬ n < count.toNat := by
    rw [ge_iff_le, UInt64.le_iff_toNat_le, hnat, UInt32.toNat_toUInt64, Nat.not_lt]
  simp only [hword, hguard, appends]
  by_cases hin : n < count.toNat
  · simp only [hin, not_true, if_false, if_true, kernelNonce_eq mode start count n hin,
      swap_eq_byteSwap, hash80_eq, ← leading_eq_byteSwap, List.filter_singleton, passes,
      params_target, Bool.cond_decide]
  · simp only [hin, not_false_eq_true, if_true, if_false]

/-- Every admitted launch reaches each index below `count` and stays far from
the 64-bit index limit. -/
theorem launch_covers (c : Cuda) (count : UInt32) :
    ∃ l, launch c.variant count c.block = .ok l ∧
      count.toNat ≤ l.grid * (l.roll * c.block) ∧
      l.grid * (l.roll * c.block) < 2 ^ 33 ∧ 1 ≤ l.roll ∧ l.roll ≤ 4 := by
  obtain ⟨block, variant, hlow, hhigh, hwarp, hvariant⟩ := c
  have hcount := count.toNat_lt
  have hgrid (roll : Nat) (hroll : 1 ≤ roll) (hfour : roll ≤ 4) :
      count.toNat ≤ (count.toNat + roll * block - 1) / (roll * block) * (roll * block) ∧
        (count.toNat + roll * block - 1) / (roll * block) * (roll * block) < 2 ^ 33 ∧
        1 ≤ roll ∧ roll ≤ 4 := by
    have hsize : 32 ≤ roll * block := le_trans hlow (Nat.le_mul_of_pos_left _ hroll)
    have hlimit : roll * block ≤ 4 * 1024 := Nat.mul_le_mul hfour hhigh
    have hdiv := Nat.div_add_mod (count.toNat + roll * block - 1) (roll * block)
    have hmod := Nat.mod_lt (count.toNat + roll * block - 1) (by omega : 0 < roll * block)
    rw [Nat.mul_comm] at hdiv
    omega
  simp only at hvariant ⊢
  interval_cases variant
  all_goals exact ⟨_, rfl, hgrid _ (by decide) (by decide)⟩

/-- The threads of an admitted launch append exactly the candidates. -/
theorem launch_items (c : Cuda) (w : Work) (start : UInt64) (count : UInt32) {l : Launch}
    (hlaunch : launch c.variant count c.block = .ok l) :
    ∑ thread : Fin l.grid × Fin c.block,
        (kernel l.mode l.roll (params w) start count c.block thread.1 thread.2 :
          Multiset UInt64) =
      (candidates w start count : Multiset UInt64) := by
  obtain ⟨l', hlaunch', hcover, hsmall, hpositive, hroll⟩ := launch_covers c count
  cases hlaunch.symm.trans hlaunch'
  rw [← sum_appends w start count l.grid c.block l.roll hcover]
  apply Finset.sum_congr rfl
  intro thread _
  rw [kernel_eq]
  intro k hk
  have hblock : (thread.1.val + 1) * (l.roll * c.block) ≤ l.grid * (l.roll * c.block) :=
    Nat.mul_le_mul_right _ thread.1.isLt
  have hthread : thread.2.val + k * c.block < l.roll * c.block := by
    have hpass : (k + 1) * c.block ≤ l.roll * c.block := Nat.mul_le_mul_right _ hk
    have := thread.2.isLt
    linarith
  have hindex : thread.1.val * c.block * l.roll = thread.1.val * (l.roll * c.block) := by ring
  rw [Nat.succ_mul] at hblock
  omega

/-- On a candidate the host's recheck passes, and the nonce is kept when it
meets the whole target. -/
theorem collectStep_eq (w : Work) (start n : UInt64) (nonces : List UInt64)
    (hpass : passes w n = true) :
    collectStep w (params w) (storeLe w.header 32 start, nonces) n =
      .ok (storeLe w.header 32 n, nonces ++ [n].filter (hits w)) := by
  have htop : ¬ beWord ((digest (storeLe w.header 32 n)).toList.take 8) > (params w).target :=
    UInt64.not_lt.mpr (of_decide_eq_true hpass)
  simp only [collectStep, storeLe_storeLe w.header 32 _ _ (by decide), blake2b256_header, ok_bind]
  rw [if_neg htop, List.filter_singleton, hits]
  cases meets (digest (storeLe w.header 32 n)) w.target <;> simp <;> rfl

theorem collect_fold (w : Work) (start : UInt64) (nonces found : List UInt64)
    (hpass : ∀ n ∈ found, passes w n = true) :
    ∃ last, found.foldlM (collectStep w (params w)) (storeLe w.header 32 start, nonces) =
      .ok (storeLe w.header 32 last, nonces ++ found.filter (hits w)) := by
  induction found generalizing start nonces with
  | nil => exact ⟨start, by simp; rfl⟩
  | cons n rest ih =>
      obtain ⟨last, hlast⟩ := ih n (nonces ++ [n].filter (hits w))
        fun k hk => hpass k (List.mem_cons_of_mem _ hk)
      refine ⟨last, ?_⟩
      rw [List.foldlM_cons, collectStep_eq w start n nonces (hpass n (List.mem_cons_self ..)),
        ok_bind, hlast, List.append_assoc, ← List.filter_append, List.singleton_append]

/-- Reading back a permutation of the candidates yields the hits among them. -/
theorem collect_eq (w : Work) (count : UInt32) (hostCount : Nat) (found : List UInt64)
    (hfit : hostCount ≤ capacity) (hpass : ∀ n ∈ found, passes w n = true) :
    collect w (params w) count hostCount found =
      .ok { hashes := count.toUInt64, nonces := found.filter (hits w) } := by
  obtain ⟨last, hlast⟩ := collect_fold w (loadLe w.header 32) [] found hpass
  rw [storeLe_loadLe w.header 32 (by decide)] at hlast
  rw [collect, if_neg (Nat.not_lt.mpr hfit), hlast]
  rfl

/-- What the host makes of a finished launch depends on the number of
candidates only, up to the order of the nonces it keeps. -/
theorem collect_of_executes (c : Cuda) (w : Work) (start : UInt64) (count : UInt32) {l : Launch}
    (hlaunch : launch c.variant count c.block = .ok l)
    {last : Atomic.Config (Fin l.grid × Fin c.block) UInt64}
    (hexec : Executes
      (fun thread => kernel l.mode l.roll (params w) start count c.block thread.1 thread.2) last) :
    ((candidates w start count).length ≤ capacity →
      List.Perm (readBack last) (candidates w start count) ∧
      collect w (params w) count last.counter (readBack last) =
        .ok { hashes := count.toUInt64, nonces := (readBack last).filter (hits w) }) ∧
    (capacity < (candidates w start count).length →
      collect w (params w) count last.counter (readBack last) =
        .error "CUDA candidate buffer overflow; reduce batch size") := by
  obtain ⟨hcounter, hperm⟩ := hexec.candidates (launch_items c w start count hlaunch)
  refine ⟨?_, ?_⟩
  · intro hfew
    have hfit : last.counter ≤ capacity := hcounter ▸ hfew
    have hread := hperm hfit
    have hpass : ∀ n ∈ readBack last, passes w n = true := fun n hn =>
      (List.mem_filter.mp (hread.mem_iff.mp hn)).2
    exact ⟨hread, collect_eq w count _ _ hfit hpass⟩
  · intro hmany
    rw [collect, if_pos (hcounter ▸ hmany)]
    rfl

/-- A scan that returns has kept only nonces of its range that hit. -/
theorem ScansTo.mem_of_ok {c : Cuda} {w : Work} {start : UInt64} {count : UInt32} {r : Scan}
    (h : ScansTo c w start count (.ok r)) :
    r.hashes = count.toUInt64 ∧
      ∀ n ∈ r.nonces, n ∈ nonceRange start count.toNat ∧ hits w n = true := by
  generalize houtcome : Except.ok r = outcome at h
  cases h with
  | overflow h => cases houtcome
  | invalid message h hfail => cases houtcome
  | finished l last h hlaunch hexec =>
      obtain ⟨hfew, hmany⟩ := collect_of_executes c w start count hlaunch hexec
      rcases Nat.lt_or_ge capacity (candidates w start count).length with hover | hfit
      · rw [hmany hover] at houtcome
        cases houtcome
      · obtain ⟨hperm, hcollect⟩ := hfew hfit
        rw [hcollect] at houtcome
        cases houtcome
        refine ⟨rfl, ?_⟩
        intro n hn
        obtain ⟨hread, hhit⟩ := List.mem_filter.mp hn
        exact ⟨(List.mem_filter.mp (hperm.mem_iff.mp hread)).1, hhit⟩

/-- A scan that returns has kept all of them, in some order. -/
theorem ScansTo.perm_of_ok {c : Cuda} {w : Work} {start : UInt64} {count : UInt32} {r : Scan}
    (h : ScansTo c w start count (.ok r)) :
    List.Perm r.nonces ((nonceRange start count.toNat).filter (hits w)) := by
  generalize houtcome : Except.ok r = outcome at h
  cases h with
  | overflow h => cases houtcome
  | invalid message h hfail => cases houtcome
  | finished l last h hlaunch hexec =>
      obtain ⟨hfew, hmany⟩ := collect_of_executes c w start count hlaunch hexec
      rcases Nat.lt_or_ge capacity (candidates w start count).length with hover | hfit
      · rw [hmany hover] at houtcome
        cases houtcome
      · obtain ⟨hperm, hcollect⟩ := hfew hfit
        rw [hcollect] at houtcome
        cases houtcome
        rw [← candidates_filter_hits]
        exact hperm.filter _

/-- `Cuda::scan` finishes, and in whatever order the threads' atomic steps
happen it agrees with the scalar scan: with at most 4096 candidates it returns
the same nonces without duplicates, with more it throws the overflow error. -/
theorem scan_agrees_with_cpu (c : Cuda) (w : Work) (start : UInt64) (count : UInt32)
    (hcount : 1 ≤ count.toNat) (hrange : start.toNat + count.toNat - 1 ≤ 2 ^ 64 - 1) :
    (∃ outcome, ScansTo c w start count outcome) ∧
      ∀ outcome, ScansTo c w start count outcome →
        ((candidates w start count).length ≤ 4096 →
          ∃ r scalar, outcome = .ok r ∧ Cpu.scan w start count = .ok scalar ∧
            r.hashes = scalar.hashes ∧ r.nonces.Nodup ∧
            ∀ n, n ∈ r.nonces ↔ n ∈ scalar.nonces) ∧
        (4096 < (candidates w start count).length →
          outcome = .error "CUDA candidate buffer overflow; reduce batch size") := by
  have hfits : start.toNat + count.toNat ≤ 2 ^ 64 := by omega
  have hguard : rangeOverflows start count = false :=
    (rangeOverflows_eq_false_iff start count).mpr ⟨hcount, hfits⟩
  obtain ⟨l, hlaunch, -⟩ := launch_covers c count
  refine ⟨?_, ?_⟩
  · obtain ⟨last, hexec⟩ := exists_executes fun thread : Fin l.grid × Fin c.block =>
      kernel l.mode l.roll (params w) start count c.block thread.1 thread.2
    exact ⟨_, ScansTo.finished l last hguard hlaunch hexec⟩
  · intro outcome hscan
    cases hscan with
    | overflow h => rw [hguard] at h; cases h
    | invalid message h hfail => rw [hlaunch] at hfail; cases hfail
    | finished l' last h hlaunch' hexec =>
        obtain ⟨hfew, hmany⟩ := collect_of_executes c w start count hlaunch' hexec
        refine ⟨?_, hmany⟩
        intro hcandidates
        obtain ⟨hperm, hcollect⟩ := hfew hcandidates
        have hnodup : (nonceRange start count.toNat).Nodup :=
          (nonceRange_increasing hfits).imp fun h => UInt64.ne_of_lt h
        refine ⟨_, _, hcollect, Cpu.scan_eq w start count hguard, rfl, ?_, ?_⟩
        · exact (hperm.nodup_iff.mpr (hnodup.filter _)).filter _
        · intro n
          rw [← candidates_filter_hits]
          exact (hperm.filter _).mem_iff

/-- A rolled variant on a range that ends at `2^64`, for a target that every
digest meets. -/
theorem scan_agrees_with_cpu_top :
    ∃ r scalar,
      ScansTo ⟨128, 6, by decide⟩ ⟨Vector.replicate 80 7, Vector.replicate 32 255⟩
        0xfffffffffffffffb 5 (.ok r) ∧
      Cpu.scan ⟨Vector.replicate 80 7, Vector.replicate 32 255⟩ 0xfffffffffffffffb 5 = .ok scalar ∧
      ∀ n, n ∈ r.nonces ↔ n ∈ scalar.nonces := by
  obtain ⟨⟨outcome, hscan⟩, hall⟩ := scan_agrees_with_cpu ⟨128, 6, by decide⟩
    ⟨Vector.replicate 80 7, Vector.replicate 32 255⟩ 0xfffffffffffffffb 5 (by decide) (by decide)
  have hfew := candidates_length_le ⟨Vector.replicate 80 7, Vector.replicate 32 255⟩
    0xfffffffffffffffb 5
  obtain ⟨r, scalar, rfl, hscalar, -, -, hsame⟩ := (hall outcome hscan).1 (hfew.trans (by decide))
  exact ⟨r, scalar, hscan, hscalar, hsame⟩

end Supryolo.Cuda
