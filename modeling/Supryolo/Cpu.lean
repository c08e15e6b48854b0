import Supryolo.Crypto

/-!
Model of `core.hpp`'s `Work` and `Scan` and of the scalar backend in
`cpu.cpp`. The elapsed time that a scan also reports is left out.
-/

namespace Supryolo

open Words

structure Work where
  header : Header
  target : Hash
  deriving DecidableEq

structure Scan where
  hashes : UInt64
  nonces : List UInt64
  deriving DecidableEq

/-- The range check every backend starts with:
`!count || start > UINT64_MAX - (count - 1)`. -/
def rangeOverflows (start : UInt64) (count : UInt32) : Bool :=
  count == 0 || start > 0xffffffffffffffff - (count - 1).toUInt64

/-- One iteration of `Cpu::scan`. The header copy is carried along because the
loop overwrites its nonce field in place. -/
def Cpu.scanStep (w : Work) (start : UInt64) (state : Header × List UInt64) (i : Nat) :
    Except String (Header × List UInt64) := do
  let nonce := start + i.toUInt64
  let h := storeLe state.1 32 nonce
  let hash ← blake2b256 h.toList
  pure (h, if meets hash w.target then state.2 ++ [nonce] else state.2)

def Cpu.scan (w : Work) (start : UInt64) (count : UInt32) : Except String Scan :=
  if rangeOverflows start count then throw "nonce range overflow"
  else do
    let state ← (List.range count.toNat).foldlM (Cpu.scanStep w start) (w.header, [])
    pure { hashes := count.toUInt64, nonces := state.2 }

/-- `n` solves `w`: the digest of the header with `n` in its nonce field, read
as a big-endian number, does not exceed the target. -/
def Solves (w : Work) (n : UInt64) : Prop :=
  ∃ hash, blake2b256 (w.header.toList.take 32 ++ leBytes 8 n ++ w.header.toList.drop 40) = .ok hash ∧
    beNat hash.toList ≤ beNat w.target.toList

/-- The nonces of a range that solve the work, in increasing order, and the
size of the range. -/
structure ExactScan (w : Work) (start : UInt64) (count : UInt32) (r : Scan) : Prop where
  hashes : r.hashes = count.toUInt64
  increasing : r.nonces.Pairwise (· < ·)
  mem_iff : ∀ n, n ∈ r.nonces ↔
    start ≤ n ∧ n.toNat < start.toNat + count.toNat ∧ Solves w n

/-- The nonces `start, …, start + count - 1` in order. -/
def nonceRange (start : UInt64) (count : Nat) : List UInt64 :=
  (List.range count).map fun i => start + i.toUInt64

/-- The decision the scalar loop takes on one nonce. -/
def hits (w : Work) (n : UInt64) : Bool :=
  meets (digest (storeLe w.header 32 n)) w.target

theorem solves_iff_hits (w : Work) (n : UInt64) : Solves w n ↔ hits w n = true := by
  have hbytes : w.header.toList.take 32 ++ leBytes 8 n ++ w.header.toList.drop 40 =
      (storeLe w.header 32 n).toList :=
    (storeLe_toList w.header 32 n (by decide)).symm
  rw [Solves, hbytes, hits, blake2b256_header, meets_iff]
  constructor
  · rintro ⟨hash, hhash, hle⟩
    rw [Except.ok.inj hhash]
    exact hle
  · intro hle
    exact ⟨_, rfl, hle⟩

theorem rangeOverflows_eq_false_iff (start : UInt64) (count : UInt32) :
    rangeOverflows start count = false ↔
      1 ≤ count.toNat ∧ start.toNat + count.toNat ≤ 2 ^ 64 := by
  have hstart := start.toNat_lt
  have hcount := count.toNat_lt
  by_cases hzero : count = 0
  · subst hzero
    simp [rangeOverflows]
  · have hpositive : 1 ≤ count.toNat := by
      rcases Nat.eq_zero_or_pos count.toNat with h | h
      · exact absurd (UInt32.toNat_inj.mp h) hzero
      · exact h
    have hone : 1 ≤ count := UInt32.le_iff_toNat_le.mpr (by simpa using hpositive)
    have hpred : (count - 1).toUInt64.toNat = count.toNat - 1 := by
      rw [UInt32.toNat_toUInt64, UInt32.toNat_sub_of_le _ _ hone]
      rfl
    have hlimit : ((0xffffffffffffffff : UInt64) - (count - 1).toUInt64).toNat =
        2 ^ 64 - 1 - (count.toNat - 1) := by
      have hle : (count - 1).toUInt64 ≤ 0xffffffffffffffff := by
        rw [UInt64.le_iff_toNat_le, hpred]
        change _ ≤ 2 ^ 64 - 1
        omega
      rw [UInt64.toNat_sub_of_le _ _ hle, hpred]
      rfl
    simp only [rangeOverflows, beq_eq_false_iff_ne.mpr hzero, Bool.false_or, decide_eq_false_iff_not,
      gt_iff_lt, UInt64.lt_iff_toNat_lt, hlimit]
    omega

section Range

variable {start : UInt64} {count : UInt32} (hrange : start.toNat + count.toNat ≤ 2 ^ 64)

include hrange

theorem nonceRange_toNat {i : Nat} (hi : i < count.toNat) :
    (start + i.toUInt64).toNat = start.toNat + i := by
  have hcount := count.toNat_lt
  have hnat : i.toUInt64.toNat = i := by
    simp only [Nat.toUInt64_eq, UInt64.toNat_ofNat']
    exact Nat.mod_eq_of_lt (by omega)
  rw [UInt64.toNat_add, hnat]
  exact Nat.mod_eq_of_lt (by omega)

theorem mem_nonceRange (n : UInt64) :
    n ∈ nonceRange start count.toNat ↔ start ≤ n ∧ n.toNat < start.toNat + count.toNat := by
  simp only [nonceRange, List.mem_map, List.mem_range, UInt64.le_iff_toNat_le]
  constructor
  · rintro ⟨i, hi, rfl⟩
    rw [nonceRange_toNat hrange hi]
    omega
  · rintro ⟨hlow, hhigh⟩
    have hi : n.toNat - start.toNat < count.toNat := by omega
    refine ⟨n.toNat - start.toNat, hi, ?_⟩
    apply UInt64.toNat_inj.mp
    rw [nonceRange_toNat hrange hi]
    omega

theorem nonceRange_increasing : (nonceRange start count.toNat).Pairwise (· < ·) := by
  rw [nonceRange, List.pairwise_map]
  apply List.pairwise_lt_range.imp_of_mem
  intro i j hi hj hij
  rw [UInt64.lt_iff_toNat_lt, nonceRange_toNat hrange (List.mem_range.mp hi),
    nonceRange_toNat hrange (List.mem_range.mp hj)]
  omega

/-- Filtering the range by the scalar decision is an exact scan. -/
theorem exactScan_filter (w : Work) :
    ExactScan w start count
      { hashes := count.toUInt64, nonces := (nonceRange start count.toNat).filter (hits w) } where
  hashes := rfl
  increasing := (nonceRange_increasing hrange).filter _
  mem_iff n := by
    rw [List.mem_filter, mem_nonceRange hrange, ← solves_iff_hits, and_assoc]

end Range

/-- An exact scan is determined by its work and range. -/
theorem ExactScan.unique {w : Work} {start : UInt64} {count : UInt32} {first second : Scan}
    (hfirst : ExactScan w start count first) (hsecond : ExactScan w start count second) :
    first = second := by
  have hmem : ∀ n, n ∈ first.nonces ↔ n ∈ second.nonces := fun n =>
    (hfirst.mem_iff n).trans (hsecond.mem_iff n).symm
  have hfirstNodup : first.nonces.Nodup := hfirst.increasing.imp fun h => UInt64.ne_of_lt h
  have hsecondNodup : second.nonces.Nodup := hsecond.increasing.imp fun h => UInt64.ne_of_lt h
  have hnonces : first.nonces = second.nonces :=
    List.Perm.eq_of_pairwise (fun a b _ _ hab hba => absurd hab (UInt64.lt_asymm hba))
      hfirst.increasing hsecond.increasing
      ((List.perm_ext_iff_of_nodup hfirstNodup hsecondNodup).mpr hmem)
  cases first
  cases second
  simp only [Scan.mk.injEq]
  exact ⟨hfirst.hashes.trans hsecond.hashes.symm, hnonces⟩

/-- One scalar iteration appends its nonce exactly when it hits; the header it
carries differs from the original in the nonce field only. -/
theorem Cpu.scanStep_eq (w : Work) (start n : UInt64) (nonces : List UInt64) (i : Nat) :
    Cpu.scanStep w start (storeLe w.header 32 n, nonces) i =
      .ok (storeLe w.header 32 (start + i.toUInt64),
        nonces ++ [start + i.toUInt64].filter (hits w)) := by
  simp only [Cpu.scanStep, storeLe_storeLe w.header 32 _ _ (by decide), blake2b256_header]
  change Except.ok _ = _
  rw [List.filter_singleton, hits]
  split <;> simp_all

theorem Cpu.scan_fold (w : Work) (start n : UInt64) (nonces : List UInt64) (indices : List Nat) :
    ∃ last, indices.foldlM (Cpu.scanStep w start) (storeLe w.header 32 n, nonces) =
      .ok (storeLe w.header 32 last,
        nonces ++ (indices.map fun i => start + i.toUInt64).filter (hits w)) := by
  induction indices generalizing n nonces with
  | nil => exact ⟨n, by simp; rfl⟩
  | cons i rest ih =>
      obtain ⟨last, hlast⟩ := ih (start + i.toUInt64)
        (nonces ++ [start + i.toUInt64].filter (hits w))
      refine ⟨last, ?_⟩
      rw [List.foldlM_cons, Cpu.scanStep_eq]
      change List.foldlM _ _ rest = _
      rw [hlast, List.append_assoc, ← List.filter_append]
      rfl

/-- The scalar loop returns the hits of the whole range in order. -/
theorem Cpu.scan_eq (w : Work) (start : UInt64) (count : UInt32)
    (hrange : rangeOverflows start count = false) :
    Cpu.scan w start count =
      .ok { hashes := count.toUInt64, nonces := (nonceRange start count.toNat).filter (hits w) } := by
  obtain ⟨last, hlast⟩ := Cpu.scan_fold w start (loadLe w.header 32) [] (List.range count.toNat)
  rw [storeLe_loadLe w.header 32 (by decide)] at hlast
  simp only [Cpu.scan, hrange, hlast]
  rfl

end Supryolo
