import Supryolo.Cpu
import Supryolo.Lib.Loops

/-!
Model of `cpu_avx2.cpp`: four independent 80-byte messages per vector. A
register `__m256i` is its four 64-bit lanes, lane 0 lowest; each intrinsic is
defined by its documented effect on lanes, on 32-bit elements or on bytes.
-/

namespace Supryolo.CpuAvx2

open Words Rounds Loops

abbrev V := Vector UInt64 4

def mm256Set1Epi64x (x : UInt64) : V := Vector.replicate 4 x

def mm256SetEpi64x (e3 e2 e1 e0 : UInt64) : V := #v[e0, e1, e2, e3]

def mm256AddEpi64 (a b : V) : V := Vector.zipWith (· + ·) a b

def mm256XorSi256 (a b : V) : V := Vector.zipWith (· ^^^ ·) a b

def mm256OrSi256 (a b : V) : V := Vector.zipWith (· ||| ·) a b

/-- Logical shift of every lane, for a count below 64. -/
def mm256SlliEpi64 (a : V) (count : UInt64) : V := a.map (· <<< count)

def mm256SrliEpi64 (a : V) (count : UInt64) : V := a.map (· >>> count)

def byteOf (a : V) (i : Fin 32) : UInt8 :=
  byteAt a[Fin.ofNat 4 (i.val / 8)] (i.val % 8)

def ofBytes (bytes : Fin 32 → UInt8) : V :=
  Vector.ofFn fun lane => leWord (List.ofFn fun j : Fin 8 => bytes (Fin.ofNat 32 (8 * lane + j)))

def mm256SetrEpi8 (bytes : Vector UInt8 32) : V := ofBytes fun i => bytes[i]

/-- Each result byte is selected from its own 128-bit half by the low four
bits of the control byte, or cleared when the control byte's top bit is set. -/
def mm256ShuffleEpi8 (a b : V) : V :=
  ofBytes fun i =>
    if byteOf b i &&& 0x80 ≠ 0 then 0
    else byteOf a (Fin.ofNat 32 (16 * (i.val / 16) + (byteOf b i &&& 15).toNat))

def dwordOf (a : V) (i : Fin 8) : UInt32 :=
  if i.val % 2 = 0 then lowHalf a[Fin.ofNat 4 (i.val / 2)]
  else highHalf a[Fin.ofNat 4 (i.val / 2)]

/-- Each 32-bit element is selected from its own 128-bit half by two bits of
the immediate. -/
def mm256ShuffleEpi32 (a : V) (imm : Nat) : V :=
  let element (i : Nat) := dwordOf a (Fin.ofNat 8 (4 * (i / 4) + imm / 4 ^ (i % 4) % 4))
  Vector.ofFn fun lane => pack (element (2 * lane + 1)) (element (2 * lane))

def mmShuffle (z y x w : Nat) : Nat := z * 64 + y * 16 + x * 4 + w

def splat (x : UInt64) : V := mm256Set1Epi64x x

def r24 : V :=
  mm256SetrEpi8 #v[3, 4, 5, 6, 7, 0, 1, 2, 11, 12, 13, 14, 15, 8, 9, 10, 3, 4, 5, 6,
    7, 0, 1, 2, 11, 12, 13, 14, 15, 8, 9, 10]

def r16 : V :=
  mm256SetrEpi8 #v[2, 3, 4, 5, 6, 7, 0, 1, 10, 11, 12, 13, 14, 15, 8, 9, 2, 3, 4, 5,
    6, 7, 0, 1, 10, 11, 12, 13, 14, 15, 8, 9]

def g : Mix V := fun a b c d x y =>
  let a := mm256AddEpi64 (mm256AddEpi64 a b) x
  let d := mm256ShuffleEpi32 (mm256XorSi256 d a) (mmShuffle 2 3 0 1)
  let c := mm256AddEpi64 c d
  let b := mm256ShuffleEpi8 (mm256XorSi256 b c) r24
  let a := mm256AddEpi64 (mm256AddEpi64 a b) y
  let d := mm256ShuffleEpi8 (mm256XorSi256 d a) r16
  let c := mm256AddEpi64 c d
  let b := mm256XorSi256 b c
  let b := mm256OrSi256 (mm256SlliEpi64 b 1) (mm256SrliEpi64 b 63)
  ⟨a, b, c, d⟩

/-- `round<R>` mixes with schedule row `sigma[R % 10]`. -/
def round (R : Nat) (v m : State V) : State V := mixRound g m (sigma.get (Fin.ofNat 10 R)) v

/-- `compress` runs `round<0>` to `round<11>` on four consecutive nonces. -/
def compress (base : State V) (nonce : UInt64) : Vector V 4 :=
  let m := put base 4 (mm256SetEpi64x (nonce + 3) (nonce + 2) (nonce + 1) nonce)
  let v : State V := iv.map splat ++ iv.map splat
  let v := put v 0 (splat (iv.get 0 ^^^ 0x01010020))
  let v := put v 12 (splat (iv.get 4 ^^^ 80))
  let v := put v 14 (splat (~~~(iv.get 6)))
  let v := (List.range 12).foldl (fun v R => CpuAvx2.round R v m) v
  Vector.ofFn fun word =>
    let i := Fin.castAdd 4 word
    mm256XorSi256 (splat (iv.get i ^^^ (if word.val = 0 then 0x01010020 else 0)))
      (mm256XorSi256 (lower v i) (upper v i))

def prepare (h : Header) : State V :=
  Vector.ofFn fun i => splat (if i.val < 10 then loadLe h (8 * i) else 0)

/-- The lane loop's body for block offset `i`: prefilter on the byte-swapped
first word, scalar recomputation of a candidate and the full comparison. -/
def scanLane (w : Work) (start : UInt64) (count : UInt32) (limit : UInt64) (i : Nat)
    (lanes : V) (nonces : List UInt64) (lane : Fin 4) : Except String (List UInt64) :=
  if i + lane.val ≥ count.toNat then pure nonces
  else if byteSwap (lanes.get lane) > limit then pure nonces
  else do
    let nonce := start + i.toUInt64 + lane.val.toUInt64
    let hash ← blake2b256 (storeLe w.header 32 nonce).toList
    if loadLe hash 0 ≠ lanes.get lane then throw "AVX2 candidate failed scalar validation"
    pure (if meets hash w.target then nonces ++ [nonce] else nonces)

def scanBlock (w : Work) (start : UInt64) (count : UInt32) (nonces : List UInt64) (k : Nat) :
    Except String (List UInt64) :=
  let i := 4 * k
  let out := compress (prepare w.header) (start + i.toUInt64)
  let limit := byteSwap (loadLe w.target 0)
  (List.finRange 4).foldlM (scanLane w start count limit i (out.get 0)) nonces

/-- The block loop steps `i` by four while `i < count`. -/
def scan (w : Work) (start : UInt64) (count : UInt32) : Except String Scan :=
  if rangeOverflows start count then throw "nonce range overflow"
  else do
    let nonces ← (List.range ((count.toNat + 3) / 4)).foldlM (scanBlock w start count) []
    pure { hashes := count.toUInt64, nonces := nonces }

section Lanes

variable (a b : V) (lane : Fin 4)

@[simp] theorem lane_splat (x : UInt64) : (splat x).get lane = x := by
  simp [splat, mm256Set1Epi64x, get_val]

@[simp] theorem lane_add : (mm256AddEpi64 a b).get lane = a.get lane + b.get lane := by
  simp [mm256AddEpi64, get_val]

@[simp] theorem lane_xor : (mm256XorSi256 a b).get lane = a.get lane ^^^ b.get lane := by
  simp [mm256XorSi256, get_val]

theorem byteOf_lane (j : Fin 8) :
    byteOf a (Fin.ofNat 32 (8 * lane + j)) = byteAt (a.get lane) j := by
  have hindex : (8 * lane.val + j.val) % 32 = 8 * lane.val + j.val := by omega
  have hlane : (8 * lane.val + j.val) / 8 % 4 = lane.val := by omega
  have hbyte : (8 * lane.val + j.val) % 8 = j.val := by omega
  simp [byteOf, get_val, Fin.ofNat, hindex, hlane, hbyte]

/-- A control vector that names, in every lane, the bytes of that lane moved
down by `k` positions rotates every lane by `k` bytes. -/
theorem lane_shuffleEpi8 (control : V) (amount : UInt64) (k : Nat) (hk : 0 < k) (hk8 : k < 8)
    (hamount : amount.toNat = 8 * k)
    (hcontrol : ∀ (l : Fin 4) (j : Fin 8),
      byteAt (control.get l) j.val = UInt8.ofNat (8 * (l.val % 2) + (j.val + k) % 8)) :
    (mm256ShuffleEpi8 a control).get lane = rotateRight (a.get lane) amount := by
  rw [← leWord_bytes_rotated (a.get lane) amount k hk hk8 hamount]
  simp only [mm256ShuffleEpi8, ofBytes, get_val, Vector.getElem_ofFn]
  apply congrArg leWord
  apply congrArg List.ofFn
  funext j
  rw [byteOf_lane, hcontrol lane j]
  have hsmall : 8 * (lane.val % 2) + (j.val + k) % 8 < 16 := by omega
  have hclear : ¬ (UInt8.ofNat (8 * (lane.val % 2) + (j.val + k) % 8) &&& 0x80 ≠ 0) := by
    interval_cases 8 * (lane.val % 2) + (j.val + k) % 8 <;> decide
  have hselect : (UInt8.ofNat (8 * (lane.val % 2) + (j.val + k) % 8) &&& 15).toNat =
      8 * (lane.val % 2) + (j.val + k) % 8 := by
    interval_cases 8 * (lane.val % 2) + (j.val + k) % 8 <;> decide
  have hindex : (8 * lane.val + j.val) % 32 = 8 * lane.val + j.val := by omega
  rw [if_neg hclear, hselect]
  have htarget : 16 * ((Fin.ofNat 32 (8 * lane.val + j.val)).val / 16) +
      (8 * (lane.val % 2) + (j.val + k) % 8) = 8 * lane.val + (j.val + k) % 8 := by
    simp only [Fin.ofNat, hindex]
    omega
  rw [htarget]
  exact byteOf_lane a lane ⟨(j.val + k) % 8, by omega⟩

theorem lane_shuffle_r24 :
    (mm256ShuffleEpi8 a r24).get lane = rotateRight (a.get lane) 24 :=
  lane_shuffleEpi8 a lane r24 24 3 (by decide) (by decide) rfl (by decide)

theorem lane_shuffle_r16 :
    (mm256ShuffleEpi8 a r16).get lane = rotateRight (a.get lane) 16 :=
  lane_shuffleEpi8 a lane r16 16 2 (by decide) (by decide) rfl (by decide)

theorem lane_shuffle_32 :
    (mm256ShuffleEpi32 a (mmShuffle 2 3 0 1)).get lane = rotateRight (a.get lane) 32 := by
  rw [← pack_halves_swapped]
  simp only [mm256ShuffleEpi32, get_val, Vector.getElem_ofFn]
  fin_cases lane <;> rfl

theorem lane_rotate_63 :
    (mm256OrSi256 (mm256SlliEpi64 a 1) (mm256SrliEpi64 a 63)).get lane =
      rotateRight (a.get lane) 63 := by
  simp only [mm256OrSi256, mm256SlliEpi64, mm256SrliEpi64, get_val, Vector.getElem_zipWith,
    Vector.getElem_map, rotateRight]
  exact UInt64.or_comm _ _

/-- Every lane of the vectorised step is the scalar step on that lane. -/
theorem g_respects_lane : Respects (fun x : V => x.get lane) g mixWords := by
  intro a b c d x y
  simp only [g, mixWords, mixHalf, lane_add, lane_xor, lane_shuffle_r24, lane_shuffle_r16,
    lane_shuffle_32, lane_rotate_63, UInt64.add_assoc]

end Lanes

/-- In every lane `compress` computes the scalar digest words of the header
with that lane's nonce. -/
theorem lane_compress (h : Header) (nonce : UInt64) (lane i : Fin 4) :
    ((compress (prepare h) nonce).get i).get lane =
      (blakeWords 80 (headerMessage (storeLe h 32 (nonce + lane.val.toUInt64)))).get i := by
  let project : V → UInt64 := fun x => x.get lane
  let m : State V := put (prepare h) 4
    (mm256SetEpi64x (nonce + 3) (nonce + 2) (nonce + 1) nonce)
  let initial : State V := put (put (put (iv.map splat ++ iv.map splat : State V) 0
    (splat (iv.get 0 ^^^ 0x01010020))) 12 (splat (iv.get 4 ^^^ 80))) 14 (splat (~~~(iv.get 6)))
  have hmessage : m.map project =
      headerMessage (storeLe h 32 (nonce + lane.val.toUInt64)) := by
    have hnonce : project (mm256SetEpi64x (nonce + 3) (nonce + 2) (nonce + 1) nonce) =
        nonce + lane.val.toUInt64 := by
      simp only [project, mm256SetEpi64x]
      fin_cases lane <;> simp [get_val]
    rw [headerMessage_storeLe, put_map, hnonce]
    congr 1
    apply Vector.ext
    intro j hj
    simp [prepare, headerMessage, project]
  have hsplat (x : UInt64) : project (splat x) = x := lane_splat lane x
  have hiv : (iv.map splat).map project = iv := by
    rw [Vector.map_map, show project ∘ splat = id from funext hsplat, Vector.map_id]
  have hinitial : initial.map project = blakeInitial 80 := by
    simp only [initial, put_map, Vector.map_append, hsplat, hiv]
    decide
  have hrounds : (List.range 12).foldl (fun v R => CpuAvx2.round R v m) initial =
      mixRounds g m schedule initial := by
    rw [mixRounds, schedule, List.foldl_map]
    rfl
  have hlane : (mixRounds g m schedule initial).map project =
      mixRounds mixWords (m.map project) schedule (initial.map project) :=
    mixRounds_map (g_respects_lane lane) m schedule initial
  have hword (j : Fin 16) : ((mixRounds g m schedule initial).get j).get lane =
      (mixRounds mixWords (headerMessage (storeLe h 32 (nonce + lane.val.toUInt64))) schedule
        (blakeInitial 80)).get j := by
    rw [← hmessage, ← hinitial, ← hlane, get_val (Vector.map _ _), Vector.getElem_map]
    rfl
  have hchain : iv.get (i.castAdd 4) ^^^ (if i.val = 0 then 0x01010020 else 0) =
      blakeChain.get (i.castAdd 4) := by
    fin_cases i <;> rfl
  have hcompress : (compress (prepare h) nonce).get i =
      mm256XorSi256 (splat (iv.get (i.castAdd 4) ^^^ (if i.val = 0 then 0x01010020 else 0)))
        (mm256XorSi256 (lower (mixRounds g m schedule initial) (i.castAdd 4))
          (upper (mixRounds g m schedule initial) (i.castAdd 4))) := by
    rw [← hrounds, get_val, compress, Vector.getElem_ofFn]
  rw [hcompress, lane_xor, lane_xor, lane_splat, hchain, lower, upper, hword, hword,
    blakeWords_get, UInt64.xor_assoc, lower, upper]

section Scan

variable (w : Work) (start : UInt64) (count : UInt32)

/-- What one lane contributes: its nonce, when it is in range and hits. -/
private def laneOut (i : Nat) : List UInt64 :=
  if i < count.toNat then [start + i.toUInt64].filter (hits w) else []

private theorem scanLane_eq (i : Nat) (nonces : List UInt64) (lane : Fin 4) :
    scanLane w start count (byteSwap (loadLe w.target 0)) i
        ((compress (prepare w.header) (start + i.toUInt64)).get 0) nonces lane =
      .ok (nonces ++ laneOut w start count (i + lane.val)) := by
  have hnonce : start + i.toUInt64 + lane.val.toUInt64 = start + (i + lane.val).toUInt64 := by
    simp only [Nat.toUInt64_eq, UInt64.ofNat_add, UInt64.add_assoc]
  have hlane : (((compress (prepare w.header) (start + i.toUInt64)).get 0).get lane) =
      loadLe (digest (storeLe w.header 32 (start + (i + lane.val).toUInt64))) 0 := by
    rw [digest, loadLe_storeWords, ← hnonce]
    exact lane_compress w.header (start + i.toUInt64) lane 0
  let n := start + (i + lane.val).toUInt64
  unfold scanLane laneOut
  by_cases hin : i + lane.val < count.toNat
  · rw [if_neg (Nat.not_le.mpr hin), if_pos hin]
    by_cases hskip : byteSwap (((compress (prepare w.header) (start + i.toUInt64)).get 0).get lane) >
        byteSwap (loadLe w.target 0)
    · -- A digest above the target in its first eight bytes is above it as a whole.
      have hmiss : hits w n = false := by
        rw [Bool.eq_false_iff]
        intro hhit
        have hle : leading (digest (storeLe w.header 32 n)) ≤ leading w.target :=
          leading_le_of_meets hhit
        rw [leading_eq_byteSwap, leading_eq_byteSwap, ← hlane] at hle
        exact absurd hskip (UInt64.not_lt.mpr hle)
      rw [if_pos hskip, List.filter_singleton, hmiss]
      simp
      rfl
    · have hvalid : ¬ (loadLe (digest (storeLe w.header 32 n)) 0 ≠
          (((compress (prepare w.header) (start + i.toUInt64)).get 0).get lane)) := by
        rw [not_not]
        exact hlane.symm
      rw [if_neg hskip]
      simp only [hnonce, blake2b256_header, ok_bind]
      rw [if_neg hvalid, List.filter_singleton, hits]
      cases meets (digest (storeLe w.header 32 n)) w.target <;> simp <;> rfl
  · rw [if_pos (Nat.le_of_not_lt hin), if_neg hin, List.append_nil]
    rfl

private theorem scanBlock_eq (nonces : List UInt64) (k : Nat) :
    scanBlock w start count nonces k =
      .ok (nonces ++ (List.range 4).flatMap fun j => laneOut w start count (4 * k + j)) := by
  unfold scanBlock
  rw [foldlM_append _ (fun lane : Fin 4 => laneOut w start count (4 * k + lane.val))
    (scanLane_eq w start count (4 * k))]
  rfl

/-- The vectorised loop returns the hits of the whole range in order, and its
scalar recheck never fails. -/
theorem scan_eq (hrange : rangeOverflows start count = false) :
    scan w start count =
      .ok { hashes := count.toUInt64, nonces := (nonceRange start count.toNat).filter (hits w) } := by
  have hloop : (List.range ((count.toNat + 3) / 4)).foldlM (scanBlock w start count) [] =
      .ok ((nonceRange start count.toNat).filter (hits w)) := by
    rw [foldlM_append _ _ (scanBlock_eq w start count), List.nil_append,
      flatMap_blocks (laneOut w start count) 4]
    unfold laneOut
    rw [flatMap_range_of_le _ _ _ (by omega), nonceRange,
      ← flatMap_filter_singleton (hits w), List.flatMap_map]
  simp only [scan, hrange, hloop]
  rfl

end Scan

/-- Both CPU backends return, for every work and every range that does not
pass `2^64`, the increasing list of solving nonces of that range. -/
theorem cpu_scan_exact (w : Work) (start : UInt64) (count : UInt32)
    (hcount : 1 ≤ count.toNat) (hrange : start.toNat + count.toNat - 1 ≤ 2 ^ 64 - 1) :
    ∃ r, Cpu.scan w start count = .ok r ∧ CpuAvx2.scan w start count = .ok r ∧
      ExactScan w start count r := by
  have hfits : start.toNat + count.toNat ≤ 2 ^ 64 := by omega
  have hguard : rangeOverflows start count = false :=
    (rangeOverflows_eq_false_iff start count).mpr ⟨hcount, hfits⟩
  exact ⟨_, Cpu.scan_eq w start count hguard, scan_eq w start count hguard,
    exactScan_filter hfits w⟩

/-- The last five nonces, a range that ends at `2^64` and is no multiple of
four. -/
theorem cpu_scan_exact_top :
    ∃ r, Cpu.scan ⟨Vector.replicate 80 7, Vector.replicate 32 9⟩ 0xfffffffffffffffb 5 = .ok r ∧
      CpuAvx2.scan ⟨Vector.replicate 80 7, Vector.replicate 32 9⟩ 0xfffffffffffffffb 5 = .ok r ∧
      ExactScan ⟨Vector.replicate 80 7, Vector.replicate 32 9⟩ 0xfffffffffffffffb 5 r :=
  cpu_scan_exact _ 0xfffffffffffffffb 5 (by decide) (by decide)

end Supryolo.CpuAvx2
