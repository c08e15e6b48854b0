import Supryolo.Crypto
import Supryolo.Lib.Loops

/-!
Model of `sv2.cpp`: the frames of the SV2 mining protocol, the header of a
standard job and the partition of its search space. Wire integers are little
endian; a decoder is a state transformer on the bytes left to read.
-/

namespace Supryolo.Sv2

open Words

structure Frame where
  extension : UInt16
  type : UInt8
  payload : Bytes
  deriving DecidableEq

structure NewJob where
  channel : UInt32
  job : UInt32
  ntime : Option UInt32
  version : UInt32
  root : Hash
  deriving DecidableEq

inductive Message
  | setupSuccess (version : UInt16) (flags : UInt32)
  | openSuccess (request channel : UInt32) (target : Hash) (extranonce : Bytes) (group : UInt32)
  | newJob (job : NewJob)
  | prevHash (channel job : UInt32) (hash : Hash) (ntime nbits : UInt32)
  | target (channel : UInt32) (target : Hash)
  | accepted (channel lastSequence count : UInt32) (difficultySum : UInt64)
  | rejected (channel sequence : UInt32) (reason : Text)
  | error (type : UInt8) (reference : UInt32) (reason : Text)
  deriving DecidableEq

abbrev Reader := StateT Bytes (Except String)

namespace Reader

def integer (n : Nat) : Reader UInt64 := do
  let b ← get
  if b.length < n then throw "truncated SV2 message"
  set (b.drop n)
  pure (leWord (b.take n))

def u32 : Reader UInt32 := do pure (← integer 4).toUInt32

def bytes (n : Nat) : Reader Bytes := do
  let b ← get
  if b.length < n then throw "truncated SV2 bytes"
  set (b.drop n)
  pure (b.take n)

def hash : Reader Hash := do
  let v ← bytes 32
  pure (copyTo (Vector.replicate 32 0) 0 v)

/-- Numeric targets are reversed to big-endian order and must not be zero. -/
def targetHash : Reader Hash := do
  let h := (← hash).reverse
  if h.toList.all (· == 0) then throw "zero SV2 target"
  pure h

def shortBytes (max : Nat) : Reader Bytes := do
  let n ← integer 1
  if n.toNat > max then throw "invalid SV2 byte string length"
  bytes n.toNat

def string : Reader Text := do
  let v ← shortBytes 255
  pure (v.map fun byte => Char.ofNat byte.toNat)

def finish : Reader Unit := do
  if (← get) ≠ [] then throw "unexpected trailing SV2 bytes"

end Reader

open Reader in
/-- The message a payload of the given type spells. -/
def decodePayload (type : UInt8) : Reader Message :=
  match type.toNat with
  | 1 => do
      let version := (← integer 2).toUInt16
      let flags ← u32
      pure (.setupSuccess version flags)
  | 0x11 => do
      let request ← u32
      let c ← u32
      let t ← targetHash
      let p ← shortBytes 32
      let g ← u32
      pure (.openSuccess request c t p g)
  | 0x15 => do
      let c ← u32
      let j ← u32
      let present ← integer 1
      if present > 1 then throw "invalid SV2 optional ntime"
      let t ← if present ≠ 0 then some <$> u32 else pure none
      let v ← u32
      pure (.newJob ⟨c, j, t, v, ← hash⟩)
  | 0x20 => do
      let c ← u32
      let j ← u32
      let h ← hash
      let t ← u32
      let n ← u32
      pure (.prevHash c j h t n)
  | 0x21 => do
      let c ← u32
      pure (.target c (← targetHash))
  | 0x1c => do
      let c ← u32
      let s ← u32
      let n ← u32
      pure (.accepted c s n (← integer 8))
  | 0x1d => do
      let c ← u32
      let s ← u32
      pure (.rejected c s (← string))
  | 2 | 0x12 | 0x18 => do
      let ref ← u32
      pure (.error type ref (← string))
  | other => throw ("unsupported SV2 message type " ++ toString other)

def decode (f : Frame) : Except String Message :=
  let channel := f.type ≥ 0x15 && f.type ≤ 0x24
  if f.extension ≠ (if channel then 0x8000 else 0) then
    throw "unsupported SV2 extension or channel bit"
  else do
    let (value, rest) ← (decodePayload f.type).run f.payload
    let _ ← Reader.finish.run rest
    pure value

/-- `Writer::string`, a length byte and the text. -/
def writeString (s : Text) : Except String Bytes :=
  if s.length > 255 then throw "SV2 string exceeds 255 bytes"
  else pure (s.length.toUInt8 :: s.map fun c => c.toNat.toUInt8)

def setup (host : Text) (port : UInt16) (agent : Text) : Except String Frame := do
  let host ← writeString host
  let vendor ← writeString "ocminer".toList
  let hardware ← writeString "supryolo".toList
  let agent ← writeString agent
  let device ← writeString []
  pure
    { extension := 0, type := 0
      payload := leBytes 1 0 ++ leBytes 2 2 ++ leBytes 2 2 ++ leBytes 4 1 ++ host ++
        leBytes 2 port.toUInt64 ++ vendor ++ hardware ++ agent ++ device }

/-- `rate` is the bit pattern of the source's `float`. -/
def rateInvalid (rate : UInt32) : Bool :=
  (rate >>> 23) &&& 0xff == 0xff || rate > 0x80000000

def openStandard (request : UInt32) (user : Text) (rate : UInt32) (maxTarget : Hash) :
    Except String Frame := do
  if rateInvalid rate then throw "invalid SV2 nominal hashrate"
  let user ← writeString user
  pure
    { extension := 0, type := 0x10
      payload := leBytes 4 request.toUInt64 ++ user ++ leBytes 4 rate.toUInt64 ++
        maxTarget.toList.reverse }

def submitStandard (c s j n t v : UInt32) : Frame :=
  { extension := 0x8000, type := 0x1a
    payload := [c, s, j, n, t, v].flatMap fun x => leBytes 4 x.toUInt64 }

def workHeader (hidden root : Hash) (t : UInt32) : Header :=
  let h : Header := Vector.replicate 80 0
  let h := copyTo h 0 hidden.toList
  let h := storeLe h 40 t.toUInt64
  copyTo h 48 root.toList

def standardWork (hidden commitment : Hash) (extranonce : Bytes) (ntime : UInt32) :
    Except String Header :=
  if extranonce.length ≠ 12 ∨ ¬ (hidden.toList.take 6).all (· == 0) then
    throw "invalid BTCB2 SV2 hidden hash or extranonce length"
  else do
    let leaf := List.replicate 4 0 ++ commitment.toList ++ List.replicate 4 0 ++ extranonce
    pure (workHeader hidden (← blake2b256 leaf) ntime)

theorem standardWork_total {hidden : Hash} (commitment : Hash) {extranonce : Bytes}
    (hlength : extranonce.length = 12) (hhidden : (hidden.toList.take 6).all (· == 0) = true)
    (ntime : UInt32) : ∃ header, standardWork hidden commitment extranonce ntime = .ok header := by
  obtain ⟨root, hroot⟩ := blake2b256_total (b := List.replicate 4 0 ++ commitment.toList ++
    List.replicate 4 0 ++ extranonce) (by simp [hlength])
  rw [standardWork, if_neg (by simp [hlength, hhidden])]
  dsimp only
  rw [hroot]
  exact ⟨_, rfl⟩

/-- The header in front of the time does not depend on it. -/
theorem workHeader_toList (hidden root : Hash) (t : UInt32) :
    (workHeader hidden root t).toList =
      (copyTo (Vector.replicate 80 0 : Header) 0 hidden.toList).toList.take 40 ++
        leBytes 8 t.toUInt64 ++ root.toList := by
  unfold workHeader
  dsimp only
  generalize copyTo (Vector.replicate 80 0 : Header) 0 hidden.toList = front
  have hfront : (front.toList.take 40 ++ leBytes 8 t.toUInt64).length = 48 := by simp
  have hroot : root.toList.length = 32 := Vector.length_toList
  rw [copyTo_toList _ _ _ (by rw [hroot]), storeLe_toList _ _ _ (by decide), hroot,
    List.take_left' hfront, List.drop_eq_nil_of_le, List.append_nil]
  simp

/-- Rolling the time of a header gives the header of that time. -/
theorem storeLe_workHeader (hidden root : Hash) (t t' : UInt32) :
    storeLe (workHeader hidden root t) 40 t'.toUInt64 = workHeader hidden root t' := by
  apply Vector.toList_inj.mp
  rw [storeLe_toList _ _ _ (by decide), workHeader_toList, workHeader_toList]
  generalize copyTo (Vector.replicate 80 0 : Header) 0 hidden.toList = front
  have hfront : (front.toList.take 40).length = 40 := by simp
  have htime : (front.toList.take 40 ++ leBytes 8 t.toUInt64).length = 48 := by simp
  rw [List.drop_left' htime, List.append_assoc (front.toList.take 40), List.take_left' hfront]

theorem standardWork_roll {hidden commitment : Hash} {extranonce : Bytes} {t : UInt32}
    {header : Header} (h : standardWork hidden commitment extranonce t = .ok header) (t' : UInt32) :
    standardWork hidden commitment extranonce t' = .ok (storeLe header 40 t'.toUInt64) := by
  unfold standardWork at h ⊢
  split at h
  · cases h
  · rename_i hguard
    rw [if_neg hguard]
    obtain ⟨root, hroot, h⟩ := Loops.bind_eq_ok.mp h
    obtain rfl := Loops.pure_eq_ok.mp h
    dsimp only
    rw [hroot, storeLe_workHeader]
    rfl

structure Partition where
  nonce : UInt32
  ntime : UInt32
  count : UInt32
  deriving DecidableEq

def partition (base slot : UInt32) (cursor : UInt64) (batch : UInt32) :
    Except String Partition :=
  if slot ≥ 256 ∨ cursor ≥ 0x100000000000000 ∨ batch = 0 then
    throw "SV2 nonce partition exhausted or invalid"
  else
    let nonce := cursor.toUInt32
    pure
      { nonce := nonce
        ntime := base + (slot <<< 24) + (cursor >>> 32).toUInt32
        count := (min batch.toUInt64 (0x100000000 - nonce.toUInt64)).toUInt32 }

/-- A partition that is handed out holds at least one nonce and none beyond 32
bits. -/
theorem partition_ok {base slot : UInt32} {cursor : UInt64} {batch : UInt32} {p : Partition}
    (h : partition base slot cursor batch = .ok p) :
    slot.toNat < 256 ∧ cursor.toNat < 2 ^ 56 ∧ p.nonce.toNat = cursor.toNat % 2 ^ 32 ∧
      p.ntime.toNat =
        (base.toNat + slot.toNat * 2 ^ 24 + cursor.toNat / 2 ^ 32) % 2 ^ 32 ∧
      0 < p.count.toNat ∧ p.nonce.toNat + p.count.toNat ≤ 2 ^ 32 := by
  obtain ⟨hguard, h⟩ := Loops.guard_eq_ok.mp h
  obtain rfl := Loops.pure_eq_ok.mp h
  simp only [not_or, ge_iff_le, UInt32.le_iff_toNat_le, UInt64.le_iff_toNat_le] at hguard
  obtain ⟨hslot, hcursor, hbatch⟩ := hguard
  have hslot' : slot.toNat < 256 := Nat.lt_of_not_le hslot
  have hcursor' : cursor.toNat < 2 ^ 56 := Nat.lt_of_not_le hcursor
  have hbatch' : 0 < batch.toNat := by
    rcases Nat.eq_zero_or_pos batch.toNat with hzero | hpositive
    · exact absurd (UInt32.toNat_inj.mp hzero) hbatch
    · exact hpositive
  have hshift : (slot <<< 24).toNat = slot.toNat * 2 ^ 24 := by
    rw [UInt32.toNat_shiftLeft]
    simp [Nat.shiftLeft_eq]
    omega
  have hhigh : (cursor >>> 32).toUInt32.toNat = cursor.toNat / 2 ^ 32 := by
    rw [UInt64.toNat_toUInt32, UInt64.toNat_shiftRight]
    simp [Nat.shiftRight_eq_div_pow]
    omega
  have hnonce : cursor.toUInt32.toNat = cursor.toNat % 2 ^ 32 := UInt64.toNat_toUInt32 cursor
  have hroom : (0x100000000 - cursor.toUInt32.toUInt64).toNat = 2 ^ 32 - cursor.toNat % 2 ^ 32 := by
    rw [UInt64.toNat_sub_of_le, UInt32.toNat_toUInt64, hnonce]
    · rfl
    · rw [UInt64.le_iff_toNat_le, UInt32.toNat_toUInt64, hnonce]
      change _ ≤ 2 ^ 32
      omega
  have hmin : (min batch.toUInt64 (0x100000000 - cursor.toUInt32.toUInt64)).toUInt32.toNat =
      min batch.toNat (2 ^ 32 - cursor.toNat % 2 ^ 32) := by
    have hlt := batch.toNat_lt
    have hle : batch.toUInt64 ≤ 0x100000000 - cursor.toUInt32.toUInt64 ↔
        batch.toNat ≤ 2 ^ 32 - cursor.toNat % 2 ^ 32 := by
      rw [UInt64.le_iff_toNat_le, hroom, UInt32.toNat_toUInt64]
    change (if batch.toUInt64 ≤ 0x100000000 - cursor.toUInt32.toUInt64 then batch.toUInt64
      else 0x100000000 - cursor.toUInt32.toUInt64).toUInt32.toNat = _
    split
    · rename_i hsmall
      rw [UInt64.toNat_toUInt32, UInt32.toNat_toUInt64, Nat.min_eq_left (hle.mp hsmall)]
      omega
    · rename_i hlarge
      rw [hle] at hlarge
      rw [UInt64.toNat_toUInt32, hroom, Nat.min_eq_right (by omega)]
      omega
  refine ⟨hslot', hcursor', hnonce, ?_, ?_, ?_⟩
  · dsimp only
    rw [UInt32.toNat_add, UInt32.toNat_add, hshift, hhigh, Nat.mod_add_mod]
  · dsimp only
    rw [hmin]
    omega
  · dsimp only
    rw [hmin, hnonce]
    omega
/-- Slot and cursor can be read back from where a partition starts. -/
theorem partition_injective {base slot slot' batch batch' : UInt32} {cursor cursor' : UInt64}
    {p p' : Partition} (h : partition base slot cursor batch = .ok p)
    (h' : partition base slot' cursor' batch' = .ok p') (hntime : p.ntime = p'.ntime)
    (hnonce : p.nonce = p'.nonce) : slot = slot' ∧ cursor = cursor' := by
  obtain ⟨hslot, hcursor, hlow, hhigh, -⟩ := partition_ok h
  obtain ⟨hslot', hcursor', hlow', hhigh', -⟩ := partition_ok h'
  rw [hntime] at hhigh
  rw [hnonce] at hlow
  constructor
  · apply UInt32.toNat_inj.mp
    omega
  · apply UInt64.toNat_inj.mp
    omega

end Supryolo.Sv2
