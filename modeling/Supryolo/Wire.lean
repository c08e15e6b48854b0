import Supryolo.Sv2
import Supryolo.Lib.Readers

namespace Supryolo.Sv2

open Words Readers Loops

def wordBytes (x : UInt32) : Bytes := leBytes 4 x.toUInt64

/-- A length byte and the bytes. -/
def shortString (bytes : Bytes) : Bytes := bytes.length.toUInt8 :: bytes

def textBytes (text : Text) : Bytes := text.map fun c => c.toNat.toUInt8

def optionalWord : Option UInt32 → Bytes
  | none => [0]
  | some x => 1 :: wordBytes x

/-- Targets are numbers and go least significant byte first; hashes go as they
are. -/
def targetBytes (target : Hash) : Bytes := target.toList.reverse

def Message.type : Message → UInt8
  | .setupSuccess _ _ => 1
  | .openSuccess _ _ _ _ _ => 0x11
  | .newJob _ => 0x15
  | .prevHash _ _ _ _ _ => 0x20
  | .target _ _ => 0x21
  | .accepted _ _ _ _ => 0x1c
  | .rejected _ _ _ => 0x1d
  | .error type _ _ => type

def Message.payload : Message → Bytes
  | .setupSuccess version flags => leBytes 2 version.toUInt64 ++ wordBytes flags
  | .openSuccess request channel t extranonce group =>
      wordBytes request ++ wordBytes channel ++ targetBytes t ++ shortString extranonce ++
        wordBytes group
  | .newJob m =>
      wordBytes m.channel ++ wordBytes m.job ++ optionalWord m.ntime ++ wordBytes m.version ++
        m.root.toList
  | .prevHash channel job hash ntime nbits =>
      wordBytes channel ++ wordBytes job ++ hash.toList ++ wordBytes ntime ++ wordBytes nbits
  | .target channel t => wordBytes channel ++ targetBytes t
  | .accepted channel lastSequence count difficultySum =>
      wordBytes channel ++ wordBytes lastSequence ++ wordBytes count ++ leBytes 8 difficultySum
  | .rejected channel sequence reason =>
      wordBytes channel ++ wordBytes sequence ++ shortString (textBytes reason)
  | .error _ reference reason => wordBytes reference ++ shortString (textBytes reason)

/-- Messages about a channel carry the channel bit. -/
def extensionOf (type : UInt8) : UInt16 := if 0x15 ≤ type ∧ type ≤ 0x24 then 0x8000 else 0

def encode (m : Message) : Frame := ⟨extensionOf m.type, m.type, m.payload⟩

/-- A text that is a string of at most 255 bytes. -/
def IsString (text : Text) : Prop := text.length ≤ 255 ∧ ∀ c ∈ text, c.toNat < 256

def Message.WellFormed : Message → Prop
  | .openSuccess _ _ t extranonce _ => t ≠ Vector.replicate 32 0 ∧ extranonce.length ≤ 32
  | .target _ t => t ≠ Vector.replicate 32 0
  | .rejected _ _ reason => IsString reason
  | .error type _ reason => (type = 2 ∨ type = 0x12 ∨ type = 0x18) ∧ IsString reason
  | _ => True

theorem spells_integer {n : Nat} (hn : n ≤ 8) :
    Spells (Reader.integer n) (leBytes n) fun word => word.toNat < 256 ^ n := by
  intro input word rest
  have hrun : (Reader.integer n).run input = .ok (word, rest) ↔
      ¬ input.length < n ∧ leWord (input.take n) = word ∧ input.drop n = rest := run_front_iff
  rw [hrun]
  constructor
  · rintro ⟨hlength, rfl, rfl⟩
    have htake : (input.take n).length = n := by
      rw [List.length_take]
      omega
    have hvalue := leWord_toNat (input.take n) (by omega)
    refine ⟨?_, ?_⟩
    · dsimp only
      rw [hvalue]
      have hlt := leNat_lt (input.take n)
      rwa [htake] at hlt
    · have hbytes : leBytes n (leWord (input.take n)) = input.take n := by
        apply leNat_injective (by simp [htake])
        rw [leNat_leBytes, hvalue, Nat.mod_eq_of_lt]
        have hlt := leNat_lt (input.take n)
        rwa [htake] at hlt
      rw [hbytes, List.take_append_drop]
  · rintro ⟨hlt, rfl⟩
    have hlength : (leBytes n word).length = n := leBytes_length n word
    refine ⟨by simp, ?_, List.drop_left' hlength⟩
    rw [List.take_left' hlength]
    apply UInt64.toNat_inj.mp
    rw [leWord_toNat _ (by omega), leNat_leBytes, Nat.mod_eq_of_lt hlt]

private theorem toUInt64_toUInt32 {word : UInt64} (h : word.toNat < 256 ^ 4) :
    word.toUInt32.toUInt64 = word := by
  apply UInt64.toNat_inj.mp
  rw [UInt32.toNat_toUInt64, UInt64.toNat_toUInt32]
  exact Nat.mod_eq_of_lt h

theorem spells_u32 : Spells Reader.u32 wordBytes fun _ => True := by
  intro input x rest
  unfold Reader.u32
  rw [(spells_integer (by decide)).bind]
  simp only [run_pure_iff]
  constructor
  · rintro ⟨word, left, ⟨hlt, rfl⟩, rfl, rfl⟩
    rw [wordBytes, toUInt64_toUInt32 hlt]
    exact ⟨trivial, rfl⟩
  · rintro ⟨-, rfl⟩
    refine ⟨x.toUInt64, rest, ⟨?_, rfl⟩, UInt32.toUInt32_toUInt64 x, rfl⟩
    rw [UInt32.toNat_toUInt64]
    exact x.toNat_lt

theorem spells_bytes (n : Nat) :
    Spells (Reader.bytes n) (fun bytes => bytes) fun bytes => bytes.length = n := by
  intro input bytes rest
  rw [← take_drop_iff]
  exact run_front_iff (f := fun front => front)

/-- Thirty-two bytes fill a hash. -/
private theorem copyTo_hash {bytes : Bytes} (h : bytes.length = 32) :
    (copyTo (Vector.replicate 32 0 : Hash) 0 bytes).toList = bytes := by
  rw [copyTo_toList _ _ _ (by omega)]
  simp [h]

theorem spells_hash : Spells Reader.hash (fun h => h.toList) fun _ => True := by
  intro input h rest
  unfold Reader.hash
  rw [(spells_bytes 32).bind]
  simp only [run_pure_iff]
  constructor
  · rintro ⟨bytes, left, ⟨hlength, rfl⟩, rfl, rfl⟩
    rw [copyTo_hash hlength]
    exact ⟨trivial, rfl⟩
  · rintro ⟨-, rfl⟩
    refine ⟨h.toList, rest, ⟨Vector.length_toList, rfl⟩, ?_, rfl⟩
    apply Vector.toList_inj.mp
    rw [copyTo_hash Vector.length_toList]

theorem all_zero_iff {h : Hash} : h.toList.all (· == 0) = true ↔ h = Vector.replicate 32 0 := by
  rw [List.all_eq_true, ← Vector.toList_inj, Vector.toList_replicate, List.eq_replicate_iff]
  simp

theorem spells_targetHash :
    Spells Reader.targetHash targetBytes fun h => h ≠ Vector.replicate 32 0 := by
  intro input h rest
  unfold Reader.targetHash
  rw [spells_hash.bind]
  simp only [run_guard_iff, run_pure_iff, true_and]
  constructor
  · rintro ⟨value, left, rfl, hnot, rfl, rfl⟩
    refine ⟨fun hall => hnot (all_zero_iff.mpr hall), ?_⟩
    rw [targetBytes, Vector.toList_reverse, List.reverse_reverse]
  · rintro ⟨hne, rfl⟩
    refine ⟨h.reverse, rest, ?_, ?_, Vector.reverse_reverse h, rfl⟩
    · rw [targetBytes, Vector.toList_reverse]
    · rw [Vector.reverse_reverse]
      exact fun hall => hne (all_zero_iff.mp hall)

private theorem length_byte (n : Nat) : leBytes 1 n.toUInt64 = [n.toUInt8] := by
  have hbyte : n.toUInt64.toUInt8 = n.toUInt8 := by
    apply UInt8.toNat_inj.mp
    simp
  simp [leBytes, hbyte]

theorem spells_shortBytes {max : Nat} (hmax : max ≤ 255) :
    Spells (Reader.shortBytes max) shortString fun bytes => bytes.length ≤ max := by
  intro input bytes rest
  unfold Reader.shortBytes
  rw [(spells_integer (by decide)).bind]
  simp only [run_guard_iff, (spells_bytes _) _ _ _]
  constructor
  · rintro ⟨word, left, ⟨hlt, rfl⟩, hle, hlength, rfl⟩
    have hword : word = bytes.length.toUInt64 := by
      apply UInt64.toNat_inj.mp
      rw [hlength]
      simp
    have hle' : bytes.length ≤ max := by omega
    refine ⟨hle', ?_⟩
    rw [hword, length_byte]
    rfl
  · rintro ⟨hle, rfl⟩
    have hvalue : bytes.length.toUInt64.toNat = bytes.length := by
      simp
      omega
    refine ⟨bytes.length.toUInt64, bytes ++ rest, ⟨?_, ?_⟩, ?_, hvalue.symm, rfl⟩
    · rw [hvalue]
      omega
    · rw [length_byte]
      rfl
    · rw [hvalue]
      omega

/-- A byte and the character that stands for it. -/
private theorem toNat_ofNat_byte (byte : UInt8) : (Char.ofNat byte.toNat).toNat = byte.toNat := by
  have hvalid : byte.toNat.isValidChar := Or.inl (byte.toNat_lt.trans (by decide))
  rw [Char.ofNat, dif_pos hvalid]
  rfl

private theorem textBytes_chars (bytes : Bytes) :
    textBytes (bytes.map fun byte => Char.ofNat byte.toNat) = bytes := by
  rw [textBytes, List.map_map]
  have hchar : ∀ byte ∈ bytes,
      ((fun c : Char => c.toNat.toUInt8) ∘ fun byte : UInt8 => Char.ofNat byte.toNat) byte =
        id byte := by
    intro byte _
    rw [Function.comp_apply, toNat_ofNat_byte]
    exact UInt8.ofNat_toNat
  rw [List.map_congr_left hchar, List.map_id]

private theorem chars_textBytes {text : Text} (h : ∀ c ∈ text, c.toNat < 256) :
    ((textBytes text).map fun byte => Char.ofNat byte.toNat) = text := by
  rw [textBytes, List.map_map]
  have hchar : ∀ c ∈ text,
      ((fun byte : UInt8 => Char.ofNat byte.toNat) ∘ fun c : Char => c.toNat.toUInt8) c = id c := by
    intro c hc
    have hlt : c.toNat.toUInt8.toNat = c.toNat := by
      rw [Nat.toUInt8, UInt8.toNat_ofNat']
      exact Nat.mod_eq_of_lt (h c hc)
    simp only [Function.comp_apply, hlt, Char.ofNat_toNat, id_eq]
  rw [List.map_congr_left hchar, List.map_id]

theorem spells_string : Spells Reader.string (fun text => shortString (textBytes text)) IsString := by
  intro input text rest
  unfold Reader.string
  rw [(spells_shortBytes (by decide)).bind]
  simp only [run_pure_iff]
  constructor
  · rintro ⟨bytes, left, ⟨hlength, rfl⟩, rfl, rfl⟩
    rw [textBytes_chars]
    refine ⟨⟨by rwa [List.length_map], ?_⟩, rfl⟩
    intro c hc
    obtain ⟨byte, -, rfl⟩ := List.mem_map.mp hc
    rw [toNat_ofNat_byte]
    exact byte.toNat_lt
  · rintro ⟨⟨hlength, hbytes⟩, rfl⟩
    refine ⟨textBytes text, rest, ⟨?_, rfl⟩, chars_textBytes hbytes, rfl⟩
    rwa [textBytes, List.length_map]

/-- The payloads of one type are read exactly as the messages of that type are
written. -/
def Reads (type : UInt8) : Prop :=
  Spells (decodePayload type) Message.payload fun m => m.type = type ∧ m.WellFormed

/-- The types of errors are not those of other messages. -/
private theorem error_ne {type other : UInt8} {reference : UInt32} {reason : Text}
    (h : (Message.error type reference reason).WellFormed)
    (hother : other ≠ 2 ∧ other ≠ 0x12 ∧ other ≠ 0x18) :
    (Message.error type reference reason).type ≠ other := by
  obtain ⟨rfl | rfl | rfl, -⟩ := h
  · exact Ne.symm hother.1
  · exact Ne.symm hother.2.1
  · exact Ne.symm hother.2.2

theorem reads_setupSuccess : Reads 1 := by
  intro b m rest
  change (do
    let version := (← Reader.integer 2).toUInt16
    let flags ← Reader.u32
    pure (.setupSuccess version flags) : Reader Message).run b = _ ↔ _
  rw [(spells_integer (by decide)).bind]
  simp only [spells_u32.bind, run_pure_iff, true_and]
  constructor
  · rintro ⟨version, left, ⟨hlt, rfl⟩, flags, left', rfl, rfl, rfl⟩
    have hword : version.toUInt16.toUInt64 = version := by
      apply UInt64.toNat_inj.mp
      rw [UInt16.toNat_toUInt64, UInt64.toNat_toUInt16]
      exact Nat.mod_eq_of_lt hlt
    refine ⟨⟨rfl, trivial⟩, ?_⟩
    rw [Message.payload, hword, List.append_assoc]
  · rintro ⟨⟨htype, hlegal⟩, rfl⟩
    cases m with
    | setupSuccess version flags =>
        refine ⟨version.toUInt64, wordBytes flags ++ rest, ⟨?_, ?_⟩, flags, rest, rfl, ?_, rfl⟩
        · rw [UInt16.toNat_toUInt64]
          exact version.toNat_lt
        · rw [Message.payload, List.append_assoc]
        · rw [UInt16.toUInt16_toUInt64]
    | error type reference reason => exact absurd htype (error_ne hlegal (by decide))
    | _ => exact absurd htype (by simp [Message.type])

theorem reads_openSuccess : Reads 0x11 := by
  intro b m rest
  change (do
    let request ← Reader.u32
    let c ← Reader.u32
    let t ← Reader.targetHash
    let p ← Reader.shortBytes 32
    let g ← Reader.u32
    pure (.openSuccess request c t p g) : Reader Message).run b = _ ↔ _
  have hshort : Spells (Reader.shortBytes 32) shortString fun bytes => bytes.length ≤ 32 :=
    spells_shortBytes (by decide)
  simp only [spells_u32.bind, spells_targetHash.bind, hshort.bind, run_pure_iff, true_and]
  constructor
  · rintro ⟨request, _, rfl, c, _, rfl, t, _, ⟨hne, rfl⟩, p, _, ⟨hle, rfl⟩, g, _, rfl, rfl, rfl⟩
    refine ⟨⟨rfl, hne, hle⟩, ?_⟩
    simp only [Message.payload, List.append_assoc]
  · rintro ⟨⟨htype, hlegal⟩, rfl⟩
    cases m with
    | openSuccess request c t p g =>
        refine ⟨request, _, ?_, c, _, rfl, t, _, ⟨hlegal.1, rfl⟩, p, _, ⟨hlegal.2, rfl⟩, g, rest, rfl,
          rfl, rfl⟩
        simp only [Message.payload, List.append_assoc]
    | error type reference reason => exact absurd htype (error_ne hlegal (by decide))
    | _ => exact absurd htype (by simp [Message.type])

theorem reads_newJob : Reads 0x15 := by
  intro b m rest
  change (do
    let c ← Reader.u32
    let j ← Reader.u32
    let present ← Reader.integer 1
    if present > 1 then throw "invalid SV2 optional ntime"
    let t ← if present ≠ 0 then some <$> Reader.u32 else pure none
    let v ← Reader.u32
    pure (.newJob ⟨c, j, t, v, ← Reader.hash⟩) : Reader Message).run b = _ ↔ _
  have hflag : Spells (Reader.integer 1) (leBytes 1) fun word => word.toNat < 256 ^ 1 :=
    spells_integer (by decide)
  simp only [spells_u32.bind, hflag.bind, run_guard_iff, true_and]
  constructor
  · rintro ⟨c, _, rfl, j, _, rfl, present, _, ⟨-, rfl⟩, hle, h⟩
    split at h
    · rename_i hset
      have hone : present = 1 := by
        rw [gt_iff_lt, UInt64.lt_iff_toNat_lt] at hle
        rw [ne_eq, ← UInt64.toNat_inj] at hset
        apply UInt64.toNat_inj.mp
        change ¬ present.toNat = 0 at hset
        change ¬ 1 < present.toNat at hle
        change present.toNat = 1
        omega
      rw [map_eq_pure_bind, bind_assoc] at h
      simp only [spells_u32.bind, spells_hash.bind, run_pure_iff, true_and, pure_bind] at h
      obtain ⟨t, _, rfl, v, _, rfl, root, _, rfl, rfl, rfl⟩ := h
      refine ⟨⟨rfl, trivial⟩, ?_⟩
      rw [hone]
      simp only [Message.payload, optionalWord, List.append_assoc]
      rfl
    · rename_i hclear
      rw [not_not] at hclear
      simp only [spells_u32.bind, spells_hash.bind, run_pure_iff, true_and, pure_bind] at h
      obtain ⟨v, _, rfl, root, _, rfl, rfl, rfl⟩ := h
      refine ⟨⟨rfl, trivial⟩, ?_⟩
      rw [hclear]
      simp only [Message.payload, optionalWord, List.append_assoc]
      rfl
  · rintro ⟨⟨htype, hlegal⟩, rfl⟩
    cases m with
    | newJob job =>
        obtain ⟨c, j, t, v, root⟩ := job
        cases t with
        | none =>
            refine ⟨c, _, ?_, j, _, rfl, 0, wordBytes v ++ (root.toList ++ rest), ⟨by decide, rfl⟩,
              by decide, ?_⟩
            · simp only [Message.payload, optionalWord, List.append_assoc]
              rfl
            · simp only [ne_eq, not_true, if_false, spells_u32.bind, spells_hash.bind, run_pure_iff,
                true_and, pure_bind]
              exact ⟨v, _, rfl, root, _, rfl, rfl, rfl⟩
        | some t =>
            refine ⟨c, _, ?_, j, _, rfl, 1, wordBytes t ++ (wordBytes v ++ (root.toList ++ rest)),
              ⟨by decide, rfl⟩, by decide, ?_⟩
            · simp only [Message.payload, optionalWord, List.append_assoc]
              rfl
            · rw [if_pos (by decide), map_eq_pure_bind, bind_assoc]
              simp only [spells_u32.bind, spells_hash.bind, run_pure_iff, true_and, pure_bind]
              exact ⟨t, _, rfl, v, _, rfl, root, _, rfl, rfl, rfl⟩
    | error type reference reason => exact absurd htype (error_ne hlegal (by decide))
    | _ => exact absurd htype (by simp [Message.type])

theorem reads_prevHash : Reads 0x20 := by
  intro b m rest
  change (do
    let c ← Reader.u32
    let j ← Reader.u32
    let h ← Reader.hash
    let t ← Reader.u32
    let n ← Reader.u32
    pure (.prevHash c j h t n) : Reader Message).run b = _ ↔ _
  simp only [spells_u32.bind, spells_hash.bind, run_pure_iff, true_and]
  constructor
  · rintro ⟨c, _, rfl, j, _, rfl, h, _, rfl, t, _, rfl, n, _, rfl, rfl, rfl⟩
    refine ⟨⟨rfl, trivial⟩, ?_⟩
    simp only [Message.payload, List.append_assoc]
  · rintro ⟨⟨htype, hlegal⟩, rfl⟩
    cases m with
    | prevHash c j h t n =>
        refine ⟨c, _, ?_, j, _, rfl, h, _, rfl, t, _, rfl, n, rest, rfl, rfl, rfl⟩
        simp only [Message.payload, List.append_assoc]
    | error type reference reason => exact absurd htype (error_ne hlegal (by decide))
    | _ => exact absurd htype (by simp [Message.type])

theorem reads_target : Reads 0x21 := by
  intro b m rest
  change (do
    let c ← Reader.u32
    pure (.target c (← Reader.targetHash)) : Reader Message).run b = _ ↔ _
  simp only [spells_u32.bind, spells_targetHash.bind, run_pure_iff, true_and]
  constructor
  · rintro ⟨c, _, rfl, t, _, ⟨hne, rfl⟩, rfl, rfl⟩
    refine ⟨⟨rfl, hne⟩, ?_⟩
    simp only [Message.payload, List.append_assoc]
  · rintro ⟨⟨htype, hlegal⟩, rfl⟩
    cases m with
    | target c t =>
        refine ⟨c, _, ?_, t, rest, ⟨hlegal, rfl⟩, rfl, rfl⟩
        simp only [Message.payload, List.append_assoc]
    | error type reference reason => exact absurd htype (error_ne hlegal (by decide))
    | _ => exact absurd htype (by simp [Message.type])

theorem reads_accepted : Reads 0x1c := by
  intro b m rest
  change (do
    let c ← Reader.u32
    let s ← Reader.u32
    let n ← Reader.u32
    pure (.accepted c s n (← Reader.integer 8)) : Reader Message).run b = _ ↔ _
  have hsum : Spells (Reader.integer 8) (leBytes 8) fun word => word.toNat < 256 ^ 8 :=
    spells_integer (by decide)
  simp only [spells_u32.bind, hsum.bind, run_pure_iff, true_and]
  constructor
  · rintro ⟨c, _, rfl, s, _, rfl, n, _, rfl, sum, _, ⟨-, rfl⟩, rfl, rfl⟩
    refine ⟨⟨rfl, trivial⟩, ?_⟩
    simp only [Message.payload, List.append_assoc]
  · rintro ⟨⟨htype, hlegal⟩, rfl⟩
    cases m with
    | accepted c s n sum =>
        refine ⟨c, _, ?_, s, _, rfl, n, _, rfl, sum, rest, ⟨sum.toNat_lt, rfl⟩, rfl, rfl⟩
        simp only [Message.payload, List.append_assoc]
    | error type reference reason => exact absurd htype (error_ne hlegal (by decide))
    | _ => exact absurd htype (by simp [Message.type])

theorem reads_rejected : Reads 0x1d := by
  intro b m rest
  change (do
    let c ← Reader.u32
    let s ← Reader.u32
    pure (.rejected c s (← Reader.string)) : Reader Message).run b = _ ↔ _
  simp only [spells_u32.bind, spells_string.bind, run_pure_iff, true_and]
  constructor
  · rintro ⟨c, _, rfl, s, _, rfl, reason, _, ⟨hstring, rfl⟩, rfl, rfl⟩
    refine ⟨⟨rfl, hstring⟩, ?_⟩
    simp only [Message.payload, List.append_assoc]
  · rintro ⟨⟨htype, hlegal⟩, rfl⟩
    cases m with
    | rejected c s reason =>
        refine ⟨c, _, ?_, s, _, rfl, reason, rest, ⟨hlegal, rfl⟩, rfl, rfl⟩
        simp only [Message.payload, List.append_assoc]
    | error type reference reason => exact absurd htype (error_ne hlegal (by decide))
    | _ => exact absurd htype (by simp [Message.type])

/-- The three types of errors share one layout. -/
theorem reads_error {type : UInt8} (htype : type = 2 ∨ type = 0x12 ∨ type = 0x18) : Reads type := by
  intro b m rest
  have hread : decodePayload type = (do
      let ref ← Reader.u32
      pure (.error type ref (← Reader.string)) : Reader Message) := by
    obtain rfl | rfl | rfl := htype <;> rfl
  rw [hread]
  simp only [spells_u32.bind, spells_string.bind, run_pure_iff, true_and]
  constructor
  · rintro ⟨ref, _, rfl, reason, _, ⟨hstring, rfl⟩, rfl, rfl⟩
    refine ⟨⟨rfl, htype, hstring⟩, ?_⟩
    simp only [Message.payload, List.append_assoc]
  · rintro ⟨⟨hsame, hlegal⟩, rfl⟩
    cases m with
    | error type' ref reason =>
        obtain rfl : type' = type := hsame
        refine ⟨ref, _, ?_, reason, rest, ⟨hlegal.2, rfl⟩, rfl, rfl⟩
        simp only [Message.payload, List.append_assoc]
    | _ => obtain rfl | rfl | rfl := htype <;> exact absurd hsame (by simp [Message.type])

def knownTypes : List UInt8 := [1, 0x11, 0x15, 0x20, 0x21, 0x1c, 0x1d, 2, 0x12, 0x18]

theorem type_mem_known {m : Message} (h : m.WellFormed) : m.type ∈ knownTypes := by
  cases m with
  | error type reference reason =>
      obtain ⟨rfl | rfl | rfl, -⟩ := h <;> simp [Message.type, knownTypes]
  | _ => simp [Message.type, knownTypes]

/-- A type that no message has is not read at all. -/
theorem decodePayload_unknown {type : UInt8} (h : type ∉ knownTypes) (b : Bytes) :
    (decodePayload type).run b =
      .error ("unsupported SV2 message type " ++ toString type.toNat) := by
  have hne (other : UInt8) (hother : other ∈ knownTypes) : type.toNat ≠ other.toNat := by
    intro hsame
    rw [UInt8.toNat_inj.mp hsame] at h
    exact h hother
  unfold decodePayload
  split
  · exact absurd ‹_› (hne 1 (by decide))
  · exact absurd ‹_› (hne 0x11 (by decide))
  · exact absurd ‹_› (hne 0x15 (by decide))
  · exact absurd ‹_› (hne 0x20 (by decide))
  · exact absurd ‹_› (hne 0x21 (by decide))
  · exact absurd ‹_› (hne 0x1c (by decide))
  · exact absurd ‹_› (hne 0x1d (by decide))
  · exact absurd ‹_› (hne 2 (by decide))
  · exact absurd ‹_› (hne 0x12 (by decide))
  · exact absurd ‹_› (hne 0x18 (by decide))
  · rfl

theorem reads_all (type : UInt8) : Reads type := by
  by_cases hknown : type ∈ knownTypes
  · simp only [knownTypes, List.mem_cons, List.not_mem_nil, or_false] at hknown
    obtain rfl | rfl | rfl | rfl | rfl | rfl | rfl | hknown := hknown
    · exact reads_setupSuccess
    · exact reads_openSuccess
    · exact reads_newJob
    · exact reads_prevHash
    · exact reads_target
    · exact reads_accepted
    · exact reads_rejected
    · exact reads_error hknown
  · intro b m rest
    rw [decodePayload_unknown hknown]
    constructor
    · intro h
      cases h
    · rintro ⟨⟨rfl, hlegal⟩, -⟩
      exact absurd (type_mem_known hlegal) hknown

theorem decode_eq_ok {f : Frame} {m : Message} :
    decode f = .ok m ↔ f.extension = extensionOf f.type ∧
      (decodePayload f.type).run f.payload = .ok (m, []) := by
  have hextension : (if (f.type ≥ 0x15 && f.type ≤ 0x24 : Bool) then (0x8000 : UInt16) else 0) =
      extensionOf f.type := by
    unfold extensionOf
    simp
  unfold decode
  dsimp only
  rw [hextension, guard_eq_ok, not_not]
  refine and_congr_right fun _ => ?_
  constructor
  · intro h
    obtain ⟨⟨value, rest⟩, hread, h⟩ := bind_eq_ok.mp h
    obtain ⟨done, hfinish, h⟩ := bind_eq_ok.mp h
    obtain rfl := pure_eq_ok.mp h
    cases rest with
    | nil => exact hread
    | cons byte rest => cases hfinish
  · intro h
    rw [h]
    rfl

/-- What a frame is rejected for, it is rejected for with an exception. -/
private theorem rejects_of_not_ok {f : Frame} (h : ∀ m, decode f ≠ .ok m) :
    ∃ e, decode f = .error e := by
  cases hdecode : decode f with
  | error e => exact ⟨e, rfl⟩
  | ok m => exact absurd hdecode (h m)

theorem decode_iff (f : Frame) (m : Message) :
    decode f = .ok m ↔ f = encode m ∧ m.WellFormed := by
  rw [decode_eq_ok, reads_all f.type, List.append_nil]
  constructor
  · rintro ⟨hextension, ⟨htype, hlegal⟩, hpayload⟩
    refine ⟨?_, hlegal⟩
    rw [encode, htype, ← hextension, ← hpayload]
  · rintro ⟨rfl, hlegal⟩
    exact ⟨rfl, ⟨rfl, hlegal⟩, rfl⟩

/-- No payload is the beginning of another one of its type. -/
theorem payload_append_eq {m m' : Message} {more : Bytes} (hlegal : m.WellFormed)
    (hlegal' : m'.WellFormed) (htype : m'.type = m.type) (h : m'.payload = m.payload ++ more) :
    more = [] := by
  have hread : (decodePayload m.type).run m'.payload = .ok (m', []) :=
    (reads_all m.type _ _ _).mpr ⟨⟨htype, hlegal'⟩, (List.append_nil _).symm⟩
  have hread' : (decodePayload m.type).run m'.payload = .ok (m, more) :=
    (reads_all m.type _ _ _).mpr ⟨⟨rfl, hlegal⟩, h⟩
  rw [hread] at hread'
  cases hread'
  rfl

private theorem flag_of_newJob (job : NewJob) :
    (Message.newJob job).payload[8]? = some 0 ∨ (Message.newJob job).payload[8]? = some 1 := by
  have hlength : (wordBytes job.channel ++ wordBytes job.job).length = 8 := by
    simp [wordBytes]
  simp only [Message.payload, List.append_assoc]
  rw [← List.append_assoc (wordBytes job.channel), List.getElem?_append_right hlength.le, hlength]
  cases job.ntime with
  | none => exact Or.inl rfl
  | some time => exact Or.inr rfl

/-- `decode` accepts exactly the encodings of well-formed messages, returns the
message that was encoded, and no two messages have one encoding. Anything else is
rejected: a frame cut short or continued, a type that no message has, a flag that is
neither 0 nor 1. -/
theorem decode_canonical :
    (∀ f m, decode f = .ok m ↔ f = encode m ∧ m.WellFormed) ∧
      (∀ m m', m.WellFormed → m'.WellFormed → encode m = encode m' → m = m') ∧
      (∀ f, (∀ m, m.WellFormed → f ≠ encode m) → ∃ e, decode f = .error e) ∧
      (∀ f m n, decode f = .ok m → n < f.payload.length →
        ∃ e, decode { f with payload := f.payload.take n } = .error e) ∧
      (∀ f m more, decode f = .ok m → more ≠ [] →
        ∃ e, decode { f with payload := f.payload ++ more } = .error e) ∧
      (∀ f : Frame, f.type ∉ knownTypes → ∃ e, decode f = .error e) ∧
      ∀ f flag, f.type = 0x15 → f.payload[8]? = some flag → flag ≠ 0 → flag ≠ 1 →
        ∃ e, decode f = .error e := by
  refine ⟨decode_iff, ?_, ?_, ?_, ?_, ?_, ?_⟩
  · intro m m' hlegal hlegal' hsame
    have hdecode := (decode_iff (encode m) m).mpr ⟨rfl, hlegal⟩
    rw [(decode_iff (encode m) m').mpr ⟨hsame, hlegal'⟩] at hdecode
    cases hdecode
    rfl
  · intro f hother
    refine rejects_of_not_ok fun m hdecode => ?_
    obtain ⟨hf, hlegal⟩ := (decode_iff f m).mp hdecode
    exact hother m hlegal hf
  · intro f m n hdecode hn
    refine rejects_of_not_ok fun m' hdecode' => ?_
    obtain ⟨rfl, hlegal⟩ := (decode_iff f m).mp hdecode
    obtain ⟨hcut, hlegal'⟩ := (decode_iff _ m').mp hdecode'
    have htype : m.type = m'.type := congrArg Frame.type hcut
    have hpayload : m.payload.take n = m'.payload := congrArg Frame.payload hcut
    have hdrop : m.payload.drop n = [] := by
      refine payload_append_eq hlegal' hlegal htype ?_
      rw [← hpayload, List.take_append_drop]
    have hle := List.drop_eq_nil_iff.mp hdrop
    exact absurd hn (Nat.not_lt.mpr hle)
  · intro f m more hdecode hmore
    refine rejects_of_not_ok fun m' hdecode' => ?_
    obtain ⟨rfl, hlegal⟩ := (decode_iff f m).mp hdecode
    obtain ⟨hlong, hlegal'⟩ := (decode_iff _ m').mp hdecode'
    have htype : m.type = m'.type := congrArg Frame.type hlong
    have hpayload : m.payload ++ more = m'.payload := congrArg Frame.payload hlong
    exact hmore (payload_append_eq hlegal hlegal' htype.symm hpayload.symm)
  · intro f hunknown
    refine rejects_of_not_ok fun m hdecode => ?_
    obtain ⟨rfl, hlegal⟩ := (decode_iff f m).mp hdecode
    exact hunknown (type_mem_known hlegal)
  · intro f flag htype hflag hzero hone
    refine rejects_of_not_ok fun m hdecode => ?_
    obtain ⟨rfl, hlegal⟩ := (decode_iff f m).mp hdecode
    cases m with
    | newJob job =>
        rcases flag_of_newJob job with hset | hset
        · exact hzero (Option.some.inj (hflag.symm.trans hset))
        · exact hone (Option.some.inj (hflag.symm.trans hset))
    | error type reference reason => exact error_ne hlegal (by decide) htype
    | _ => exact absurd htype (by simp [encode, Message.type])

end Supryolo.Sv2
