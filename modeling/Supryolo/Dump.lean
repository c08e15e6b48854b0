import Supryolo.Devices
import Supryolo.Json
import Supryolo.Lib.Utf8

/-!
Model of `serializer` in the vendored `json.hpp`, with the arguments `dump()`
gives it: compact, without an escape for what is not ASCII, and strict about
UTF-8. Characters are bytes.
-/

namespace Supryolo

namespace Json

open Loops Utf8

/-- Types of bytes, then a row of states for each state. -/
def utf8d : List UInt8 :=
  List.replicate 128 0 ++ List.replicate 16 1 ++ List.replicate 16 9 ++ List.replicate 32 7 ++
    List.replicate 2 8 ++ List.replicate 30 2 ++
    [0xa, 0x3, 0x3, 0x3, 0x3, 0x3, 0x3, 0x3, 0x3, 0x3, 0x3, 0x3, 0x3, 0x4, 0x3, 0x3] ++
    [0xb, 0x6, 0x6, 0x6, 0x5, 0x8, 0x8, 0x8, 0x8, 0x8, 0x8, 0x8, 0x8, 0x8, 0x8, 0x8] ++
    [0x0, 0x1, 0x2, 0x3, 0x5, 0x8, 0x7, 0x1, 0x1, 0x1, 0x4, 0x6, 0x1, 0x1, 0x1, 0x1] ++
    [1, 1, 1, 1, 1, 1, 1, 1, 1, 1, 1, 1, 1, 1, 1, 1] ++
    [1, 0, 1, 1, 1, 1, 1, 0, 1, 0, 1, 1, 1, 1, 1, 1] ++
    [1, 2, 1, 1, 1, 1, 1, 2, 1, 2, 1, 1, 1, 1, 1, 1] ++
    [1, 1, 1, 1, 1, 1, 1, 2, 1, 1, 1, 1, 1, 1, 1, 1] ++
    [1, 2, 1, 1, 1, 1, 1, 1, 1, 2, 1, 1, 1, 1, 1, 1] ++
    [1, 1, 1, 1, 1, 1, 1, 3, 1, 3, 1, 1, 1, 1, 1, 1] ++
    [1, 3, 1, 1, 1, 1, 1, 3, 1, 3, 1, 1, 1, 1, 1, 1] ++
    [1, 3, 1, 1, 1, 1, 1, 1, 1, 1, 1, 1, 1, 1, 1, 1]

/-- State 0 accepts and state 1 rejects. -/
def decode (state : UInt8) (codep : UInt32) (byte : UInt8) : UInt8 × UInt32 :=
  let type := utf8d.getD byte.toNat 0
  let codep :=
    if state ≠ 0 then (byte.toUInt32 &&& (0x3f : UInt32)) ||| (codep <<< (6 : UInt32))
    else ((0xff : UInt32) >>> type.toUInt32) &&& byte.toUInt32
  (utf8d.getD (256 + state.toNat * 16 + type.toNat) 0, codep)

def hexBytes (byte : UInt8) : String :=
  let nibbleToHex := "0123456789ABCDEF".toList
  String.ofList [nibbleToHex.getD (byte / 16).toNat 'F', nibbleToHex.getD (byte % 16).toNat 'F']

/-- What is written where a code point ends with the byte `c`. -/
def escape (codep : UInt32) (c : Char) : Text :=
  if codep = 0x08 then "\\b".toList
  else if codep = 0x09 then "\\t".toList
  else if codep = 0x0a then "\\n".toList
  else if codep = 0x0c then "\\f".toList
  else if codep = 0x0d then "\\r".toList
  else if codep = 0x22 then "\\\"".toList
  else if codep = 0x5c then "\\\\".toList
  else if codep ≤ 0x1f then "\\u".toList ++ Devices.hexPadded 4 codep.toNat
  else [c]

/-- The loop from byte `i` on, with the state it ends in. -/
def dumpBytes (state : UInt8) (codep : UInt32) (i : Nat) : Text → Except String (Text × UInt8)
  | [] => pure ([], state)
  | c :: rest => do
      let byte := c.toNat.toUInt8
      let next := decode state codep byte
      if next.1 = 1 then
        throw ("[json.exception.type_error.316] invalid UTF-8 byte at index " ++ toString i ++
          ": 0x" ++ hexBytes byte)
      let (more, last) ← dumpBytes next.1 next.2 (i + 1) rest
      pure ((if next.1 = 0 then escape next.2 c else [c]) ++ more, last)

def dumpEscaped (s : Text) : Except String Text := do
  let (out, state) ← dumpBytes 0 0 0 s
  if state ≠ 0 then
    throw ("[json.exception.type_error.316] incomplete UTF-8 string; last byte: 0x" ++
      hexBytes ((s.getLast?.map fun c => c.toNat.toUInt8).getD 0))
  pure out

mutual

/-- The members of an object stand in the order of their keys. -/
def dump : Json → Except String Text
  | .null => pure "null".toList
  | .boolean value => pure (if value then "true" else "false").toList
  | .integer value => pure (toString value).toList
  | .float text _ => pure text
  | .string value => do
      let text ← dumpEscaped value
      pure ('"' :: text ++ ['"'])
  | .array items => do
      let text ← dumpItems items
      pure ('[' :: text ++ [']'])
  | .object members => do
      let text ← dumpMembers members
      pure ('{' :: text ++ ['}'])

def dumpItems : List Json → Except String Text
  | [] => pure []
  | item :: rest => do
      let text ← dump item
      let more ← dumpItems rest
      pure (text ++ (if rest.isEmpty then [] else [',']) ++ more)

def dumpMembers : List (Text × Json) → Except String Text
  | [] => pure []
  | (key, value) :: rest => do
      let name ← dumpEscaped key
      let text ← dump value
      let more ← dumpMembers rest
      pure ('"' :: name ++ '"' :: ':' :: text ++ (if rest.isEmpty then [] else [',']) ++ more)

end

private theorem forall_byte {P : UInt8 → Prop} (h : ∀ n : Fin 256, P (UInt8.ofNat n.val)) (b : UInt8) :
    P b := by
  have hb := h ⟨b.toNat, b.toNat_lt⟩
  rwa [UInt8.ofNat_toNat] at hb

/-- The state after the first byte of a sequence. -/
def lead (b : UInt8) : UInt8 :=
  if b.toNat < 0x80 then 0
  else if b.toNat < 0xc2 then 1
  else if b.toNat < 0xe0 then 2
  else if b.toNat = 0xe0 then 4
  else if b.toNat = 0xed then 5
  else if b.toNat < 0xf0 then 3
  else if b.toNat = 0xf0 then 6
  else if b.toNat < 0xf4 then 7
  else if b.toNat = 0xf4 then 8
  else 1

/-- The bits it gives the code point. -/
def leadBits (b : UInt8) : Nat :=
  if b.toNat < 0x80 then b.toNat
  else if b.toNat < 0xe0 then b.toNat % 32
  else if b.toNat < 0xf0 then b.toNat % 16
  else b.toNat % 8

theorem decode_lead (codep : UInt32) (b : UInt8) : (decode 0 codep b).1 = lead b ∧
    (lead b ≠ 1 → (decode 0 codep b).2.toNat = leadBits b) := by
  have hall : ∀ n : Fin 256, (decode 0 0 (UInt8.ofNat n.val)).1 = lead (UInt8.ofNat n.val) ∧
      (lead (UInt8.ofNat n.val) ≠ 1 →
        (decode 0 0 (UInt8.ofNat n.val)).2.toNat = leadBits (UInt8.ofNat n.val)) := by
    decide +kernel
  have hstart : decode 0 codep b = decode 0 0 b := rfl
  rw [hstart]
  exact forall_byte (P := fun b => (decode 0 0 b).1 = lead b ∧
    (lead b ≠ 1 → (decode 0 0 b).2.toNat = leadBits b)) hall b

/-- The state after a byte within a sequence. -/
def follow (state : UInt8) (b : UInt8) : UInt8 :=
  if b.toNat < 0x80 ∨ 0xc0 ≤ b.toNat then 1
  else if state = 2 then 0
  else if state = 3 then 2
  else if state = 4 then if 0xa0 ≤ b.toNat then 2 else 1
  else if state = 5 then if b.toNat < 0xa0 then 2 else 1
  else if state = 6 then if 0x90 ≤ b.toNat then 3 else 1
  else if state = 7 then 3
  else if state = 8 then if b.toNat < 0x90 then 3 else 1
  else 1

theorem decode_follow (codep : UInt32) {state : UInt8} (b : UInt8)
    (hstate : 2 ≤ state.toNat ∧ state.toNat ≤ 8) (hroom : codep.toNat < 2 ^ 26) :
    (decode state codep b).1 = follow state b ∧
      (decode state codep b).2.toNat = codep.toNat * 64 + b.toNat % 64 := by
  constructor
  · have hall : ∀ (s : Fin 9) (n : Fin 256), 2 ≤ s.val →
        (decode (UInt8.ofNat s.val) 0 (UInt8.ofNat n.val)).1 =
          follow (UInt8.ofNat s.val) (UInt8.ofNat n.val) := by
      decide +kernel
    have hs := hall ⟨state.toNat, by omega⟩
    rw [UInt8.ofNat_toNat] at hs
    exact forall_byte (P := fun b => (decode state 0 b).1 = follow state b) (fun n => hs n hstate.1) b
  · have hne : state ≠ 0 := by
      rintro rfl
      exact absurd hstate.1 (by decide)
    have hlow : (b.toUInt32 &&& 0x3f).toNat = b.toNat % 64 := by
      rw [UInt32.toNat_and, UInt8.toNat_toUInt32]
      exact Nat.and_two_pow_sub_one_eq_mod _ 6
    have hhigh : (codep <<< 6).toNat = codep.toNat <<< 6 := by
      rw [UInt32.toNat_shiftLeft]
      change codep.toNat <<< 6 % 2 ^ 32 = codep.toNat <<< 6
      apply Nat.mod_eq_of_lt
      rw [Nat.shiftLeft_eq]
      omega
    simp only [decode, if_pos hne, UInt32.toNat_or, hlow, hhigh]
    rw [Nat.or_comm, ← Nat.shiftLeft_add_eq_or_of_lt (Nat.mod_lt _ (by decide)), Nat.shiftLeft_eq]

/-- A loop that reaches the end between two characters. -/
inductive Dumps : UInt8 → UInt32 → Text → Text → Prop
  | nil (codep : UInt32) : Dumps 0 codep [] []
  | cons {state : UInt8} {codep : UInt32} {c : Char} {rest more : Text}
      (hstate : (decode state codep c.toNat.toUInt8).1 ≠ 1)
      (hrest : Dumps (decode state codep c.toNat.toUInt8).1 (decode state codep c.toNat.toUInt8).2
        rest more) :
      Dumps state codep (c :: rest) ((if (decode state codep c.toNat.toUInt8).1 = 0 then
        escape (decode state codep c.toNat.toUInt8).2 c else [c]) ++ more)

theorem dumpBytes_eq_ok {state : UInt8} {codep : UInt32} {i : Nat} {s out : Text} :
    dumpBytes state codep i s = .ok (out, 0) ↔ Dumps state codep s out := by
  induction s generalizing state codep i out with
  | nil =>
      constructor
      · intro h
        obtain ⟨rfl, rfl⟩ := Prod.mk.inj (pure_eq_ok.mp h)
        exact .nil codep
      · intro h
        cases h
        rfl
  | cons c rest ih =>
      constructor
      · intro h
        obtain ⟨hstate, h⟩ := guard_eq_ok.mp h
        obtain ⟨⟨more, last⟩, hrest, h⟩ := bind_eq_ok.mp h
        obtain ⟨rfl, rfl⟩ := Prod.mk.inj (pure_eq_ok.mp h)
        exact .cons hstate (ih.mp hrest)
      · intro h
        cases h with
        | cons hstate hrest =>
            exact guard_eq_ok.mpr ⟨hstate, bind_eq_ok.mpr ⟨(_, 0), ih.mpr hrest, rfl⟩⟩

theorem dumpEscaped_eq_ok {s out : Text} : dumpEscaped s = .ok out ↔ Dumps 0 0 s out := by
  rw [dumpEscaped, bind_eq_ok, ← dumpBytes_eq_ok (i := 0)]
  constructor
  · rintro ⟨⟨text, state⟩, htext, h⟩
    obtain ⟨hstate, h⟩ := guard_eq_ok.mp h
    obtain rfl := pure_eq_ok.mp h
    rw [htext, not_not.mp hstate]
  · intro h
    exact ⟨(out, 0), h, rfl⟩

/-- Between characters the code point does not matter. -/
theorem Dumps.between {codep codep' : UInt32} {s out : Text} (h : Dumps 0 codep s out) :
    Dumps 0 codep' s out := by
  cases h with
  | nil => exact .nil codep'
  | cons hstate hrest => exact @Dumps.cons 0 codep' _ _ _ hstate hrest

/-- The bytes of a character as characters. -/
def chars (bytes : List UInt8) : Text := bytes.map fun byte => Char.ofNat byte.toNat

/-- What a character is written as. -/
def escapeChar (c : Char) : Text :=
  if c.toNat < 0x80 then escape c.val c else chars (String.utf8EncodeChar c)

theorem escape_wide {codep : UInt32} (c : Char) (h : 0x80 ≤ codep.toNat) : escape codep c = [c] := by
  have hne {n : UInt32} (hn : n.toNat < 0x80) : codep ≠ n := by
    rintro rfl
    omega
  have hlarge : ¬ codep ≤ 0x1f := by
    rw [UInt32.le_iff_toNat_le]
    change ¬ codep.toNat ≤ 31
    omega
  unfold escape
  rw [if_neg (hne (by decide)), if_neg (hne (by decide)), if_neg (hne (by decide)),
    if_neg (hne (by decide)), if_neg (hne (by decide)), if_neg (hne (by decide)),
    if_neg (hne (by decide)), if_neg hlarge]

theorem toUInt8_ofNat (byte : UInt8) : (Char.ofNat byte.toNat).toNat.toUInt8 = byte := by
  rw [toNat_ofNat (Or.inl (byte.toNat_lt.trans (by decide)))]
  exact UInt8.ofNat_toNat

theorem lead_eq_one (a : UInt8) :
    lead a = 1 ↔ (0x80 ≤ a.toNat ∧ a.toNat < 0xc2) ∨ 0xf5 ≤ a.toNat :=
  forall_byte (P := fun a => lead a = 1 ↔ (0x80 ≤ a.toNat ∧ a.toNat < 0xc2) ∨ 0xf5 ≤ a.toNat)
    (by decide +kernel) a

theorem lead_narrow (a : UInt8) : (lead a = 0 ↔ a.toNat < 0x80) ∧
    (lead a = 2 ↔ 0xc2 ≤ a.toNat ∧ a.toNat < 0xe0) :=
  forall_byte (P := fun a => (lead a = 0 ↔ a.toNat < 0x80) ∧
    (lead a = 2 ↔ 0xc2 ≤ a.toNat ∧ a.toNat < 0xe0)) (by decide +kernel) a

theorem lead_three (a : UInt8) (h : 0xe0 ≤ a.toNat ∧ a.toNat < 0xf0) : lead a ∈ [3, 4, 5] ∧
    (lead a = 4 ↔ a.toNat = 0xe0) ∧ (lead a = 5 ↔ a.toNat = 0xed) :=
  forall_byte (P := fun a => 0xe0 ≤ a.toNat ∧ a.toNat < 0xf0 → lead a ∈ [3, 4, 5] ∧
    (lead a = 4 ↔ a.toNat = 0xe0) ∧ (lead a = 5 ↔ a.toNat = 0xed)) (by decide +kernel) a h

theorem lead_four (a : UInt8) (h : 0xf0 ≤ a.toNat ∧ a.toNat < 0xf5) : lead a ∈ [6, 7, 8] ∧
    (lead a = 6 ↔ a.toNat = 0xf0) ∧ (lead a = 8 ↔ a.toNat = 0xf4) :=
  forall_byte (P := fun a => 0xf0 ≤ a.toNat ∧ a.toNat < 0xf5 → lead a ∈ [6, 7, 8] ∧
    (lead a = 6 ↔ a.toNat = 0xf0) ∧ (lead a = 8 ↔ a.toNat = 0xf4)) (by decide +kernel) a h

theorem follow_two (b : UInt8) : follow 2 b = if Follows b then 0 else 1 :=
  forall_byte (P := fun b => follow 2 b = if Follows b then 0 else 1) (by decide +kernel) b

theorem follow_three {state : UInt8} (hstate : state ∈ [3, 4, 5]) (b : UInt8) : follow state b =
    if Follows b ∧ (state = 4 → 0xa0 ≤ b.toNat) ∧ (state = 5 → b.toNat < 0xa0) then 2 else 1 :=
  forall_byte (P := fun b => ∀ state ∈ [3, 4, 5], follow state b =
    if Follows b ∧ (state = 4 → 0xa0 ≤ b.toNat) ∧ (state = 5 → b.toNat < 0xa0) then 2 else 1)
    (by decide +kernel) b state hstate

theorem follow_four {state : UInt8} (hstate : state ∈ [6, 7, 8]) (b : UInt8) : follow state b =
    if Follows b ∧ (state = 6 → 0x90 ≤ b.toNat) ∧ (state = 8 → b.toNat < 0x90) then 3 else 1 :=
  forall_byte (P := fun b => ∀ state ∈ [6, 7, 8], follow state b =
    if Follows b ∧ (state = 6 → 0x90 ≤ b.toNat) ∧ (state = 8 → b.toNat < 0x90) then 3 else 1)
    (by decide +kernel) b state hstate

/-- A byte within a sequence is written as it is: the code point is no longer
one that is escaped. -/
theorem dumps_within {state : UInt8} {codep : UInt32} {b : UInt8} {rest out : Text}
    (hstate : 2 ≤ state.toNat ∧ state.toNat ≤ 8) (hroom : codep.toNat < 2 ^ 26)
    (hwide : state = 2 → 2 ≤ codep.toNat) :
    Dumps state codep (Char.ofNat b.toNat :: rest) out ↔ follow state b ≠ 1 ∧
      ∃ codep' more, codep'.toNat = codep.toNat * 64 + b.toNat % 64 ∧
        Dumps (follow state b) codep' rest more ∧ out = Char.ofNat b.toNat :: more := by
  obtain ⟨hnext, hcodep⟩ := decode_follow codep b hstate hroom
  have hzero (h : follow state b = 0) : state = 2 := by
    unfold follow at h
    split_ifs at h <;> first | assumption | exact absurd h (by decide)
  have hwritten : (if follow state b = 0 then escape (decode state codep b).2 (Char.ofNat b.toNat)
      else [Char.ofNat b.toNat]) = [Char.ofNat b.toNat] := by
    split_ifs with h
    · have := hwide (hzero h)
      exact escape_wide _ (by omega)
    · rfl
  constructor
  · intro h
    generalize hc : Char.ofNat b.toNat = c at h
    cases h with
    | cons hone hrest =>
        rw [← hc, toUInt8_ofNat, hnext] at hone hrest ⊢
        exact ⟨hone, _, _, hcodep, hrest, by rw [hwritten]; rfl⟩
  · rintro ⟨hone, codep', more, hvalue, hrest, rfl⟩
    obtain rfl : (decode state codep b).2 = codep' := UInt32.toNat_inj.mp (hcodep.trans hvalue.symm)
    have hcons := @Dumps.cons state codep (Char.ofNat b.toNat) rest more
    rw [toUInt8_ofNat, hnext, hwritten] at hcons
    exact hcons hone hrest

theorem dumps_first {codep : UInt32} {b : UInt8} {rest out : Text} :
    Dumps 0 codep (Char.ofNat b.toNat :: rest) out ↔ lead b ≠ 1 ∧
      ∃ codep' more, codep'.toNat = leadBits b ∧ Dumps (lead b) codep' rest more ∧
        out = (if lead b = 0 then escape codep' (Char.ofNat b.toNat) else [Char.ofNat b.toNat]) ++
          more := by
  obtain ⟨hnext, hcodep⟩ := decode_lead codep b
  constructor
  · intro h
    generalize hc : Char.ofNat b.toNat = c at h
    cases h with
    | cons hone hrest =>
        rw [← hc, toUInt8_ofNat, hnext] at hone hrest ⊢
        exact ⟨hone, _, _, hcodep hone, hrest, rfl⟩
  · rintro ⟨hone, codep', more, hvalue, hrest, rfl⟩
    obtain rfl : (decode 0 codep b).2 = codep' :=
      UInt32.toNat_inj.mp ((hcodep hone).trans hvalue.symm)
    have hcons := @Dumps.cons 0 codep (Char.ofNat b.toNat) rest more
    rw [toUInt8_ofNat, hnext] at hcons
    exact hcons hone hrest

theorem Dumps.first {codep : UInt32} {b : UInt8} {rest more : Text} (hlead : 2 ≤ (lead b).toNat)
    (hrest : ∀ codep' : UInt32, codep'.toNat = leadBits b → Dumps (lead b) codep' rest more) :
    Dumps 0 codep (Char.ofNat b.toNat :: rest) (Char.ofNat b.toNat :: more) := by
  have hne {n : UInt8} (hn : n.toNat < 2) : lead b ≠ n := by
    rintro rfl
    omega
  have hvalue : (UInt32.ofNat (leadBits b)).toNat = leadBits b := by
    rw [UInt32.toNat_ofNat']
    apply Nat.mod_eq_of_lt
    have := b.toNat_lt
    unfold leadBits
    split_ifs <;> omega
  refine dumps_first.mpr ⟨hne (by decide), _, _, hvalue, hrest _ hvalue, ?_⟩
  rw [if_neg (hne (by decide))]
  rfl

theorem Dumps.next {state next : UInt8} {codep : UInt32} {b : UInt8} {rest more : Text}
    (hstate : 2 ≤ state.toNat ∧ state.toNat ≤ 8) (hroom : codep.toNat < 2 ^ 26)
    (hwide : state = 2 → 2 ≤ codep.toNat) (hfollow : follow state b = next) (hnext : next ≠ 1)
    (hrest : ∀ codep' : UInt32, codep'.toNat = codep.toNat * 64 + b.toNat % 64 →
      Dumps next codep' rest more) :
    Dumps state codep (Char.ofNat b.toNat :: rest) (Char.ofNat b.toNat :: more) := by
  have hvalue : (UInt32.ofNat (codep.toNat * 64 + b.toNat % 64)).toNat =
      codep.toNat * 64 + b.toNat % 64 := by
    rw [UInt32.toNat_ofNat']
    apply Nat.mod_eq_of_lt
    omega
  subst hfollow
  exact (dumps_within hstate hroom hwide).mpr ⟨hnext, _, more, hvalue, hrest _ hvalue, rfl⟩

private theorem bounds_of_mem {state : UInt8} (h : state ∈ [3, 4, 5] ∨ state ∈ [6, 7, 8]) :
    2 ≤ state.toNat ∧ state.toNat ≤ 8 ∧ state ≠ 2 := by
  simp only [List.mem_cons, List.not_mem_nil, or_false] at h
  rcases h with (rfl | rfl | rfl) | (rfl | rfl | rfl) <;> decide

theorem Dumps.char (c : Char) {codep : UInt32} {rest more : Text} (h : Dumps 0 0 rest more) :
    Dumps 0 codep (chars (String.utf8EncodeChar c) ++ rest) (escapeChar c ++ more) := by
  have hspelling := spelling_encode c
  unfold escapeChar
  generalize hbytes : String.utf8EncodeChar c = bytes at hspelling
  generalize hn : c.toNat = n at hspelling
  cases hspelling with
  | @one a ha =>
      have hzero : lead a = 0 := (lead_narrow a).1.mpr ha
      have hc : Char.ofNat a.toNat = c := by rw [← hn, Char.ofNat_toNat]
      have hvalue : c.val.toNat = leadBits a := hn.trans (by rw [leadBits, if_pos ha])
      rw [if_pos ha]
      refine dumps_first.mpr ⟨by rw [hzero]; decide, c.val, more, hvalue, ?_, ?_⟩
      · rw [hzero]
        exact h.between
      · rw [if_pos hzero, hc]
  | @two a b ha hb =>
      have htwo : lead a = 2 := (lead_narrow a).2.mpr ha
      have hbits : leadBits a = a.toNat % 32 := by
        rw [leadBits, if_neg (by omega), if_pos ha.2]
      have hb' := hb
      unfold Follows at hb'
      rw [if_neg (by omega)]
      refine .first (by rw [htwo]; decide) fun codep hcodep => ?_
      rw [htwo]
      exact .next (by decide) (by omega) (by omega) ((follow_two b).trans (if_pos hb)) (by decide)
        fun codep _ => h.between
  | @three a b c ha hb hlong hsurrogate hc =>
      obtain ⟨hlead, hfour, hfive⟩ := lead_three a ha
      obtain ⟨hlow, hhigh, hne⟩ := bounds_of_mem (Or.inl hlead)
      have hbits : leadBits a = a.toNat % 16 := by
        rw [leadBits, if_neg (by omega), if_neg (by omega), if_pos ha.2]
      have hb' := hb
      unfold Follows at hb'
      rw [if_neg (by omega)]
      refine .first hlow fun codep hcodep => ?_
      refine .next ⟨hlow, hhigh⟩ (by omega) (fun h => absurd h hne) ((follow_three hlead b).trans
        (if_pos ⟨hb, fun h => hlong (hfour.mp h), fun h => hsurrogate (hfive.mp h)⟩)) (by decide)
        fun codep hcodep => ?_
      exact .next (by decide) (by omega) (by omega) ((follow_two c).trans (if_pos hc)) (by decide)
        fun codep _ => h.between
  | @four a b c d ha hb hlong hlast hc hd =>
      obtain ⟨hlead, hsix, height⟩ := lead_four a ha
      obtain ⟨hlow, hhigh, hne⟩ := bounds_of_mem (Or.inr hlead)
      have hbits : leadBits a = a.toNat % 8 := by
        rw [leadBits, if_neg (by omega), if_neg (by omega), if_neg (by omega)]
      have hb' := hb
      unfold Follows at hb'
      rw [if_neg (by omega)]
      refine .first hlow fun codep hcodep => ?_
      refine .next ⟨hlow, hhigh⟩ (by omega) (fun h => absurd h hne) ((follow_four hlead b).trans
        (if_pos ⟨hb, fun h => hlong (hsix.mp h), fun h => hlast (height.mp h)⟩)) (by decide)
        fun codep hcodep => ?_
      refine .next (by decide) (by omega) (fun h => absurd h (by decide)) ((follow_three (by decide) c).trans
        (if_pos ⟨hc, fun h => absurd h (by decide), fun h => absurd h (by decide)⟩)) (by decide)
        fun codep hcodep => ?_
      exact .next (by decide) (by omega) (by omega) ((follow_two d).trans (if_pos hd)) (by decide)
        fun codep _ => h.between

theorem ofNat_toUInt8 {c : Char} (h : c.toNat < 256) : Char.ofNat c.toNat.toUInt8.toNat = c := by
  have hvalue : c.toNat.toUInt8.toNat = c.toNat := by
    rw [Nat.toUInt8, UInt8.toNat_ofNat']
    exact Nat.mod_eq_of_lt h
  rw [hvalue, Char.ofNat_toNat]

/-- Within a sequence there is another byte, and it goes on with it. -/
theorem Dumps.step {state : UInt8} {codep : UInt32} {s out : Text} (h : Dumps state codep s out)
    (hstate : 2 ≤ state.toNat ∧ state.toNat ≤ 8) (hroom : codep.toNat < 2 ^ 26)
    (hwide : state = 2 → 2 ≤ codep.toNat) (hs : ∀ c ∈ s, c.toNat < 256) :
    ∃ (b : UInt8) (rest more : Text) (codep' : UInt32), s = Char.ofNat b.toNat :: rest ∧
      out = Char.ofNat b.toNat :: more ∧ (∀ c ∈ rest, c.toNat < 256) ∧
      codep'.toNat = codep.toNat * 64 + b.toNat % 64 ∧ follow state b ≠ 1 ∧
      Dumps (follow state b) codep' rest more := by
  cases s with
  | nil =>
      cases h
      exact absurd hstate.1 (by decide)
  | cons c rest =>
      have hc := ofNat_toUInt8 (hs c List.mem_cons_self)
      rw [← hc] at h
      obtain ⟨hone, codep', more, hcodep', hrest, rfl⟩ := (dumps_within hstate hroom hwide).mp h
      exact ⟨_, rest, more, codep', by rw [hc], rfl, fun x hx => hs x (List.mem_cons_of_mem _ hx),
        hcodep', hone, hrest⟩

/-- The last byte. -/
theorem Dumps.last {codep : UInt32} {s out : Text} (h : Dumps 2 codep s out)
    (hcodep : 2 ≤ codep.toNat ∧ codep.toNat < 2 ^ 26) (hs : ∀ c ∈ s, c.toNat < 256) :
    ∃ (b : UInt8) (rest more : Text), s = Char.ofNat b.toNat :: rest ∧
      out = Char.ofNat b.toNat :: more ∧ Follows b ∧ Dumps 0 0 rest more := by
  obtain ⟨b, rest, more, codep', rfl, rfl, -, -, hone, hrest⟩ :=
    h.step (by decide) hcodep.2 (fun _ => hcodep.1) hs
  rw [follow_two] at hone hrest
  split_ifs at hone hrest with hb
  · exact ⟨b, rest, more, rfl, rfl, hb, hrest.between⟩
  · exact absurd rfl hone

/-- The last two bytes. -/
theorem Dumps.lastTwo {state : UInt8} {codep : UInt32} {s out : Text} (h : Dumps state codep s out)
    (hstate : state ∈ [3, 4, 5]) (hcodep : codep.toNat < 2 ^ 20) (hwide : state ≠ 4 → 1 ≤ codep.toNat)
    (hs : ∀ c ∈ s, c.toNat < 256) :
    ∃ (b c : UInt8) (rest more : Text), s = Char.ofNat b.toNat :: Char.ofNat c.toNat :: rest ∧
      out = Char.ofNat b.toNat :: Char.ofNat c.toNat :: more ∧ Follows b ∧ Follows c ∧
      (state = 4 → 0xa0 ≤ b.toNat) ∧ (state = 5 → b.toNat < 0xa0) ∧ Dumps 0 0 rest more := by
  obtain ⟨hlow, hhigh, hne⟩ := bounds_of_mem (Or.inl hstate)
  obtain ⟨b, rest, more, codep', rfl, rfl, hrest', hvalue, hone, hrest⟩ :=
    h.step ⟨hlow, hhigh⟩ (by omega) (fun h => absurd h hne) hs
  rw [follow_three hstate] at hone hrest
  split_ifs at hone hrest with hb
  · obtain ⟨hfollows, hlong, hsurrogate⟩ := hb
    have hbits : 2 ≤ codep'.toNat := by
      unfold Follows at hfollows
      by_cases hfour : state = 4
      · have := hlong hfour
        omega
      · have := hwide hfour
        omega
    obtain ⟨c, rest, more, rfl, rfl, hc, hrest⟩ := hrest.last ⟨hbits, by omega⟩ hrest'
    exact ⟨b, c, rest, more, rfl, rfl, hfollows, hc, hlong, hsurrogate, hrest⟩
  · exact absurd rfl hone

private theorem spelled {bytes : List UInt8} {n : Nat} {rest more : Text} (h : Spelling bytes n)
    (hwide : 0x80 ≤ n) (hrest : Dumps 0 0 rest more) :
    ∃ c rest' more', chars bytes ++ rest = chars (String.utf8EncodeChar c) ++ rest' ∧
      Dumps 0 0 rest' more' ∧ chars bytes ++ more = escapeChar c ++ more' := by
  refine ⟨Char.ofNat n, rest, more, by rw [h.encode], hrest, ?_⟩
  rw [escapeChar, toNat_ofNat h.valid, if_neg (by omega), h.encode]

section

variable {codep : UInt32} {a : UInt8} {s more : Text}

private theorem take_two (h : Dumps (lead a) codep s more)
    (ha : 0xc2 ≤ a.toNat ∧ a.toNat < 0xe0) (hcodep : codep.toNat = leadBits a)
    (hs : ∀ c ∈ s, c.toNat < 256) : ∃ c rest more',
      Char.ofNat a.toNat :: s = chars (String.utf8EncodeChar c) ++ rest ∧ Dumps 0 0 rest more' ∧
        Char.ofNat a.toNat :: more = escapeChar c ++ more' := by
  rw [leadBits, if_neg (by omega), if_pos ha.2] at hcodep
  rw [(lead_narrow a).2.mpr ha] at h
  obtain ⟨b, rest, more, rfl, rfl, hb, hrest⟩ := h.last (by omega) hs
  have hb' := hb
  unfold Follows at hb'
  exact spelled (.two ha hb) (by omega) hrest

private theorem take_three (h : Dumps (lead a) codep s more)
    (ha : 0xe0 ≤ a.toNat ∧ a.toNat < 0xf0) (hcodep : codep.toNat = leadBits a)
    (hs : ∀ c ∈ s, c.toNat < 256) : ∃ c rest more',
      Char.ofNat a.toNat :: s = chars (String.utf8EncodeChar c) ++ rest ∧ Dumps 0 0 rest more' ∧
        Char.ofNat a.toNat :: more = escapeChar c ++ more' := by
  obtain ⟨hlead, hfour, hfive⟩ := lead_three a ha
  rw [leadBits, if_neg (by omega), if_neg (by omega), if_pos ha.2] at hcodep
  have hwide (hne : lead a ≠ 4) : 1 ≤ codep.toNat := by
    rw [Ne, hfour] at hne
    omega
  obtain ⟨b, c, rest, more, rfl, rfl, hb, hc, hlong, hsurrogate, hrest⟩ :=
    h.lastTwo hlead (by omega) hwide hs
  rw [hfour] at hlong
  rw [hfive] at hsurrogate
  have hb' := hb
  unfold Follows at hb'
  exact spelled (.three ha hb hlong hsurrogate hc) (by omega) hrest

private theorem take_four (h : Dumps (lead a) codep s more)
    (ha : 0xf0 ≤ a.toNat ∧ a.toNat < 0xf5) (hcodep : codep.toNat = leadBits a)
    (hs : ∀ c ∈ s, c.toNat < 256) : ∃ c rest more',
      Char.ofNat a.toNat :: s = chars (String.utf8EncodeChar c) ++ rest ∧ Dumps 0 0 rest more' ∧
        Char.ofNat a.toNat :: more = escapeChar c ++ more' := by
  obtain ⟨hlead, hsix, height⟩ := lead_four a ha
  obtain ⟨hlow, hhigh, hne⟩ := bounds_of_mem (Or.inr hlead)
  rw [leadBits, if_neg (by omega), if_neg (by omega), if_neg (by omega)] at hcodep
  obtain ⟨b, s, more, codep', rfl, rfl, hs', hvalue, hthird, hrest⟩ :=
    h.step ⟨hlow, hhigh⟩ (by omega) (fun h => absurd h hne) hs
  rw [follow_four hlead] at hthird hrest
  split_ifs at hthird hrest with hb
  · obtain ⟨hb, hlong, hlast⟩ := hb
    rw [hsix] at hlong
    rw [height] at hlast
    have hb' := hb
    unfold Follows at hb'
    obtain ⟨c, d, rest, more, rfl, rfl, hc, hd, -, -, hrest⟩ :=
      hrest.lastTwo (by decide) (by omega) (by omega) hs'
    exact spelled (.four ha hb hlong hlast hc hd) (by omega) hrest
  · exact absurd rfl hthird

end

theorem Dumps.take {codep : UInt32} {a : UInt8} {s out : Text}
    (h : Dumps 0 codep (Char.ofNat a.toNat :: s) out) (hs : ∀ c ∈ s, c.toNat < 256) :
    ∃ c rest more, Char.ofNat a.toNat :: s = chars (String.utf8EncodeChar c) ++ rest ∧
      Dumps 0 0 rest more ∧ out = escapeChar c ++ more := by
  obtain ⟨hone, codep, more, hcodep, hrest, rfl⟩ := dumps_first.mp h
  rw [Ne, lead_eq_one] at hone
  by_cases hascii : a.toNat < 0x80
  · have hzero : lead a = 0 := (lead_narrow a).1.mpr hascii
    rw [leadBits, if_pos hascii] at hcodep
    rw [hzero] at hrest
    have hspelling := Spelling.one hascii
    have hval : (Char.ofNat a.toNat).val = codep :=
      UInt32.toNat_inj.mp ((toNat_ofNat hspelling.valid).trans hcodep.symm)
    refine ⟨Char.ofNat a.toNat, s, more, by rw [hspelling.encode]; rfl, hrest.between, ?_⟩
    rw [if_pos hzero, escapeChar, toNat_ofNat hspelling.valid, if_pos hascii, hval]
  -- A first byte of several is written as it is.
  rw [if_neg fun hzero => hascii ((lead_narrow a).1.mp hzero)]
  by_cases htwo : a.toNat < 0xe0
  · exact take_two hrest ⟨by omega, htwo⟩ hcodep hs
  by_cases hthree : a.toNat < 0xf0
  · exact take_three hrest ⟨by omega, hthree⟩ hcodep hs
  · exact take_four hrest ⟨by omega, by omega⟩ hcodep hs

/-- A text that is well-formed UTF-8. -/
def IsUtf8 (s : Text) : Prop := ∃ cs, s = chars (encode cs)

theorem chars_append (first second : List UInt8) : chars (first ++ second) = chars first ++ chars second :=
  List.map_append

theorem dumps_chars (cs : List Char) (codep : UInt32) :
    Dumps 0 codep (chars (encode cs)) (cs.flatMap escapeChar) := by
  induction cs generalizing codep with
  | nil => exact .nil codep
  | cons c rest ih =>
      rw [encode_cons, chars_append, List.flatMap_cons]
      exact .char c (ih 0)

theorem Dumps.spells {codep : UInt32} {s out : Text} (h : Dumps 0 codep s out)
    (hs : ∀ c ∈ s, c.toNat < 256) :
    ∃ cs, s = chars (encode cs) ∧ out = cs.flatMap escapeChar := by
  induction hlength : s.length using Nat.strongRecOn generalizing codep s out with
  | _ n ih =>
      cases s with
      | nil =>
          cases h
          exact ⟨[], rfl, rfl⟩
      | cons x s =>
          rw [← ofNat_toUInt8 (hs x List.mem_cons_self)] at h
          obtain ⟨c, rest, more, hwhole, hrest, rfl⟩ :=
            h.take fun y hy => hs y (List.mem_cons_of_mem _ hy)
          rw [ofNat_toUInt8 (hs x List.mem_cons_self)] at hwhole
          have hshorter : rest.length < n := by
            have hsize := congrArg List.length hwhole
            rw [hlength, List.length_append, chars, List.length_map, String.length_utf8EncodeChar] at hsize
            have := c.utf8Size_pos
            omega
          have hrests : ∀ y ∈ rest, y.toNat < 256 := by
            intro y hy
            apply hs
            rw [hwhole]
            exact List.mem_append_right _ hy
          obtain ⟨cs, rfl, rfl⟩ := ih rest.length hshorter hrest hrests rfl
          exact ⟨c :: cs, by rw [hwhole, encode_cons, chars_append], List.flatMap_cons.symm⟩

/-- Exactly the texts that are UTF-8 can be written, character by character. -/
theorem dumpEscaped_iff {s out : Text} (hs : ∀ c ∈ s, c.toNat < 256) :
    dumpEscaped s = .ok out ↔ ∃ cs, s = chars (encode cs) ∧ out = cs.flatMap escapeChar := by
  rw [dumpEscaped_eq_ok]
  constructor
  · intro h
    exact h.spells hs
  · rintro ⟨cs, rfl, rfl⟩
    exact dumps_chars cs 0

end Json

end Supryolo
