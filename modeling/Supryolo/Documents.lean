import Supryolo.Dump

/-!
How a document is read that the miner has written. The reader takes a part of
JSON: no white space, no pairs of escaped surrogates and no numbers but
integers. What the serializer writes it reads back.
-/

namespace Supryolo

namespace Json

open Loops Utf8

def unescape : Char → Option Char
  | '"' => some '"'
  | '\\' => some '\\'
  | '/' => some '/'
  | 'b' => some '\x08'
  | 'f' => some '\x0c'
  | 'n' => some '\n'
  | 'r' => some '\r'
  | 't' => some '\t'
  | _ => none

/-- The character of four hexadecimal digits. -/
def readCode (digits : Text) : Option Char :=
  match unhex digits with
  | .ok [high, low] =>
      let n := high.toNat * 256 + low.toNat
      if n < 0xd800 ∨ 0xdfff < n then some (Char.ofNat n) else none
  | _ => none

/-- The rest of a string, after its opening quotation mark. -/
def readString : Text → Option (Text × Text)
  | [] => none
  | '"' :: rest => some ([], rest)
  | '\\' :: 'u' :: a :: b :: c :: d :: rest => do
      let code ← readCode [a, b, c, d]
      let (more, rest) ← readString rest
      some (chars (String.utf8EncodeChar code) ++ more, rest)
  | '\\' :: e :: rest => do
      let c ← unescape e
      let (more, rest) ← readString rest
      some (c :: more, rest)
  | c :: rest =>
      if c.toNat < 0x20 then none
      else do
        let (more, rest) ← readString rest
        some (c :: more, rest)

def readDigits (text : Text) : Option (Nat × Text) :=
  let digits := text.takeWhile Char.isDigit
  if digits = [] ∨ (digits.head? = some '0' ∧ digits ≠ ['0']) then none
  else some (Nat.ofDigitChars 10 digits 0, text.dropWhile Char.isDigit)

/-- An integer, which no fraction and no exponent may follow. -/
def readInteger (text : Text) : Option (Json × Text) := do
  let (value, rest) ← match text with
    | '-' :: text => do
        let (n, rest) ← readDigits text
        some (-(n : Int), rest)
    | text => do
        let (n, rest) ← readDigits text
        some ((n : Int), rest)
  if rest.head? = some '.' ∨ rest.head? = some 'e' ∨ rest.head? = some 'E' then none
  else some (.integer value, rest)

mutual

/-- A value of at most the given depth and length. -/
def readValue : Nat → Text → Option (Json × Text)
  | 0, _ => none
  | _ + 1, '"' :: text => do
      let (value, rest) ← readString text
      some (.string value, rest)
  | _ + 1, '[' :: ']' :: rest => some (.array [], rest)
  | fuel + 1, '[' :: text => do
      let (items, rest) ← readItems fuel text
      some (.array items, rest)
  | _ + 1, '{' :: '}' :: rest => some (.object [], rest)
  | fuel + 1, '{' :: text => do
      let (members, rest) ← readMembers fuel text
      some (.object members, rest)
  | _ + 1, 'n' :: 'u' :: 'l' :: 'l' :: rest => some (.null, rest)
  | _ + 1, 't' :: 'r' :: 'u' :: 'e' :: rest => some (.boolean true, rest)
  | _ + 1, 'f' :: 'a' :: 'l' :: 's' :: 'e' :: rest => some (.boolean false, rest)
  | _ + 1, text => readInteger text

def readItems : Nat → Text → Option (List Json × Text)
  | 0, _ => none
  | fuel + 1, text => do
      let (item, rest) ← readValue fuel text
      match rest with
      | ',' :: rest => do
          let (more, rest) ← readItems fuel rest
          some (item :: more, rest)
      | ']' :: rest => some ([item], rest)
      | _ => none

def readMembers : Nat → Text → Option (List (Text × Json) × Text)
  | 0, _ => none
  | fuel + 1, text => do
      match text with
      | '"' :: text => do
          let (key, rest) ← readString text
          match rest with
          | ':' :: rest => do
              let (value, rest) ← readValue fuel rest
              match rest with
              | ',' :: rest => do
                  let (more, rest) ← readMembers fuel rest
                  some ((key, value) :: more, rest)
              | '}' :: rest => some ([(key, value)], rest)
              | _ => none
          | _ => none
      | _ => none

end

def readDocument (text : Text) : Option Json := do
  let (value, rest) ← readValue (text.length + 1) text
  if rest = [] then some value else none

theorem readString_plain {c : Char} (hquote : c ≠ '"') (hescape : c ≠ '\\') (hc : 0x20 ≤ c.toNat)
    (rest : Text) :
    readString (c :: rest) = (readString rest).map fun read => (c :: read.1, read.2) := by
  rw [readString, if_neg (by omega)]
  · cases readString rest <;> rfl
  · exact hquote
  · exact fun _ _ _ _ _ h => absurd h hescape
  · exact fun _ _ h => absurd h hescape

theorem readString_chars {bytes : List UInt8} (h : ∀ b ∈ bytes, 0x80 ≤ b.toNat) (rest : Text) :
    readString (chars bytes ++ rest) =
      (readString rest).map fun read => (chars bytes ++ read.1, read.2) := by
  induction bytes with
  | nil => cases hread : readString rest <;> simp [chars, hread]
  | cons b bytes ih =>
      have hb := h b List.mem_cons_self
      have hvalue : (Char.ofNat b.toNat).toNat = b.toNat :=
        toNat_ofNat (Or.inl (b.toNat_lt.trans (by decide)))
      have hne {c : Char} (hc : c.toNat < 0x80) : Char.ofNat b.toNat ≠ c := by
        rintro rfl
        omega
      change readString (Char.ofNat b.toNat :: (chars bytes ++ rest)) = _
      rw [readString_plain (hne (by decide)) (hne (by decide)) (by omega),
        ih fun b hb => h b (List.mem_cons_of_mem _ hb)]
      cases readString rest <;> rfl

/-- Whether a text is an escape for a character. -/
def isEscape (c : Char) : Text → Bool
  | ['\\', e] => e ≠ 'u' && unescape e == some c
  | ['\\', 'u', h, i, j, k] => readCode [h, i, j, k] == some c && decide (c.toNat < 0x80)
  | _ => false

theorem chars_ascii {c : Char} (h : c.toNat < 0x80) : chars (String.utf8EncodeChar c) = [c] := by
  obtain ⟨a, hbytes, ha⟩ := (spelling_encode c).narrow h
  rw [hbytes, chars, List.map_singleton, ha, Char.ofNat_toNat]

theorem isUtf8_ascii {s : Text} (h : ∀ c ∈ s, c.toNat < 0x80) : IsUtf8 s := by
  refine ⟨s, ?_⟩
  induction s with
  | nil => rfl
  | cons c rest ih =>
      rw [Utf8.encode_cons, chars_append, chars_ascii (h c List.mem_cons_self),
        ← ih fun d hd => h d (List.mem_cons_of_mem _ hd)]
      rfl

theorem readString_isEscape {c : Char} {text : Text} (h : isEscape c text = true) (rest : Text) :
    readString (text ++ rest) = (readString rest).map fun read => (c :: read.1, read.2) := by
  unfold isEscape at h
  split at h
  · rename_i e
    simp only [Bool.and_eq_true, decide_eq_true_eq, beq_iff_eq] at h
    change readString ('\\' :: e :: rest) = _
    rw [readString, h.2]
    · cases readString rest <;> rfl
    · exact fun _ _ _ _ _ hu _ => h.1 hu
  · rename_i h₁ i j k
    simp only [Bool.and_eq_true, decide_eq_true_eq, beq_iff_eq] at h
    change readString ('\\' :: 'u' :: h₁ :: i :: j :: k :: rest) = _
    rw [readString, h.1]
    cases readString rest <;> simp [chars_ascii h.2]
  · cases h

theorem isEscape_escape : ∀ n : Fin 0x80, n.val < 0x20 ∨ n.val = 0x22 ∨ n.val = 0x5c →
    isEscape (Char.ofNat n.val) (escape (UInt32.ofNat n.val) (Char.ofNat n.val)) = true := by
  decide +kernel

theorem escape_plain : ∀ n : Fin 0x80, ¬ (n.val < 0x20 ∨ n.val = 0x22 ∨ n.val = 0x5c) →
    escape (UInt32.ofNat n.val) (Char.ofNat n.val) = [Char.ofNat n.val] := by
  decide +kernel

theorem readString_escapeChar (c : Char) (rest : Text) :
    readString (escapeChar c ++ rest) =
      (readString rest).map fun read => (chars (String.utf8EncodeChar c) ++ read.1, read.2) := by
  unfold escapeChar
  split_ifs with hascii
  · have hval : UInt32.ofNat c.toNat = c.val := UInt32.ofNat_toNat
    have hescape := isEscape_escape ⟨c.toNat, hascii⟩
    have hplain := escape_plain ⟨c.toNat, hascii⟩
    dsimp only at hescape hplain
    rw [Char.ofNat_toNat, hval] at hescape hplain
    rw [chars_ascii hascii]
    by_cases hspecial : c.toNat < 0x20 ∨ c.toNat = 0x22 ∨ c.toNat = 0x5c
    · exact readString_isEscape (hescape hspecial) rest
    · rw [hplain hspecial]
      apply readString_plain
      · rintro rfl
        exact hspecial (by decide)
      · rintro rfl
        exact hspecial (by decide)
      · omega
  · exact readString_chars ((spelling_encode c).wide (by omega)) rest

theorem readString_flatMap (cs : List Char) (rest : Text) :
    readString (cs.flatMap escapeChar ++ '"' :: rest) = some (chars (encode cs), rest) := by
  induction cs with
  | nil => rfl
  | cons c cs ih =>
      rw [List.flatMap_cons, List.append_assoc, readString_escapeChar, ih, encode_cons, chars_append]
      rfl

/-- Nothing follows that would go on with a number. -/
def EndsNumber (rest : Text) : Prop :=
  ∀ c ∈ rest.head?, c.isDigit = false ∧ c ≠ '.' ∧ c ≠ 'e' ∧ c ≠ 'E'

theorem toDigits_head {n : Nat} (h : 0 < n) : (Nat.toDigits 10 n).head? ≠ some '0' := by
  induction n using Nat.strongRecOn with
  | _ n ih =>
      by_cases hsmall : n < 10
      · rw [Nat.toDigits_of_lt_base hsmall]
        interval_cases n <;> decide
      · rw [Nat.toDigits_of_base_le (by decide) (by omega),
          List.head?_append_of_ne_nil _ Nat.toDigits_ne_nil]
        exact ih _ (by omega) (by omega)

theorem readDigits_toDigits (n : Nat) {rest : Text} (hrest : EndsNumber rest) :
    readDigits (Nat.toDigits 10 n ++ rest) = some (n, rest) := by
  have hdigits : ∀ c ∈ Nat.toDigits 10 n, c.isDigit = true := fun c hc =>
    Nat.isDigit_of_mem_toDigits (by decide) (by decide) hc
  have hstop : rest.takeWhile Char.isDigit = [] ∧ rest.dropWhile Char.isDigit = rest := by
    cases rest with
    | nil => exact ⟨rfl, rfl⟩
    | cons c rest =>
        have hc := (hrest c rfl).1
        exact ⟨List.takeWhile_cons_of_neg (by simp [hc]), List.dropWhile_cons_of_neg (by simp [hc])⟩
  have htake : (Nat.toDigits 10 n ++ rest).takeWhile Char.isDigit = Nat.toDigits 10 n := by
    rw [List.takeWhile_append_of_pos hdigits, hstop.1, List.append_nil]
  have hdrop : (Nat.toDigits 10 n ++ rest).dropWhile Char.isDigit = rest := by
    rw [List.dropWhile_append_of_pos hdigits, hstop.2]
  have hzero : ¬ ((Nat.toDigits 10 n).head? = some '0' ∧ Nat.toDigits 10 n ≠ ['0']) := by
    rintro ⟨hhead, hne⟩
    rcases Nat.eq_zero_or_pos n with rfl | hpos
    · exact hne (Nat.toDigits_zero 10)
    · exact toDigits_head hpos hhead
  rw [readDigits, htake, hdrop, if_neg (not_or.mpr ⟨Nat.toDigits_ne_nil, hzero⟩),
    Nat.ofDigitChars_ten_toDigits]

theorem toList_toString (n : Int) : (toString n).toList =
    if n < 0 then '-' :: Nat.toDigits 10 n.natAbs else Nat.toDigits 10 n.natAbs := by
  cases n with
  | ofNat n =>
      rw [if_neg (by simp), Int.toString_eq_repr]
      simp [Int.repr, Nat.toList_repr]
  | negSucc n =>
      rw [if_pos (Int.negSucc_lt_zero n), Int.toString_eq_repr]
      simp [Int.repr, Nat.toList_repr]

theorem toDigits_cons (n : Nat) : ∃ c more, Nat.toDigits 10 n = c :: more ∧ c.isDigit = true := by
  have hdigits : ∀ c ∈ Nat.toDigits 10 n, c.isDigit = true := fun c hc =>
    Nat.isDigit_of_mem_toDigits (by decide) (by decide) hc
  cases h : Nat.toDigits 10 n with
  | nil => exact absurd h Nat.toDigits_ne_nil
  | cons c more =>
      rw [h] at hdigits
      exact ⟨c, more, rfl, hdigits c List.mem_cons_self⟩

theorem toString_cons (n : Int) :
    ∃ c more, (toString n).toList = c :: more ∧ (c = '-' ∨ c.isDigit = true) := by
  rw [toList_toString]
  split_ifs
  · exact ⟨_, _, rfl, Or.inl rfl⟩
  · obtain ⟨c, more, hdigits, hc⟩ := toDigits_cons n.natAbs
    exact ⟨c, more, hdigits, Or.inr hc⟩

theorem readInteger_toString (n : Int) {rest : Text} (hrest : EndsNumber rest) :
    readInteger ((toString n).toList ++ rest) = some (.integer n, rest) := by
  have hend : ¬ (rest.head? = some '.' ∨ rest.head? = some 'e' ∨ rest.head? = some 'E') := by
    rintro (h | h | h)
    · exact (hrest _ h).2.1 rfl
    · exact (hrest _ h).2.2.1 rfl
    · exact (hrest _ h).2.2.2 rfl
  have hread := readDigits_toDigits n.natAbs hrest
  rw [toList_toString]
  split_ifs with hneg
  · have hvalue : -(n.natAbs : Int) = n := by omega
    rw [List.cons_append, readInteger]
    simp only [hread, Option.bind_eq_bind, Option.bind_some, hvalue, if_neg hend]
  · have hvalue : (n.natAbs : Int) = n := by omega
    unfold readInteger
    split
    · rename_i text hminus
      obtain ⟨c, more, hdigits, hc⟩ := toDigits_cons n.natAbs
      rw [hdigits, List.cons_append] at hminus
      rw [(List.cons.inj hminus).1] at hc
      exact absurd hc (by decide)
    · simp only [hread, Option.bind_eq_bind, Option.bind_some, hvalue, if_neg hend]

mutual

/-- A property of every value within a value; a key counts as a string. -/
def All (P : Json → Prop) : Json → Prop
  | .array items => P (.array items) ∧ AllItems P items
  | .object members => P (.object members) ∧ AllMembers P members
  | value => P value

def AllItems (P : Json → Prop) : List Json → Prop
  | [] => True
  | item :: rest => All P item ∧ AllItems P rest

def AllMembers (P : Json → Prop) : List (Text × Json) → Prop
  | [] => True
  | (key, value) :: rest => P (.string key) ∧ All P value ∧ AllMembers P rest

end

/-- What holds of an array or an object whenever it holds of what is in it. -/
@[elab_as_elim]
theorem induction {P : Json → Prop}
    (single : ∀ value, (∀ items, value ≠ .array items) → (∀ members, value ≠ .object members) →
      P value)
    (array : ∀ items, (∀ item ∈ items, P item) → P (.array items))
    (object : ∀ members, (∀ m ∈ members, P m.2) → P (.object members)) (value : Json) :
    P value := by
  induction hsize : sizeOf value using Nat.strongRecOn generalizing value with
  | _ n ih =>
      cases value with
      | array items =>
          refine array items fun item hitem => ih (sizeOf item) ?_ item rfl
          have hlt := List.sizeOf_lt_of_mem hitem
          simp only [Json.array.sizeOf_spec] at hsize
          omega
      | object members =>
          refine object members fun m hm => ih (sizeOf m.2) ?_ m.2 rfl
          have hlt := List.sizeOf_lt_of_mem hm
          simp only [Json.object.sizeOf_spec] at hsize
          obtain ⟨key, value⟩ := m
          simp only [Prod.mk.sizeOf_spec] at hlt ⊢
          omega
      | _ =>
          apply single
          · intro items h
            cases h
          · intro members h
            cases h

/-- Strings are UTF-8. -/
def Spelled : Json → Prop
  | .string s => IsUtf8 s
  | _ => True

/-- What can be written and read back: no number but integers. -/
def Readable : Json → Prop
  | .string s => IsUtf8 s
  | .float _ _ => False
  | _ => True

/-- A text that is read as a value wherever it stands. -/
structure Writes (value : Json) (text : Text) : Prop where
  dump : value.dump = .ok text
  reads : ∀ fuel rest, text.length < fuel → EndsNumber rest →
    readValue fuel (text ++ rest) = some (value, rest)
  line : '\n' ∉ text

theorem readValue_integer {c : Char} (hc : c = '-' ∨ c.isDigit = true) (fuel : Nat) (more : Text) :
    readValue (fuel + 1) (c :: more) = readInteger (c :: more) := by
  have hother {d : Char} {text : Text} (hminus : d ≠ '-') (hdigit : d.isDigit = false)
      (h : c :: more = d :: text) : False := by
    obtain ⟨rfl, -⟩ := List.cons.inj h
    rcases hc with rfl | hc
    · exact hminus rfl
    · exact absurd hc (by rw [hdigit]; decide)
  rw [readValue]
  all_goals
    intro text htext
    exact hother (by decide) (by decide) htext

theorem endsNumber_cons {c : Char} (h : c.isDigit = false ∧ c ≠ '.' ∧ c ≠ 'e' ∧ c ≠ 'E')
    (rest : Text) : EndsNumber (c :: rest) := by
  intro d hd
  obtain rfl := Option.some.inj hd
  exact h

/-- A value does not begin with the end of a list. -/
theorem Writes.head {value : Json} {text : Text} (h : Writes value text) {c : Char}
    (hc : c = ']' ∨ c = '}') (more rest : Text) : text ++ rest ≠ c :: more := by
  intro htext
  have hread := h.reads (text.length + 1) [] (Nat.lt_succ_self _) (by intro c hc; cases hc)
  rw [List.append_nil] at hread
  cases text with
  | nil => cases hread
  | cons d text =>
      obtain ⟨rfl, -⟩ := List.cons.inj htext
      have hnone : readValue ((d :: text).length + 1) (d :: text) = none := by
        rcases hc with rfl | rfl <;> rfl
      rw [hnone] at hread
      cases hread

theorem newline_not_mem_escapeChar (c : Char) : '\n' ∉ escapeChar c := by
  have hascii : ∀ n : Fin 0x80, '\n' ∉ escape (UInt32.ofNat n.val) (Char.ofNat n.val) := by
    decide +kernel
  unfold escapeChar
  split_ifs with h
  · have hc := hascii ⟨c.toNat, h⟩
    have hval : UInt32.ofNat c.toNat = c.val := UInt32.ofNat_toNat
    dsimp only at hc
    rwa [Char.ofNat_toNat, hval] at hc
  · intro hmem
    obtain ⟨b, hb, hchar⟩ := List.mem_map.mp hmem
    have hwide := (spelling_encode c).wide (by omega) b hb
    have hvalue : (Char.ofNat b.toNat).toNat = b.toNat :=
      toNat_ofNat (Or.inl (b.toNat_lt.trans (by decide)))
    rw [hchar] at hvalue
    change 10 = b.toNat at hvalue
    omega

theorem writes_string {s : Text} (hs : IsUtf8 s) : ∃ text, Writes (.string s) text := by
  obtain ⟨cs, rfl⟩ := hs
  refine ⟨'"' :: cs.flatMap escapeChar ++ ['"'], ?_, ?_, ?_⟩
  · rw [Json.dump, dumpEscaped_eq_ok.mpr (dumps_chars cs 0)]
    rfl
  · intro fuel rest hfuel _
    obtain ⟨fuel, rfl⟩ := Nat.exists_eq_succ_of_ne_zero (by omega : fuel ≠ 0)
    have hwhole : '"' :: cs.flatMap escapeChar ++ ['"'] ++ rest =
        '"' :: (cs.flatMap escapeChar ++ '"' :: rest) := by simp
    rw [hwhole, readValue, readString_flatMap]
    rfl
  · simp [newline_not_mem_escapeChar]

theorem writes_integer (n : Int) : Writes (.integer n) (toString n).toList := by
  obtain ⟨c, more, htext, hc⟩ := toString_cons n
  refine ⟨rfl, ?_, ?_⟩
  · intro fuel rest hfuel hrest
    obtain ⟨fuel, rfl⟩ := Nat.exists_eq_succ_of_ne_zero (by omega : fuel ≠ 0)
    have hread := readInteger_toString n hrest
    rw [htext, List.cons_append] at hread ⊢
    rw [readValue_integer hc, hread]
  · intro hmem
    rw [toList_toString] at hmem
    have hdigit {k : Nat} (h : '\n' ∈ Nat.toDigits 10 k) : False :=
      absurd (Nat.isDigit_of_mem_toDigits (by decide) (by decide) h) (by decide)
    split_ifs at hmem
    · rcases List.mem_cons.mp hmem with hmem | hmem
      · exact absurd hmem (by decide)
      · exact hdigit hmem
    · exact hdigit hmem

theorem dumpItems_cons {item : Json} {rest : List Json} {text more : Text}
    (htext : item.dump = .ok text) (hmore : dumpItems rest = .ok more) :
    dumpItems (item :: rest) = .ok (text ++ (if rest.isEmpty then [] else [',']) ++ more) := by
  rw [dumpItems, htext, ok_bind, hmore]
  rfl

theorem writes_items {items : List Json} (hne : items ≠ [])
    (h : ∀ item ∈ items, ∃ text, Writes item text) :
    ∃ text, dumpItems items = .ok text ∧ '\n' ∉ text ∧ (∀ more rest, text ++ rest ≠ ']' :: more) ∧
      ∀ fuel rest, text.length + 1 < fuel →
        readItems fuel (text ++ ']' :: rest) = some (items, rest) := by
  induction items with
  | nil => exact absurd rfl hne
  | cons item items ih =>
      obtain ⟨text, htext⟩ := h item List.mem_cons_self
      cases items with
      | nil =>
          refine ⟨text, ?_, htext.line, htext.head (Or.inl rfl), ?_⟩
          · rw [dumpItems_cons htext.dump rfl]
            simp
          · intro fuel rest hfuel
            obtain ⟨fuel, rfl⟩ := Nat.exists_eq_succ_of_ne_zero (by omega : fuel ≠ 0)
            rw [readItems, htext.reads fuel _ (by omega) (endsNumber_cons (by decide) rest)]
            rfl
      | cons next items =>
          obtain ⟨later, hdump, hline, -, hread⟩ :=
            ih (by simp) fun item hitem => h item (List.mem_cons_of_mem _ hitem)
          refine ⟨text ++ ',' :: later, ?_, ?_, ?_, ?_⟩
          · rw [dumpItems_cons htext.dump hdump]
            simp
          · simp [htext.line, hline]
          · intro more rest
            rw [List.append_assoc]
            exact htext.head (Or.inl rfl) more _
          · intro fuel rest hfuel
            obtain ⟨fuel, rfl⟩ := Nat.exists_eq_succ_of_ne_zero (by omega : fuel ≠ 0)
            rw [List.length_append, List.length_cons] at hfuel
            rw [List.append_assoc, List.cons_append, readItems,
              htext.reads fuel _ (by omega) (endsNumber_cons (by decide) _)]
            simp only [Option.bind_eq_bind, Option.bind_some]
            rw [hread fuel rest (by omega)]
            rfl

theorem writes_array {items : List Json} (h : ∀ item ∈ items, ∃ text, Writes item text) :
    ∃ text, Writes (.array items) text := by
  by_cases hne : items = []
  · rw [hne]
    refine ⟨['[', ']'], rfl, ?_, by decide⟩
    intro fuel rest hfuel _
    obtain ⟨fuel, rfl⟩ := Nat.exists_eq_succ_of_ne_zero (by omega : fuel ≠ 0)
    rfl
  · obtain ⟨text, hdump, hline, hhead, hread⟩ := writes_items hne h
    refine ⟨'[' :: text ++ [']'], ?_, ?_, ?_⟩
    · rw [Json.dump, hdump]
      rfl
    · intro fuel rest hfuel _
      obtain ⟨fuel, rfl⟩ := Nat.exists_eq_succ_of_ne_zero (by omega : fuel ≠ 0)
      have hwhole : '[' :: text ++ [']'] ++ rest = '[' :: (text ++ ']' :: rest) := by simp
      rw [List.length_append, List.length_cons, List.length_singleton] at hfuel
      rw [hwhole, readValue]
      · rw [hread fuel rest (by omega)]
        rfl
      · exact fun more hmore => hhead more _ hmore
    · simp [hline]

theorem dumpMembers_cons {key name text more : Text} {value : Json} {rest : List (Text × Json)}
    (hname : dumpEscaped key = .ok name) (htext : value.dump = .ok text)
    (hmore : dumpMembers rest = .ok more) : dumpMembers ((key, value) :: rest) =
      .ok ('"' :: name ++ '"' :: ':' :: text ++ (if rest.isEmpty then [] else [',']) ++ more) := by
  rw [dumpMembers, hname, ok_bind, htext, ok_bind, hmore]
  rfl

theorem writes_members {members : List (Text × Json)} (hne : members ≠ [])
    (h : ∀ m ∈ members, IsUtf8 m.1 ∧ ∃ text, Writes m.2 text) :
    ∃ text, dumpMembers members = .ok text ∧ '\n' ∉ text ∧ (∀ more rest, text ++ rest ≠ '}' :: more) ∧
      ∀ fuel rest, text.length + 1 < fuel →
        readMembers fuel (text ++ '}' :: rest) = some (members, rest) := by
  induction members with
  | nil => exact absurd rfl hne
  | cons m members ih =>
      obtain ⟨key, value⟩ := m
      obtain ⟨⟨cs, rfl⟩, text, htext⟩ := h (key, value) List.mem_cons_self
      have hname := dumpEscaped_eq_ok.mpr (dumps_chars cs 0)
      cases members with
      | nil =>
          refine ⟨'"' :: cs.flatMap escapeChar ++ '"' :: ':' :: text, ?_, ?_, ?_, ?_⟩
          · rw [dumpMembers_cons hname htext.dump rfl]
            simp
          · simp [newline_not_mem_escapeChar, htext.line]
          · intro more rest hmore
            cases hmore
          · intro fuel rest hfuel
            obtain ⟨fuel, rfl⟩ := Nat.exists_eq_succ_of_ne_zero (by omega : fuel ≠ 0)
            have hwhole : '"' :: cs.flatMap escapeChar ++ '"' :: ':' :: text ++ '}' :: rest =
                '"' :: (cs.flatMap escapeChar ++ '"' :: (':' :: (text ++ '}' :: rest))) := by simp
            simp only [List.length_append, List.length_cons] at hfuel
            rw [hwhole, readMembers]
            simp only [readString_flatMap, Option.bind_eq_bind, Option.bind_some]
            rw [htext.reads fuel _ (by omega) (endsNumber_cons (by decide) rest)]
            rfl
      | cons next members =>
          obtain ⟨later, hdump, hline, -, hread⟩ :=
            ih (by simp) fun m hm => h m (List.mem_cons_of_mem _ hm)
          refine ⟨'"' :: cs.flatMap escapeChar ++ '"' :: ':' :: text ++ ',' :: later, ?_, ?_, ?_, ?_⟩
          · rw [dumpMembers_cons hname htext.dump hdump]
            simp
          · simp [newline_not_mem_escapeChar, htext.line, hline]
          · intro more rest hmore
            cases hmore
          · intro fuel rest hfuel
            obtain ⟨fuel, rfl⟩ := Nat.exists_eq_succ_of_ne_zero (by omega : fuel ≠ 0)
            have hwhole : '"' :: cs.flatMap escapeChar ++ '"' :: ':' :: text ++ ',' :: later ++
                '}' :: rest = '"' :: (cs.flatMap escapeChar ++
                  '"' :: (':' :: (text ++ ',' :: (later ++ '}' :: rest)))) := by simp
            simp only [List.length_append, List.length_cons] at hfuel
            rw [hwhole, readMembers]
            simp only [readString_flatMap, Option.bind_eq_bind, Option.bind_some]
            rw [htext.reads fuel _ (by omega) (endsNumber_cons (by decide) _)]
            simp only [Option.bind_some]
            rw [hread fuel rest (by omega)]
            rfl

theorem writes_object {members : List (Text × Json)}
    (h : ∀ m ∈ members, IsUtf8 m.1 ∧ ∃ text, Writes m.2 text) :
    ∃ text, Writes (.object members) text := by
  by_cases hne : members = []
  · rw [hne]
    refine ⟨['{', '}'], rfl, ?_, by decide⟩
    intro fuel rest hfuel _
    obtain ⟨fuel, rfl⟩ := Nat.exists_eq_succ_of_ne_zero (by omega : fuel ≠ 0)
    rfl
  · obtain ⟨text, hdump, hline, hhead, hread⟩ := writes_members hne h
    refine ⟨'{' :: text ++ ['}'], ?_, ?_, ?_⟩
    · rw [Json.dump, hdump]
      rfl
    · intro fuel rest hfuel _
      obtain ⟨fuel, rfl⟩ := Nat.exists_eq_succ_of_ne_zero (by omega : fuel ≠ 0)
      have hwhole : '{' :: text ++ ['}'] ++ rest = '{' :: (text ++ '}' :: rest) := by simp
      rw [List.length_append, List.length_cons, List.length_singleton] at hfuel
      rw [hwhole, readValue]
      · rw [hread fuel rest (by omega)]
        rfl
      · exact fun more hmore => hhead more _ hmore
    · simp [hline]

theorem writes_literal {value : Json} {text : Text} (hdump : value.dump = .ok text)
    (hread : ∀ fuel rest, readValue (fuel + 1) (text ++ rest) = some (value, rest))
    (hline : '\n' ∉ text) : Writes value text := by
  refine ⟨hdump, ?_, hline⟩
  intro fuel rest hfuel _
  obtain ⟨fuel, rfl⟩ := Nat.exists_eq_succ_of_ne_zero (by omega : fuel ≠ 0)
  exact hread fuel rest

theorem all_items {P : Json → Prop} {items : List Json} :
    AllItems P items ↔ ∀ item ∈ items, All P item := by
  induction items with
  | nil => simp [AllItems]
  | cons item rest ih => rw [AllItems, ih, List.forall_mem_cons]

theorem all_members {P : Json → Prop} {members : List (Text × Json)} :
    AllMembers P members ↔ ∀ m ∈ members, P (.string m.1) ∧ All P m.2 := by
  induction members with
  | nil => simp [AllMembers]
  | cons m rest ih => rw [AllMembers, ih, List.forall_mem_cons, and_assoc]

/-- Every value of strings in UTF-8 and of integers is written on one line that
is read as this value. -/
theorem writes_readable {value : Json} (h : value.All Readable) : ∃ text, Writes value text := by
  induction value using Json.induction with
  | array items ih => exact writes_array fun item hitem => ih item hitem (all_items.mp h.2 item hitem)
  | object members ih =>
      refine writes_object fun m hm => ?_
      obtain ⟨hkey, hvalue⟩ := all_members.mp h.2 m hm
      exact ⟨hkey, ih m hm hvalue⟩
  | single value harray hobject =>
      cases value with
      | null => exact ⟨_, writes_literal rfl (fun _ _ => rfl) (by decide)⟩
      | boolean b => cases b <;> exact ⟨_, writes_literal rfl (fun _ _ => rfl) (by decide)⟩
      | integer n => exact ⟨_, writes_integer n⟩
      | float text truncated => exact absurd h id
      | string s => exact writes_string h
      | array items => exact absurd rfl (harray items)
      | object members => exact absurd rfl (hobject members)

/-- Characters are bytes. -/
def Bytewise : Json → Prop
  | .string s => ∀ c ∈ s, c.toNat < 256
  | _ => True

theorem chars_bytewise (bytes : List UInt8) : ∀ c ∈ chars bytes, c.toNat < 256 := by
  intro c hc
  obtain ⟨b, -, rfl⟩ := List.mem_map.mp hc
  rw [toNat_ofNat (Or.inl (b.toNat_lt.trans (by decide)))]
  exact b.toNat_lt

theorem isUtf8_of_dumpEscaped {s out : Text} (hs : ∀ c ∈ s, c.toNat < 256)
    (h : dumpEscaped s = .ok out) : IsUtf8 s := by
  obtain ⟨cs, hcs, -⟩ := (dumpEscaped_iff hs).mp h
  exact ⟨cs, hcs⟩

theorem dumpItems_ok {items : List Json} :
    (∃ text, dumpItems items = .ok text) ↔ ∀ item ∈ items, ∃ text, item.dump = .ok text := by
  induction items with
  | nil => exact ⟨fun _ item hitem => absurd hitem List.not_mem_nil, fun _ => ⟨[], rfl⟩⟩
  | cons item rest ih =>
      rw [List.forall_mem_cons, ← ih]
      constructor
      · rintro ⟨text, h⟩
        obtain ⟨first, hfirst, h⟩ := bind_eq_ok.mp h
        obtain ⟨more, hmore, -⟩ := bind_eq_ok.mp h
        exact ⟨⟨first, hfirst⟩, ⟨more, hmore⟩⟩
      · rintro ⟨⟨first, hfirst⟩, ⟨more, hmore⟩⟩
        exact ⟨_, dumpItems_cons hfirst hmore⟩

theorem dumpMembers_ok {members : List (Text × Json)} :
    (∃ text, dumpMembers members = .ok text) ↔
      ∀ m ∈ members, (∃ name, dumpEscaped m.1 = .ok name) ∧ ∃ text, m.2.dump = .ok text := by
  induction members with
  | nil => exact ⟨fun _ m hm => absurd hm List.not_mem_nil, fun _ => ⟨[], rfl⟩⟩
  | cons m rest ih =>
      rw [List.forall_mem_cons, ← ih]
      constructor
      · rintro ⟨text, h⟩
        obtain ⟨name, hname, h⟩ := bind_eq_ok.mp h
        obtain ⟨first, hfirst, h⟩ := bind_eq_ok.mp h
        obtain ⟨more, hmore, -⟩ := bind_eq_ok.mp h
        exact ⟨⟨⟨name, hname⟩, ⟨first, hfirst⟩⟩, ⟨more, hmore⟩⟩
      · rintro ⟨⟨⟨name, hname⟩, ⟨first, hfirst⟩⟩, ⟨more, hmore⟩⟩
        exact ⟨_, dumpMembers_cons hname hfirst hmore⟩

/-- What has been written was UTF-8 throughout. -/
theorem spelled_of_dump {value : Json} {text : Text} (hbytes : value.All Bytewise)
    (h : value.dump = .ok text) : value.All Spelled := by
  induction value using Json.induction generalizing text with
  | array items ih =>
      obtain ⟨out, hout, -⟩ := bind_eq_ok.mp h
      refine ⟨trivial, all_items.mpr fun item hitem => ?_⟩
      obtain ⟨text, htext⟩ := dumpItems_ok.mp ⟨out, hout⟩ item hitem
      exact ih item hitem (all_items.mp hbytes.2 item hitem) htext
  | object members ih =>
      obtain ⟨out, hout, -⟩ := bind_eq_ok.mp h
      refine ⟨trivial, all_members.mpr fun m hm => ?_⟩
      obtain ⟨⟨name, hname⟩, text, htext⟩ := dumpMembers_ok.mp ⟨out, hout⟩ m hm
      obtain ⟨hkey, hvalue⟩ := all_members.mp hbytes.2 m hm
      exact ⟨isUtf8_of_dumpEscaped hkey hname, ih m hm hvalue htext⟩
  | single value harray hobject =>
      cases value with
      | string s =>
          obtain ⟨out, hout, -⟩ := bind_eq_ok.mp h
          exact isUtf8_of_dumpEscaped hbytes hout
      | array items => exact absurd rfl (harray items)
      | object members => exact absurd rfl (hobject members)
      | _ => trivial

theorem dumpEscaped_of_isUtf8 {s : Text} (h : IsUtf8 s) : ∃ out, dumpEscaped s = .ok out := by
  obtain ⟨cs, rfl⟩ := h
  exact ⟨_, dumpEscaped_eq_ok.mpr (dumps_chars cs 0)⟩

theorem spelled_object {members : List (Text × Json)} (hkeys : ∀ m ∈ members, ∀ c ∈ m.1, c.toNat < 0x80)
    (hvalues : ∀ m ∈ members, m.2.All Spelled) : (Json.object members).All Spelled :=
  ⟨trivial, all_members.mpr fun m hm => ⟨isUtf8_ascii (hkeys m hm), hvalues m hm⟩⟩

/-- What is UTF-8 throughout can be written. -/
theorem dump_of_spelled {value : Json} (h : value.All Spelled) : ∃ text, value.dump = .ok text := by
  induction value using Json.induction with
  | array items ih =>
      obtain ⟨out, hout⟩ :=
        dumpItems_ok.mpr fun item hitem => ih item hitem (all_items.mp h.2 item hitem)
      exact ⟨_, bind_eq_ok.mpr ⟨out, hout, rfl⟩⟩
  | object members ih =>
      have hmembers := all_members.mp h.2
      obtain ⟨out, hout⟩ := dumpMembers_ok.mpr fun m hm =>
        ⟨dumpEscaped_of_isUtf8 (hmembers m hm).1, ih m hm (hmembers m hm).2⟩
      exact ⟨_, bind_eq_ok.mpr ⟨out, hout, rfl⟩⟩
  | single value harray hobject =>
      cases value with
      | string s =>
          obtain ⟨out, hout⟩ := dumpEscaped_of_isUtf8 h
          exact ⟨_, bind_eq_ok.mpr ⟨out, hout, rfl⟩⟩
      | array items => exact absurd rfl (harray items)
      | object members => exact absurd rfl (hobject members)
      | _ => exact ⟨_, rfl⟩

theorem Writes.document {value : Json} {text : Text} (h : Writes value text) :
    readDocument text = some value := by
  have hread := h.reads (text.length + 1) [] (Nat.lt_succ_self _) (by intro c hc; cases hc)
  rw [List.append_nil] at hread
  rw [readDocument, hread]
  rfl

end Json

end Supryolo
