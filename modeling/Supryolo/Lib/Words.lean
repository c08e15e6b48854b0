import Mathlib.Tactic

/-!
Byte strings and 64-bit words. A byte string has two readings as a number,
least significant byte first (`leNat`) and most significant byte first
(`beNat`); words are assembled from and split into bytes by shifting, the way
hand-written codecs do it. Rotations are characterised bit by bit, so that a
rotation written as two shifts, as a pair of 32-bit funnel shifts or as a
byte shuffle is recognised as the same function.
-/

namespace Supryolo.Words

/-- The number spelled by a byte string whose first byte is least significant. -/
def leNat : List UInt8 → Nat
  | [] => 0
  | byte :: rest => byte.toNat + 256 * leNat rest

/-- The number spelled by a byte string whose first byte is most significant. -/
def beNat (bytes : List UInt8) : Nat :=
  bytes.foldl (fun value byte => 256 * value + byte.toNat) 0

/-- Shift-and-or assembly of a word, least significant byte first. -/
def leWord (bytes : List UInt8) : UInt64 :=
  bytes.foldr (fun byte word => (word <<< 8) ||| byte.toUInt64) 0

/-- Shift-and-or assembly of a word, most significant byte first. -/
def beWord (bytes : List UInt8) : UInt64 :=
  bytes.foldl (fun word byte => (word <<< 8) ||| byte.toUInt64) 0

/-- The `count` low bytes of a word, least significant byte first. -/
def leBytes : Nat → UInt64 → List UInt8
  | 0, _ => []
  | count + 1, word => word.toUInt8 :: leBytes count (word >>> 8)

/-- Reversal of the eight bytes of a word. -/
def byteSwap (word : UInt64) : UInt64 := beWord (leBytes 8 word)

theorem leNat_lt (bytes : List UInt8) : leNat bytes < 256 ^ bytes.length := by
  induction bytes with
  | nil => simp [leNat]
  | cons byte rest ih =>
      have hbyte := byte.toNat_lt
      simp only [leNat, List.length_cons, pow_succ]
      omega

theorem leNat_injective {first second : List UInt8}
    (hlength : first.length = second.length)
    (hvalue : leNat first = leNat second) : first = second := by
  induction first generalizing second with
  | nil => exact (List.length_eq_zero_iff.mp hlength.symm).symm
  | cons byte rest ih =>
      cases second with
      | nil => simp at hlength
      | cons other more =>
          have hbyte := byte.toNat_lt
          have hother := other.toNat_lt
          simp only [leNat] at hvalue
          have hhead : byte = other := UInt8.toNat_inj.mp (by omega)
          have htail : rest = more :=
            ih (by simpa using hlength) (by omega)
          rw [hhead, htail]

private theorem beNat_foldl (bytes : List UInt8) (start : Nat) :
    bytes.foldl (fun value byte => 256 * value + byte.toNat) start =
      start * 256 ^ bytes.length + beNat bytes := by
  induction bytes generalizing start with
  | nil => simp [beNat]
  | cons byte rest ih =>
      simp only [beNat, List.foldl_cons, List.length_cons, pow_succ]
      rw [ih, ih (256 * 0 + byte.toNat)]
      ring

theorem beNat_cons (byte : UInt8) (rest : List UInt8) :
    beNat (byte :: rest) = byte.toNat * 256 ^ rest.length + beNat rest := by
  simp only [beNat, List.foldl_cons]
  rw [beNat_foldl]
  simp [beNat]

theorem beNat_append (first second : List UInt8) :
    beNat (first ++ second) =
      beNat first * 256 ^ second.length + beNat second := by
  simp only [beNat, List.foldl_append]
  rw [beNat_foldl]
  simp [beNat]

theorem beNat_lt (bytes : List UInt8) : beNat bytes < 256 ^ bytes.length := by
  induction bytes with
  | nil => simp [beNat]
  | cons byte rest ih =>
      have hbyte := byte.toNat_lt
      rw [beNat_cons, List.length_cons, pow_succ]
      nlinarith

/-- On byte strings of one length the lexicographic order is the order of the
big-endian numbers they spell. -/
theorem lt_iff_beNat_lt {first second : List UInt8}
    (hlength : first.length = second.length) :
    first < second ↔ beNat first < beNat second := by
  induction first generalizing second with
  | nil =>
      have hnil : second = [] := List.length_eq_zero_iff.mp hlength.symm
      simp [hnil]
  | cons byte rest ih =>
      cases second with
      | nil => simp at hlength
      | cons other more =>
          have hrest : rest.length = more.length := by simpa using hlength
          have hfirst := beNat_lt rest
          have hsecond := beNat_lt more
          rw [List.cons_lt_cons_iff, ih hrest, beNat_cons, beNat_cons, ← hrest]
          rw [← hrest] at hsecond
          rw [UInt8.lt_iff_toNat_lt, ← UInt8.toNat_inj]
          constructor
          · rintro (hlt | ⟨heq, hlt⟩)
            · nlinarith [Nat.mul_le_mul_right (256 ^ rest.length) hlt]
            · rw [heq]
              omega
          · intro h
            rcases lt_trichotomy byte.toNat other.toNat with hlt | heq | hgt
            · exact Or.inl hlt
            · rw [heq] at h
              exact Or.inr ⟨heq, by omega⟩
            · nlinarith [Nat.mul_le_mul_right (256 ^ rest.length) hgt]

private theorem or_byte_toNat (word : UInt64) (byte : UInt8)
    (hword : word.toNat < 2 ^ 56) :
    ((word <<< 8) ||| byte.toUInt64).toNat = 256 * word.toNat + byte.toNat := by
  have hbyte : byte.toNat < 2 ^ 8 := byte.toNat_lt
  have hshift : word.toNat <<< 8 < 2 ^ 64 := by
    rw [Nat.shiftLeft_eq]
    omega
  rw [UInt64.toNat_or, UInt64.toNat_shiftLeft, UInt8.toNat_toUInt64]
  change (word.toNat <<< 8) % 2 ^ 64 ||| byte.toNat = _
  rw [Nat.mod_eq_of_lt hshift, ← Nat.shiftLeft_add_eq_or_of_lt hbyte, Nat.shiftLeft_eq]
  omega

private theorem pow_256_le (n : Nat) (hn : n ≤ 7) : 256 ^ n ≤ 2 ^ 56 := by
  calc 256 ^ n ≤ 256 ^ 7 := Nat.pow_le_pow_right (by decide) hn
    _ = 2 ^ 56 := by norm_num

theorem leWord_toNat (bytes : List UInt8) (hlength : bytes.length ≤ 8) :
    (leWord bytes).toNat = leNat bytes := by
  induction bytes with
  | nil => rfl
  | cons byte rest ih =>
      have hrest : rest.length ≤ 7 := Nat.le_of_succ_le_succ hlength
      have hvalue := ih (by omega)
      have hbound : (leWord rest).toNat < 2 ^ 56 := by
        rw [hvalue]
        exact lt_of_lt_of_le (leNat_lt rest) (pow_256_le _ hrest)
      change ((leWord rest <<< 8) ||| byte.toUInt64).toNat = _
      rw [or_byte_toNat _ _ hbound, hvalue, leNat]
      omega

theorem beWord_toNat (bytes : List UInt8) (hlength : bytes.length ≤ 8) :
    (beWord bytes).toNat = beNat bytes := by
  induction bytes using List.reverseRecOn with
  | nil => rfl
  | append_singleton front byte ih =>
      have hfront : front.length ≤ 7 := by
        rw [List.length_append, List.length_singleton] at hlength
        omega
      have hvalue := ih (by omega)
      have hbound : (beWord front).toNat < 2 ^ 56 := by
        rw [hvalue]
        exact lt_of_lt_of_le (beNat_lt front) (pow_256_le _ hfront)
      have hstep : beWord (front ++ [byte]) =
          (beWord front <<< 8) ||| byte.toUInt64 := by
        simp [beWord]
      have hnat : beNat [byte] = byte.toNat := by simp [beNat]
      rw [hstep, or_byte_toNat _ _ hbound, hvalue, beNat_append, hnat]
      simp
      ring

@[simp] theorem leBytes_length (count : Nat) (word : UInt64) :
    (leBytes count word).length = count := by
  induction count generalizing word with
  | zero => rfl
  | succ count ih => simp [leBytes, ih]

theorem leNat_leBytes (count : Nat) (word : UInt64) :
    leNat (leBytes count word) = word.toNat % 256 ^ count := by
  induction count generalizing word with
  | zero => simp [leBytes, leNat, Nat.mod_one]
  | succ count ih =>
      have hshift : (word >>> 8).toNat = word.toNat / 256 := by
        rw [UInt64.toNat_shiftRight]
        exact Nat.shiftRight_eq_div_pow word.toNat 8
      have hpow : 256 ^ (count + 1) = 256 * 256 ^ count := Nat.pow_succ'
      rw [leBytes, leNat, ih, hshift, UInt64.toNat_toUInt8, hpow, Nat.mod_mul (x := word.toNat)]

@[simp] theorem leWord_leBytes (word : UInt64) : leWord (leBytes 8 word) = word := by
  apply UInt64.toNat_inj.mp
  rw [leWord_toNat _ (by simp), leNat_leBytes]
  exact Nat.mod_eq_of_lt word.toNat_lt

theorem leBytes_leWord (bytes : List UInt8) (hlength : bytes.length = 8) :
    leBytes 8 (leWord bytes) = bytes := by
  apply leNat_injective (by simp [hlength])
  rw [leNat_leBytes, leWord_toNat _ hlength.le]
  apply Nat.mod_eq_of_lt
  rw [← hlength]
  exact leNat_lt bytes

/-- Swapping the bytes of a word read least significant byte first gives the
word read most significant byte first. -/
theorem byteSwap_leWord (bytes : List UInt8) (hlength : bytes.length = 8) :
    byteSwap (leWord bytes) = beWord bytes := by
  rw [byteSwap, leBytes_leWord bytes hlength]

/-- Rotation to the right written as two shifts. -/
def rotateRight (word amount : UInt64) : UInt64 :=
  (word >>> amount) ||| (word <<< (64 - amount))

/-- The word with the given high and low halves. -/
def pack (high low : UInt32) : UInt64 :=
  (high.toUInt64 <<< 32) ||| low.toUInt64

def lowHalf (word : UInt64) : UInt32 := word.toUInt32

def highHalf (word : UInt64) : UInt32 := (word >>> 32).toUInt32

/-- The low half of `high:low` shifted right by `amount` modulo 32. -/
def funnelShift (high low amount : UInt32) : UInt32 :=
  (pack high low >>> (amount &&& 31).toUInt64).toUInt32

theorem eq_of_testBit {first second : UInt64}
    (h : ∀ i < 64, first.toNat.testBit i = second.toNat.testBit i) :
    first = second := by
  apply UInt64.toNat_inj.mp
  apply Nat.eq_of_testBit_eq
  intro i
  by_cases hi : i < 64
  · exact h i hi
  · have hle : 2 ^ 64 ≤ 2 ^ i := Nat.pow_le_pow_right (by decide) (by omega)
    rw [Nat.testBit_lt_two_pow (lt_of_lt_of_le first.toNat_lt hle),
      Nat.testBit_lt_two_pow (lt_of_lt_of_le second.toNat_lt hle)]

private theorem testBit_of_64_le (word : UInt64) (i : Nat) (hi : 64 ≤ i) :
    word.toNat.testBit i = false :=
  Nat.testBit_lt_two_pow
    (lt_of_lt_of_le word.toNat_lt (Nat.pow_le_pow_right (by decide) hi))

theorem rotateRight_testBit (word amount : UInt64) (hpositive : 0 < amount.toNat)
    (hbound : amount.toNat < 64) (i : Nat) (hi : i < 64) :
    (rotateRight word amount).toNat.testBit i =
      word.toNat.testBit ((i + amount.toNat) % 64) := by
  have hrest : (64 - amount).toNat = 64 - amount.toNat := by
    rw [UInt64.toNat_sub_of_le]
    · rfl
    · exact UInt64.le_iff_toNat_le.mpr (by simpa using hbound.le)
  simp only [rotateRight, UInt64.toNat_or, UInt64.toNat_shiftRight, UInt64.toNat_shiftLeft,
    hrest, Nat.testBit_or, Nat.testBit_shiftRight, Nat.testBit_mod_two_pow,
    Nat.testBit_shiftLeft]
  rw [Nat.mod_eq_of_lt hbound, Nat.mod_eq_of_lt (by omega : 64 - amount.toNat < 64)]
  by_cases hwrap : i + amount.toNat < 64
  · have hlow : ¬ (64 - amount.toNat ≤ i) := by omega
    simp [Nat.mod_eq_of_lt hwrap, hlow, Nat.add_comm]
  · have hindex : (i + amount.toNat) % 64 = i - (64 - amount.toNat) := by omega
    rw [testBit_of_64_le word (amount.toNat + i) (by omega), hindex]
    simp [hi]
    omega

theorem pack_testBit (high low : UInt32) (i : Nat) (hi : i < 64) :
    (pack high low).toNat.testBit i =
      if i < 32 then low.toNat.testBit i else high.toNat.testBit (i - 32) := by
  simp only [pack, UInt64.toNat_or, UInt64.toNat_shiftLeft, UInt32.toNat_toUInt64,
    Nat.testBit_or, Nat.testBit_mod_two_pow]
  change (decide (i < 64) && (high.toNat <<< 32).testBit i || low.toNat.testBit i) = _
  rw [Nat.testBit_shiftLeft]
  by_cases hlow : i < 32
  · have hnot : ¬ (32 ≤ i) := by omega
    simp [hlow, hnot]
  · have hzero : low.toNat.testBit i = false :=
      Nat.testBit_lt_two_pow
        (lt_of_lt_of_le low.toNat_lt (Nat.pow_le_pow_right (by decide) (by omega)))
    have hle : 32 ≤ i := by omega
    simp [hlow, hzero, hle, hi]

theorem pack_toNat (high low : UInt32) :
    (pack high low).toNat = high.toNat * 2 ^ 32 + low.toNat := by
  have hlow : low.toNat < 2 ^ 32 := low.toNat_lt
  have hshift : high.toNat <<< 32 < 2 ^ 64 := by
    have hhigh : high.toNat < 2 ^ 32 := high.toNat_lt
    rw [Nat.shiftLeft_eq]
    omega
  rw [pack, UInt64.toNat_or, UInt64.toNat_shiftLeft, UInt32.toNat_toUInt64,
    UInt32.toNat_toUInt64]
  change high.toNat <<< 32 % 2 ^ 64 ||| low.toNat = _
  rw [Nat.mod_eq_of_lt hshift, ← Nat.shiftLeft_add_eq_or_of_lt hlow, Nat.shiftLeft_eq]

theorem lowHalf_testBit (word : UInt64) (i : Nat) (hi : i < 32) :
    (lowHalf word).toNat.testBit i = word.toNat.testBit i := by
  simp only [lowHalf, UInt64.toNat_toUInt32, Nat.testBit_mod_two_pow]
  simp [hi]

theorem highHalf_testBit (word : UInt64) (i : Nat) (hi : i < 32) :
    (highHalf word).toNat.testBit i = word.toNat.testBit (i + 32) := by
  simp only [highHalf, UInt64.toNat_toUInt32, UInt64.toNat_shiftRight, Nat.testBit_mod_two_pow]
  change (decide (i < 32) && (word.toNat >>> 32).testBit i) = _
  rw [Nat.testBit_shiftRight]
  simp [hi, Nat.add_comm]

theorem highHalf_toNat (word : UInt64) : (highHalf word).toNat = word.toNat / 2 ^ 32 := by
  have hword := word.toNat_lt
  rw [highHalf, UInt64.toNat_toUInt32, UInt64.toNat_shiftRight]
  change word.toNat >>> 32 % 2 ^ 32 = _
  rw [Nat.shiftRight_eq_div_pow]
  exact Nat.mod_eq_of_lt (by omega)

theorem lowHalf_toNat (word : UInt64) : (lowHalf word).toNat = word.toNat % 2 ^ 32 :=
  UInt64.toNat_toUInt32 word

/-- Replacing the low half of a word under a mask. -/
theorem and_or_eq_pack (word : UInt64) (low : UInt32) :
    (word &&& 0xffffffff00000000) ||| low.toUInt64 = pack (highHalf word) low := by
  have hmask : ∀ i : Fin 64,
      (0xffffffff00000000 : UInt64).toNat.testBit i.val = decide (32 ≤ i.val) := by decide
  apply eq_of_testBit
  intro i hi
  rw [pack_testBit _ _ _ hi, UInt64.toNat_or, UInt64.toNat_and, Nat.testBit_or, Nat.testBit_and,
    UInt32.toNat_toUInt64, hmask ⟨i, hi⟩]
  by_cases hlow : i < 32
  · simp [hlow, Nat.not_le.mpr hlow]
  · have hzero : low.toNat.testBit i = false :=
      Nat.testBit_lt_two_pow
        (lt_of_lt_of_le low.toNat_lt (Nat.pow_le_pow_right (by decide) (by omega)))
    rw [if_neg hlow, highHalf_testBit _ _ (by omega), Nat.sub_add_cancel (by omega), hzero]
    simp [Nat.le_of_not_lt hlow]

theorem funnelShift_testBit (high low amount : UInt32) (hamount : amount.toNat < 32)
    (i : Nat) (hi : i < 32) :
    (funnelShift high low amount).toNat.testBit i =
      if i + amount.toNat < 32 then low.toNat.testBit (i + amount.toNat)
      else high.toNat.testBit (i + amount.toNat - 32) := by
  have hmask : (amount &&& 31).toNat = amount.toNat := by
    rw [UInt32.toNat_and]
    change amount.toNat &&& (2 ^ 5 - 1) = _
    rw [Nat.and_two_pow_sub_one_eq_mod]
    exact Nat.mod_eq_of_lt hamount
  simp only [funnelShift, UInt64.toNat_toUInt32, UInt64.toNat_shiftRight,
    UInt32.toNat_toUInt64, hmask, Nat.testBit_mod_two_pow]
  rw [Nat.mod_eq_of_lt (by omega : amount.toNat < 64), Nat.testBit_shiftRight,
    Nat.add_comm amount.toNat i, pack_testBit _ _ _ (by omega)]
  simp [hi]

theorem leNat_testBit (bytes : List UInt8) (i : Nat) :
    (leNat bytes).testBit i = (bytes.getD (i / 8) 0).toNat.testBit (i % 8) := by
  induction bytes generalizing i with
  | nil => simp [leNat]
  | cons byte rest ih =>
      have hsplit : leNat (byte :: rest) = 2 ^ 8 * leNat rest + byte.toNat := by
        rw [leNat]
        omega
      rw [hsplit, Nat.testBit_two_pow_mul_add _ byte.toNat_lt]
      by_cases hlow : i < 8
      · have hdiv : i / 8 = 0 := by omega
        have hmod : i % 8 = i := by omega
        simp [hlow, hdiv, hmod]
      · have hdiv : i / 8 = (i - 8) / 8 + 1 := by omega
        have hmod : i % 8 = (i - 8) % 8 := by omega
        simp [hlow, ih, hdiv, hmod]

/-- The byte of a word at position `j`, least significant first. -/
def byteAt (word : UInt64) (j : Nat) : UInt8 := (word >>> (8 * j).toUInt64).toUInt8

theorem byteAt_testBit (word : UInt64) (j i : Nat) (hj : j < 8) (hi : i < 8) :
    (byteAt word j).toNat.testBit i = word.toNat.testBit (8 * j + i) := by
  have hshift : (8 * j).toUInt64.toNat = 8 * j := by
    simp only [Nat.toUInt64_eq, UInt64.toNat_ofNat']
    exact Nat.mod_eq_of_lt (by omega)
  simp only [byteAt, UInt64.toNat_toUInt8, UInt64.toNat_shiftRight, hshift,
    Nat.testBit_mod_two_pow]
  rw [Nat.mod_eq_of_lt (by omega : 8 * j < 64), Nat.testBit_shiftRight]
  simp [hi]

theorem leBytes_eq_byteAt (word : UInt64) :
    leBytes 8 word = List.ofFn fun j : Fin 8 => byteAt word j.val := by
  apply leNat_injective (by simp)
  apply Nat.eq_of_testBit_eq
  intro i
  have hword : word.toNat % 256 ^ 8 = word.toNat := Nat.mod_eq_of_lt word.toNat_lt
  rw [leNat_leBytes, leNat_testBit, hword]
  by_cases hi : i < 64
  · have hindex : i / 8 < 8 := by omega
    simp only [List.getD_eq_getElem?_getD, List.getElem?_ofFn, hindex, dif_pos, Option.getD_some]
    rw [byteAt_testBit _ _ _ hindex (by omega)]
    congr 1
    omega
  · have hindex : ¬ i / 8 < 8 := by omega
    simp [hindex, testBit_of_64_le word i (by omega)]

theorem leWord_reverse (bytes : List UInt8) : leWord bytes.reverse = beWord bytes := by
  simp [leWord, beWord, List.foldr_reverse]

theorem leNat_append (first second : List UInt8) :
    leNat (first ++ second) = leNat first + 256 ^ first.length * leNat second := by
  induction first with
  | nil => simp [leNat]
  | cons byte rest ih =>
      simp only [List.cons_append, leNat, ih, List.length_cons, pow_succ]
      ring

/-- A word assembled from two four-byte halves. -/
theorem pack_leWord (high low : List UInt8) (hhigh : high.length = 4) (hlow : low.length = 4) :
    pack (leWord high).toUInt32 (leWord low).toUInt32 = leWord (low ++ high) := by
  have hhalf (bytes : List UInt8) (hlength : bytes.length = 4) :
      (leWord bytes).toUInt32.toNat = leNat bytes := by
    have hbound := leNat_lt bytes
    rw [hlength] at hbound
    rw [UInt64.toNat_toUInt32, leWord_toNat _ (by omega)]
    exact Nat.mod_eq_of_lt hbound
  apply UInt64.toNat_inj.mp
  rw [leWord_toNat _ (by simp [hhigh, hlow]), leNat_append, hlow, pack_toNat, hhalf high hhigh,
    hhalf low hlow]
  omega

theorem byteAt_eq_of_testBit {first second : UInt64} {j k : Nat} (hj : j < 8) (hk : k < 8)
    (h : ∀ i < 8, first.toNat.testBit (8 * j + i) = second.toNat.testBit (8 * k + i)) :
    byteAt first j = byteAt second k := by
  apply UInt8.toNat_inj.mp
  apply Nat.eq_of_testBit_eq
  intro i
  by_cases hi : i < 8
  · rw [byteAt_testBit _ _ _ hj hi, byteAt_testBit _ _ _ hk hi, h i hi]
  · have hle : 2 ^ 8 ≤ 2 ^ i := Nat.pow_le_pow_right (by decide) (by omega)
    rw [Nat.testBit_lt_two_pow (lt_of_lt_of_le (UInt8.toNat_lt _) hle),
      Nat.testBit_lt_two_pow (lt_of_lt_of_le (UInt8.toNat_lt _) hle)]

theorem byteAt_lowHalf (word : UInt64) (high : UInt32) (j : Nat) (hj : j < 4) :
    byteAt (pack high (lowHalf word)) j = byteAt word j := by
  apply byteAt_eq_of_testBit (by omega) (by omega)
  intro i hi
  rw [pack_testBit _ _ _ (by omega), if_pos (by omega), lowHalf_testBit _ _ (by omega)]

theorem byteAt_highHalf (word : UInt64) (high : UInt32) (j : Nat) (hj : j < 4) :
    byteAt (pack high (highHalf word)) j = byteAt word (j + 4) := by
  apply byteAt_eq_of_testBit (by omega) (by omega)
  intro i hi
  rw [pack_testBit _ _ _ (by omega), if_pos (by omega), highHalf_testBit _ _ (by omega)]
  congr 1
  omega

theorem byteSwap_eq_leWord (word : UInt64) :
    byteSwap word = leWord (List.ofFn fun j : Fin 8 => byteAt word (7 - j.val)) := by
  rw [byteSwap, leBytes_eq_byteAt, ← leWord_reverse]
  rfl

/-- Rotating the eight bytes of a word rotates the word by whole bytes. -/
theorem leWord_bytes_rotated (word amount : UInt64) (k : Nat) (hk : 0 < k) (hk8 : k < 8)
    (hamount : amount.toNat = 8 * k) :
    leWord (List.ofFn fun j : Fin 8 => byteAt word ((j.val + k) % 8)) =
      rotateRight word amount := by
  apply eq_of_testBit
  intro i hi
  rw [rotateRight_testBit word amount (by omega) (by omega) i hi, leWord_toNat _ (by simp),
    leNat_testBit]
  have hindex : i / 8 < 8 := by omega
  simp only [List.getD_eq_getElem?_getD, List.getElem?_ofFn, hindex, dif_pos, Option.getD_some]
  rw [byteAt_testBit _ _ _ (by omega) (by omega)]
  congr 1
  omega

/-- Exchanging the two halves of a word rotates it by 32. -/
theorem pack_halves_swapped (word : UInt64) :
    pack (lowHalf word) (highHalf word) = rotateRight word 32 := by
  apply eq_of_testBit
  intro i hi
  rw [rotateRight_testBit word 32 (by decide) (by decide) i hi, pack_testBit _ _ _ hi]
  change _ = word.toNat.testBit ((i + 32) % 64)
  by_cases hlow : i < 32
  · rw [if_pos hlow, highHalf_testBit _ _ hlow, Nat.mod_eq_of_lt (by omega)]
  · rw [if_neg hlow, lowHalf_testBit _ _ (by omega)]
    congr 1
    omega

/-- Two funnel shifts rotate a word by less than half its width. -/
theorem pack_funnelShift (word : UInt64) (amount : UInt32)
    (hpositive : 0 < amount.toNat) (hbound : amount.toNat < 32) :
    pack (funnelShift (lowHalf word) (highHalf word) amount)
        (funnelShift (highHalf word) (lowHalf word) amount) =
      rotateRight word amount.toUInt64 := by
  apply eq_of_testBit
  intro i hi
  rw [rotateRight_testBit word _ (by simpa using hpositive) (by simp; omega) i hi,
    pack_testBit _ _ _ hi, UInt32.toNat_toUInt64]
  by_cases hlow : i < 32
  · rw [if_pos hlow, funnelShift_testBit _ _ _ hbound _ hlow]
    split
    · rw [lowHalf_testBit _ _ (by omega), Nat.mod_eq_of_lt (by omega)]
    · rw [highHalf_testBit _ _ (by omega)]
      congr 1
      omega
  · rw [if_neg hlow, funnelShift_testBit _ _ _ hbound _ (by omega)]
    split
    · rw [highHalf_testBit _ _ (by omega)]
      congr 1
      omega
    · rw [lowHalf_testBit _ _ (by omega)]
      congr 1
      omega

/-- Funnel shifts of the exchanged halves rotate by more than half the width. -/
theorem pack_funnelShift_swapped (word : UInt64) (amount : UInt32)
    (hbound : amount.toNat < 32) :
    pack (funnelShift (highHalf word) (lowHalf word) amount)
        (funnelShift (lowHalf word) (highHalf word) amount) =
      rotateRight word (32 + amount.toUInt64) := by
  have hsum : (32 + amount.toUInt64).toNat = 32 + amount.toNat := by
    rw [UInt64.toNat_add, UInt32.toNat_toUInt64]
    exact Nat.mod_eq_of_lt (by change 32 + amount.toNat < 2 ^ 64; omega)
  apply eq_of_testBit
  intro i hi
  rw [rotateRight_testBit word _ (by omega) (by omega) i hi,
    pack_testBit _ _ _ hi, hsum]
  by_cases hlow : i < 32
  · rw [if_pos hlow, funnelShift_testBit _ _ _ hbound _ hlow]
    split
    · rw [highHalf_testBit _ _ (by omega)]
      congr 1
      omega
    · rw [lowHalf_testBit _ _ (by omega)]
      congr 1
      omega
  · rw [if_neg hlow, funnelShift_testBit _ _ _ hbound _ (by omega)]
    split
    · rw [lowHalf_testBit _ _ (by omega)]
      congr 1
      omega
    · rw [highHalf_testBit _ _ (by omega)]
      congr 1
      omega

end Supryolo.Words
