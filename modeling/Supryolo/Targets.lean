import Supryolo.Coin
import Supryolo.Lib.Loops
import Mathlib.Data.List.TakeWhile
import Mathlib.Algebra.Order.Floor.Semifield
import Mathlib.Data.Rat.Floor
import Mathlib.Data.Nat.Digits.Defs

/-!
What the two decoders of targets compute. A decimal difficulty denotes a rational
number, a compact one a floating-point number to the base 256; both are scaled
to 256 bits and rounded down. Texts that denote nothing are refused.
-/

namespace Supryolo

open Words

theorem beNat_reverse (bytes : List UInt8) : beNat bytes.reverse = leNat bytes := by
  induction bytes with
  | nil => rfl
  | cons byte rest ih =>
      rw [List.reverse_cons, beNat_append, ih, leNat]
      simp only [beNat, List.foldl_cons, List.foldl_nil, List.length_singleton]
      ring

theorem beNat_injective {first second : List UInt8} (hlength : first.length = second.length)
    (hvalue : beNat first = beNat second) : first = second := by
  apply List.reverse_injective
  apply leNat_injective (by simpa using hlength)
  rw [← beNat_reverse, ← beNat_reverse, List.reverse_reverse, List.reverse_reverse, hvalue]

theorem hash_eq_of_beNat {h h' : Hash} (hvalue : beNat h.toList = beNat h'.toList) : h = h' :=
  Vector.toList_inj.mp (beNat_injective (by simp) hvalue)

theorem toUInt8_toNat (n : Nat) : n.toUInt8.toNat = n % 256 := UInt8.toNat_ofNat' ..

/-- The low bytes of a number spell it modulo a power of 256. -/
theorem beNat_digits (n count : Nat) :
    beNat ((List.range count).map fun i => (n / 256 ^ (count - 1 - i)).toUInt8) = n % 256 ^ count := by
  induction count with
  | zero => simp [beNat, Nat.mod_one]
  | succ count ih =>
      have htail (i : Nat) : count + 1 - 1 - (i + 1) = count - 1 - i := by omega
      rw [List.range_succ_eq_map, List.map_cons, List.map_map, beNat_cons]
      simp only [Function.comp_def, htail, List.length_map, List.length_range]
      rw [ih, toUInt8_toNat, pow_succ, Nat.mod_mul]
      have hfirst : count + 1 - 1 - 0 = count := by omega
      rw [hfirst]
      ring

theorem beNat_hashOfNat {n : Nat} (hn : n < 2 ^ 256) : beNat (hashOfNat n).toList = n := by
  have hbytes : (hashOfNat n).toList = (List.range 32).map fun i => (n / 256 ^ (32 - 1 - i)).toUInt8 := by
    apply List.ext_getElem
    · simp
    · intro i hi hi'
      simp [hashOfNat]
  have hsize : 256 ^ 32 = 2 ^ 256 := by norm_num
  rw [hbytes, beNat_digits, hsize, Nat.mod_eq_of_lt hn]

theorem beNat_ones : beNat (Vector.replicate 32 (255 : UInt8)).toList = 2 ^ 256 - 1 := by
  have hones (count : Nat) : beNat (List.replicate count (255 : UInt8)) + 1 = 256 ^ count := by
    induction count with
    | zero => rfl
    | succ count ih =>
        rw [List.replicate_succ, beNat_cons, List.length_replicate, pow_succ]
        have hbyte : (255 : UInt8).toNat = 255 := rfl
        rw [hbyte]
        omega
  have hall := hones 32
  rw [Vector.toList_replicate]
  norm_num at hall ⊢
  omega

theorem beNat_eq_zero_iff {bytes : List UInt8} : beNat bytes = 0 ↔ bytes.all (· == 0) = true := by
  induction bytes with
  | nil => simp [beNat]
  | cons byte rest ih =>
      have hpositive : 0 < 256 ^ rest.length := by positivity
      have hbyte : byte.toNat = 0 ↔ byte = 0 := by
        rw [← UInt8.toNat_inj]
        rfl
      rw [beNat_cons, List.all_cons, Bool.and_eq_true, ← ih, Nat.add_eq_zero_iff,
        Nat.mul_eq_zero, or_iff_left hpositive.ne', hbyte, beq_iff_eq]

def IsDigit (c : Char) : Prop := '0' ≤ c ∧ c ≤ '9'

/-- The number that decimal digits spell. -/
def decimalNat (digits : Text) : Nat :=
  digits.foldl (fun n c => 10 * n + (c.toNat - '0'.toNat)) 0

/-- Digits with at most one dot and at least one digit, and the number they
denote. -/
inductive Mantissa : Text → ℚ → Prop
  | whole {digits : Text} (hdigits : ∀ c ∈ digits, IsDigit c) (hne : digits ≠ []) :
      Mantissa digits (decimalNat digits)
  | dotted {whole part : Text} (hdigits : ∀ c ∈ whole ++ part, IsDigit c)
      (hne : whole ++ part ≠ []) :
      Mantissa (whole ++ '.' :: part) (decimalNat whole + decimalNat part / 10 ^ part.length)

/-- A mantissa, possibly scaled by a power of ten whose exponent `std::stoi`
reads to its end. -/
inductive Denotes : Text → ℚ → Prop
  | plain {mant : Text} {value : ℚ} (hmant : Mantissa mant value) : Denotes mant value
  | scaled {mant e : Text} {value : ℚ} {mark : Char} {exponent : Int} (hmant : Mantissa mant value)
      (hmark : mark = 'e' ∨ mark = 'E') (hread : stoi e = .ok (exponent, e.length))
      (hlow : -300 ≤ exponent) (hhigh : exponent ≤ 300) :
      Denotes (mant ++ mark :: e) (value * 10 ^ exponent)

/-- The target of a difficulty: the target of difficulty one divided by it,
rounded down and saturated. -/
def targetNat (difficulty : ℚ) : Nat :=
  min (2 ^ 256 - 1) ⌊((65535 * 2 ^ 208 : Nat) : ℚ) / difficulty⌋₊

private theorem decimalNat_foldl (digits : Text) (start : Nat) :
    digits.foldl (fun n c => 10 * n + (c.toNat - '0'.toNat)) start =
      start * 10 ^ digits.length + decimalNat digits := by
  induction digits generalizing start with
  | nil => simp [decimalNat]
  | cons c rest ih =>
      simp only [decimalNat, List.foldl_cons, List.length_cons, pow_succ]
      rw [ih, ih (10 * 0 + (c.toNat - '0'.toNat))]
      ring

theorem decimalNat_append (first second : Text) :
    decimalNat (first ++ second) = decimalNat first * 10 ^ second.length + decimalNat second := by
  rw [decimalNat, List.foldl_append, decimalNat_foldl]
  rfl

/-- The text without its dot, scaled by the places after the dot. -/
theorem decimalNat_dotted (whole part : Text) :
    (decimalNat (whole ++ part) : ℚ) =
      (decimalNat whole + decimalNat part / 10 ^ part.length) * 10 ^ part.length := by
  rw [decimalNat_append]
  push_cast
  field_simp

/-- What the digits and the exponent denote together. -/
def scaledNat (mant : Text) (exponent : Int) : ℚ := decimalNat mant * 10 ^ exponent

private def splitMantissa (mant : Text) (exponent : Int) : Text × Int :=
  if '.' ∈ mant then
    let dot := mant.idxOf '.'
    (mant.eraseIdx dot, exponent - (mant.length - dot - 1 : Nat))
  else (mant, exponent)

private theorem splitMantissa_whole {mant : Text} (hdot : '.' ∉ mant) (exponent : Int) :
    splitMantissa mant exponent = (mant, exponent) := by
  rw [splitMantissa, if_neg hdot]

private theorem splitMantissa_dotted {whole part : Text} (hdot : '.' ∉ whole) (exponent : Int) :
    splitMantissa (whole ++ '.' :: part) exponent = (whole ++ part, exponent - part.length) := by
  have hindex : (whole ++ '.' :: part).idxOf '.' = whole.length := by
    rw [List.idxOf_append_of_notMem hdot, List.idxOf_cons_self, Nat.add_zero]
  have hlength : (whole ++ '.' :: part).length - whole.length - 1 = part.length := by
    simp only [List.length_append, List.length_cons]
    omega
  rw [splitMantissa, if_pos (by simp)]
  dsimp only
  rw [hindex, hlength, List.eraseIdx_append_of_length_le (le_refl _)]
  simp

private theorem dot_not_digit : ¬ IsDigit '.' := by
  rintro ⟨hlow, -⟩
  exact absurd hlow (by decide)

private theorem mark_not_digit {mark : Char} (hmark : mark = 'e' ∨ mark = 'E') : ¬ IsDigit mark := by
  rintro ⟨-, hhigh⟩
  rcases hmark with rfl | rfl
  · exact absurd hhigh (by decide)
  · exact absurd hhigh (by decide)

/-- Whether the exponent starts here, as `splitDecimal` asks. -/
private def isMark (c : Char) : Bool := c = 'e' || c = 'E'

private theorem isMark_iff {c : Char} : isMark c = true ↔ c = 'e' ∨ c = 'E' := by
  simp [isMark]

private theorem Mantissa.no_mark {mant : Text} {value : ℚ} (h : Mantissa mant value) :
    ∀ c ∈ mant, isMark c = false := by
  have hdigit {c : Char} (hc : IsDigit c) : isMark c = false := by
    rw [Bool.eq_false_iff]
    exact fun hmark => mark_not_digit (isMark_iff.mp hmark) hc
  intro c hc
  cases h with
  | whole hdigits => exact hdigit (hdigits c hc)
  | dotted hdigits =>
      rcases List.mem_append.mp hc with hc | hc
      · exact hdigit (hdigits c (List.mem_append_left _ hc))
      · rcases List.mem_cons.mp hc with rfl | hc
        · decide
        · exact hdigit (hdigits c (List.mem_append_right _ hc))

/-- Splitting a mantissa leaves digits that denote the same number. -/
private theorem Mantissa.split {mant : Text} {value : ℚ} (h : Mantissa mant value)
    (exponent : Int) :
    ∃ digits places, splitMantissa mant exponent = (digits, places) ∧ digits ≠ [] ∧
      (∀ c ∈ digits, IsDigit c) ∧ value * 10 ^ exponent = scaledNat digits places := by
  cases h with
  | whole hdigits hne =>
      exact ⟨mant, exponent, splitMantissa_whole (fun hdot => dot_not_digit (hdigits _ hdot)) _, hne,
        hdigits, rfl⟩
  | @dotted whole part hdigits hne =>
      have hdot : '.' ∉ whole := fun hmem =>
        dot_not_digit (hdigits _ (List.mem_append_left _ hmem))
      refine ⟨whole ++ part, exponent - part.length, splitMantissa_dotted hdot exponent, hne,
        hdigits, ?_⟩
      rw [scaledNat, decimalNat_dotted, zpow_sub₀ (by norm_num), zpow_natCast]
      field_simp

/-- What can be split into digits is a mantissa. -/
private theorem mantissa_of_split {mant digits : Text} {exponent places : Int}
    (h : splitMantissa mant exponent = (digits, places)) (hne : digits ≠ [])
    (hdigits : ∀ c ∈ digits, IsDigit c) :
    ∃ value, Mantissa mant value ∧ value * 10 ^ exponent = scaledNat digits places := by
  by_cases hdot : '.' ∈ mant
  · obtain ⟨whole, part, rfl, hfirst⟩ := List.eq_append_cons_of_mem hdot
    rw [splitMantissa_dotted hfirst] at h
    obtain ⟨rfl, rfl⟩ := Prod.mk.inj h
    refine ⟨_, .dotted hdigits hne, ?_⟩
    rw [scaledNat, decimalNat_dotted, zpow_sub₀ (by norm_num), zpow_natCast]
    field_simp
  · rw [splitMantissa_whole hdot] at h
    obtain ⟨rfl, rfl⟩ := Prod.mk.inj h
    exact ⟨_, .whole hdigits hne, rfl⟩

private theorem splitDecimal_eq (decimal : Text) :
    splitDecimal decimal =
      if decimal.any isMark then
        match stoi (decimal.drop ((decimal.takeWhile fun c => !isMark c).length + 1)) with
        | .error e => .error e
        | .ok (exponent, n) =>
            if n ≠ (decimal.drop ((decimal.takeWhile fun c => !isMark c).length + 1)).length ∨
                exponent > 300 ∨ exponent < -300 then
              .error "difficulty exponent"
            else .ok (splitMantissa (decimal.takeWhile fun c => !isMark c) exponent)
      else .ok (splitMantissa (decimal.takeWhile fun c => !isMark c) 0) := by
  have hlast (mant : Text) (exponent : Int) :
      (if '.' ∈ mant then
        (pure (mant.eraseIdx (mant.idxOf '.'), exponent - (mant.length - mant.idxOf '.' - 1 : Nat)) :
          Except String (Text × Int))
      else pure (mant, exponent)) = .ok (splitMantissa mant exponent) := by
    unfold splitMantissa
    split <;> rfl
  unfold splitDecimal
  change (if decimal.any isMark = true then _ else _) = _
  cases decimal.any isMark with
  | false => exact hlast _ 0
  | true =>
      simp only [if_true]
      change (stoi (decimal.drop ((decimal.takeWhile fun c => !isMark c).length + 1)) >>= _) = _
      cases stoi (decimal.drop ((decimal.takeWhile fun c => !isMark c).length + 1)) with
      | error e => rfl
      | ok read =>
          obtain ⟨exponent, n⟩ := read
          dsimp only
          rw [Loops.ok_bind]
          split
          · rename_i hbad
            exact (if_pos hbad).symm
          · rename_i hgood
            exact (hlast _ exponent).trans (if_neg hgood).symm

/-- A text denotes a number exactly when it splits into digits and an
exponent. -/
private theorem denotes_iff {decimal : Text} {d : ℚ} :
    Denotes decimal d ↔ ∃ digits places, splitDecimal decimal = .ok (digits, places) ∧
      digits ≠ [] ∧ (∀ c ∈ digits, IsDigit c) ∧ d = scaledNat digits places := by
  constructor
  · intro h
    cases h with
    | plain hmant =>
        have hmark := hmant.no_mark
        have hany : decimal.any isMark = false := by simpa using hmark
        have hall : decimal.takeWhile (fun c => !isMark c) = decimal :=
          List.takeWhile_eq_self_iff.mpr fun c hc => by rw [hmark c hc]; rfl
        obtain ⟨digits, places, hsplit, hne, hdigits, hvalue⟩ := hmant.split 0
        refine ⟨digits, places, ?_, hne, hdigits, by simpa using hvalue⟩
        rw [splitDecimal_eq, hany, hall, if_neg Bool.false_ne_true, hsplit]
    | @scaled mant e value mark exponent hmant hmark hread hlow hhigh =>
        have hnone := hmant.no_mark
        have hmark' : isMark mark = true := isMark_iff.mpr hmark
        have hany : (mant ++ mark :: e).any isMark = true := by simp [hmark']
        have hall : (mant ++ mark :: e).takeWhile (fun c => !isMark c) = mant := by
          rw [List.takeWhile_append_of_pos fun c hc => by rw [hnone c hc]; rfl,
            List.takeWhile_cons_of_neg (by simp [hmark']), List.append_nil]
        have hdrop : (mant ++ mark :: e).drop (mant.length + 1) = e := by simp
        obtain ⟨digits, places, hsplit, hne, hdigits, hvalue⟩ := hmant.split exponent
        refine ⟨digits, places, ?_, hne, hdigits, hvalue⟩
        rw [splitDecimal_eq, hany, hall, hdrop, hread, if_pos rfl]
        dsimp only
        rw [if_neg (by omega), hsplit]
  · rintro ⟨digits, places, hsplit, hne, hdigits, rfl⟩
    rw [splitDecimal_eq] at hsplit
    cases hany : decimal.any isMark with
    | false =>
        have hall : decimal.takeWhile (fun c => !isMark c) = decimal := by
          refine List.takeWhile_eq_self_iff.mpr fun c hc => ?_
          rw [List.any_eq_false] at hany
          simpa using hany c hc
        rw [hany, hall, if_neg Bool.false_ne_true] at hsplit
        obtain ⟨value, hmant, hvalue⟩ := mantissa_of_split (Except.ok.inj hsplit) hne hdigits
        rw [← hvalue, zpow_zero, mul_one]
        exact .plain hmant
    | true =>
        rw [hany, if_pos rfl] at hsplit
        have hcut := List.takeWhile_append_dropWhile (p := fun c => !isMark c) (l := decimal)
        cases htail : decimal.dropWhile fun c => !isMark c with
        | nil =>
            rw [List.dropWhile_eq_nil_iff] at htail
            obtain ⟨c, hc, hmark⟩ := List.any_eq_true.mp hany
            have hnone := htail c hc
            rw [hmark] at hnone
            cases hnone
        | cons mark e =>
            have hmark : isMark mark = true := by
              have hhead := List.head_dropWhile_not (fun c => !isMark c) (l := decimal)
                (by rw [htail]; exact List.cons_ne_nil _ _)
              simpa [htail] using hhead
            rw [htail] at hcut
            have hdrop : decimal.drop ((decimal.takeWhile fun c => !isMark c).length + 1) = e := by
              calc decimal.drop ((decimal.takeWhile fun c => !isMark c).length + 1)
                  = ((decimal.takeWhile fun c => !isMark c) ++ mark :: e).drop
                      ((decimal.takeWhile fun c => !isMark c).length + 1) := by rw [hcut]
                _ = e := by simp
            rw [hdrop] at hsplit
            cases hread : stoi e with
            | error _ => rw [hread] at hsplit; cases hsplit
            | ok read =>
                obtain ⟨exponent, n⟩ := read
                rw [hread] at hsplit
                dsimp only at hsplit
                obtain ⟨hgood, hmantissa⟩ := Loops.guard_eq_ok.mp hsplit
                simp only [not_or, not_not, not_lt] at hgood
                obtain ⟨rfl, hhigh, hlow⟩ := hgood
                obtain ⟨value, hmant, hvalue⟩ :=
                  mantissa_of_split (Except.ok.inj hmantissa) hne hdigits
                rw [← hvalue, ← hcut]
                exact .scaled hmant (isMark_iff.mp hmark) hread hlow hhigh

/-- Dividing in whole numbers rounds the quotient down. -/
private theorem quotient_eq (unit : Nat) {den : Nat} (hden : den ≠ 0) (exponent : Int) :
    (if exponent < 0 then unit * 10 ^ exponent.natAbs / den
      else unit / (den * 10 ^ exponent.natAbs)) = ⌊(unit : ℚ) / (den * 10 ^ exponent)⌋₊ := by
  have hden' : (den : ℚ) ≠ 0 := by exact_mod_cast hden
  split
  · rename_i hnegative
    obtain ⟨k, hk⟩ : ∃ k : Nat, exponent = -k := ⟨exponent.natAbs, by omega⟩
    have hscaled : (unit : ℚ) / (den * 10 ^ exponent) = ((unit * 10 ^ k : Nat) : ℚ) / (den : ℚ) := by
      rw [hk, zpow_neg, zpow_natCast]
      push_cast
      field_simp
    rw [hscaled, Nat.floor_div_eq_div, hk, Int.natAbs_neg, Int.natAbs_natCast]
  · rename_i hpositive
    obtain ⟨k, hk⟩ : ∃ k : Nat, exponent = k := ⟨exponent.natAbs, by omega⟩
    have hscaled : (unit : ℚ) / (den * 10 ^ exponent) = (unit : ℚ) / ((den * 10 ^ k : Nat) : ℚ) := by
      rw [hk, zpow_natCast]
      push_cast
      rfl
    rw [hscaled, Nat.floor_div_eq_div, hk, Int.natAbs_natCast]

private theorem saturated {out : Nat} :
    beNat (if out ≥ 2 ^ 256 then Vector.replicate 32 255 else hashOfNat out).toList =
      min (2 ^ 256 - 1) out := by
  split
  · rw [beNat_ones]
    omega
  · rw [beNat_hashOfNat (by omega)]
    omega

private theorem any_not_digit {mant : Text} :
    (mant.any fun c => !('0' ≤ c && c ≤ '9')) = false ↔ ∀ c ∈ mant, IsDigit c := by
  simp [List.any_eq_false, IsDigit]

theorem scaledNat_pos_iff {mant : Text} {exponent : Int} :
    0 < scaledNat mant exponent ↔ decimalNat mant ≠ 0 := by
  have hscale : (0 : ℚ) < 10 ^ exponent := by positivity
  rw [scaledNat, mul_pos_iff_of_pos_right hscale, Nat.cast_pos, Nat.pos_iff_ne_zero]

/-- The result for every text: the target of the number it denotes, and an
exception where it denotes no positive number or is too long. -/
theorem difficultyTarget_ok_iff {decimal : Text} {h : Hash} :
    difficultyTarget decimal = .ok h ↔ decimal.length ≤ 96 ∧
      ∃ d, Denotes decimal d ∧ 0 < d ∧ beNat h.toList = targetNat d := by
  have hresult (digits : Text) (places : Int) (hne : decimalNat digits ≠ 0) (out : Nat)
      (hout : out = if places < 0 then 65535 * 2 ^ 208 * 10 ^ places.natAbs / decimalNat digits
        else 65535 * 2 ^ 208 / (decimalNat digits * 10 ^ places.natAbs)) :
      (if out ≥ 2 ^ 256 then Vector.replicate 32 255 else hashOfNat out) = h ↔
        beNat h.toList = targetNat (scaledNat digits places) := by
    rw [targetNat, scaledNat, ← quotient_eq _ hne, ← hout, ← saturated]
    exact ⟨fun heq => by rw [heq], fun heq => (hash_eq_of_beNat heq).symm⟩
  constructor
  · intro hok
    obtain ⟨hlength, hok⟩ := Loops.guard_eq_ok.mp hok
    obtain ⟨⟨digits, places⟩, hsplit, hok⟩ := Loops.bind_eq_ok.mp hok
    obtain ⟨hdigits, hok⟩ := Loops.guard_eq_ok.mp hok
    obtain ⟨hzero, hok⟩ := Loops.guard_eq_ok.mp hok
    simp only [not_or, Bool.not_eq_true] at hlength hdigits
    refine ⟨by omega, scaledNat digits places, ?_, scaledNat_pos_iff.mpr hzero, ?_⟩
    · exact denotes_iff.mpr ⟨digits, places, hsplit, hdigits.1, any_not_digit.mp hdigits.2, rfl⟩
    · exact (hresult digits places hzero _ rfl).mp (Loops.pure_eq_ok.mp hok)
  · rintro ⟨hlength, d, hdenotes, hpositive, hvalue⟩
    obtain ⟨digits, places, hsplit, hne, hdigits, rfl⟩ := denotes_iff.mp hdenotes
    have hzero := scaledNat_pos_iff.mp hpositive
    have hdecimal : decimal ≠ [] := by
      rintro rfl
      obtain ⟨rfl, -⟩ := Prod.mk.inj (Except.ok.inj hsplit)
      exact hne rfl
    rw [difficultyTarget, if_neg (by simp [hdecimal]; omega)]
    simp only [hsplit, Loops.ok_bind]
    have hzero' : ¬ digits.foldl (fun n c => 10 * n + (c.toNat - '0'.toNat)) 0 = 0 := hzero
    rw [if_neg (by simpa [hne, IsDigit] using hdigits), if_neg hzero']
    exact congrArg Except.ok ((hresult digits places hzero _ rfl).mpr hvalue)

theorem Denotes.unique {decimal : Text} {d d' : ℚ} (h : Denotes decimal d)
    (h' : Denotes decimal d') : d = d' := by
  obtain ⟨digits, places, hsplit, -, -, rfl⟩ := denotes_iff.mp h
  obtain ⟨digits', places', hsplit', -, -, rfl⟩ := denotes_iff.mp h'
  obtain ⟨rfl, rfl⟩ := Prod.mk.inj (Except.ok.inj (hsplit.symm.trans hsplit'))
  rfl

theorem targetNat_antitone {d d' : ℚ} (hpositive : 0 < d) (hle : d ≤ d') :
    targetNat d' ≤ targetNat d := by
  have hquotients : ((65535 * 2 ^ 208 : Nat) : ℚ) / d' ≤ ((65535 * 2 ^ 208 : Nat) : ℚ) / d :=
    div_le_div_of_nonneg_left (Nat.cast_nonneg _) hpositive hle
  exact min_le_min (le_refl _) (Nat.floor_le_floor hquotients)

/-- A decimal difficulty is converted exactly: a text gives a target when it has
at most 96 characters and denotes a positive number, and the target is that of
the number. So the target depends on the number alone and does not grow with
it. -/
theorem difficulty_target_exact :
    (∀ decimal h, difficultyTarget decimal = .ok h ↔ 1 ≤ decimal.length ∧ decimal.length ≤ 96 ∧
      ∃ d, Denotes decimal d ∧ 0 < d ∧ beNat h.toList = targetNat d) ∧
    (∀ a b d h h', Denotes a d → Denotes b d → difficultyTarget a = .ok h →
      difficultyTarget b = .ok h' → h = h') ∧
    ∀ a b d d' h h', Denotes a d → Denotes b d' → d ≤ d' → difficultyTarget a = .ok h →
      difficultyTarget b = .ok h' → beNat h'.toList ≤ beNat h.toList := by
  have hvalue {decimal : Text} {d : ℚ} {h : Hash} (hdenotes : Denotes decimal d)
      (hok : difficultyTarget decimal = .ok h) : 0 < d ∧ beNat h.toList = targetNat d := by
    obtain ⟨-, d', hdenotes', hpositive, hbytes⟩ := difficultyTarget_ok_iff.mp hok
    rw [hdenotes.unique hdenotes']
    exact ⟨hpositive, hbytes⟩
  refine ⟨?_, ?_, ?_⟩
  · intro decimal h
    rw [difficultyTarget_ok_iff]
    refine ⟨?_, fun hok => hok.2⟩
    rintro ⟨hlength, d, hdenotes, hrest⟩
    refine ⟨?_, hlength, d, hdenotes, hrest⟩
    rw [Nat.one_le_iff_ne_zero, Ne, List.length_eq_zero_iff]
    rintro rfl
    obtain ⟨digits, places, hsplit, hne, -⟩ := denotes_iff.mp hdenotes
    obtain ⟨rfl, -⟩ := Prod.mk.inj (Except.ok.inj hsplit)
    exact hne rfl
  · intro a b d h h' ha hb hok hok'
    exact hash_eq_of_beNat ((hvalue ha hok).2.trans (hvalue hb hok').2.symm)
  · intro a b d d' h h' ha hb hle hok hok'
    obtain ⟨hpositive, hbytes⟩ := hvalue ha hok
    rw [hbytes, (hvalue hb hok').2]
    exact targetNat_antitone hpositive hle

/-- `c` is the hexadecimal digit of `n`, of either case. -/
def IsHex (c : Char) (n : Nat) : Prop :=
  "0123456789abcdef".toList[n]? = some c ∨ "0123456789ABCDEF".toList[n]? = some c

/-- The hexadecimal digits of a text spell a number. -/
def HexNumber (text : Text) (n : Nat) : Prop :=
  ∃ digits : List Nat, List.Forall₂ IsHex text digits ∧ n = Nat.ofDigits 16 digits.reverse

private theorem ofNat_of_toNat {c : Char} {n : Nat} (h : c.toNat = n) : c = Char.ofNat n := by
  rw [← h, Char.ofNat_toNat]

theorem nib_iff {c : Char} {v : UInt8} : nib c = .ok v ↔ IsHex c v.toNat := by
  constructor
  · intro h
    unfold nib at h
    split at h
    · rename_i hrange
      obtain rfl := Loops.pure_eq_ok.mp h
      have hlow : 48 ≤ c.toNat := hrange.1
      have hhigh : c.toNat ≤ 57 := hrange.2
      interval_cases hc : c.toNat <;> rw [ofNat_of_toNat hc] <;> exact Or.inl rfl
    · split at h
      · rename_i hrange
        obtain rfl := Loops.pure_eq_ok.mp h
        have hlow : 97 ≤ c.toNat := hrange.1
        have hhigh : c.toNat ≤ 102 := hrange.2
        interval_cases hc : c.toNat <;> rw [ofNat_of_toNat hc] <;> exact Or.inl rfl
      · split at h
        · rename_i hrange
          obtain rfl := Loops.pure_eq_ok.mp h
          have hlow : 65 ≤ c.toNat := hrange.1
          have hhigh : c.toNat ≤ 70 := hrange.2
          interval_cases hc : c.toNat <;> rw [ofNat_of_toNat hc] <;> exact Or.inr rfl
        · cases h
  · intro h
    have hv : v = UInt8.ofNat v.toNat := (UInt8.ofNat_toNat).symm
    have hlt : v.toNat < 16 := by
      rcases h with h | h <;> simpa using (List.getElem?_eq_some_iff.mp h).1
    rw [hv]
    generalize v.toNat = n at h hlt
    interval_cases n <;> rcases h with h | h <;> cases h <;> rfl

private theorem nibbles_toNat {high low : UInt8} (hhigh : high.toNat < 16) (hlow : low.toNat < 16) :
    (high <<< 4 ||| low).toNat = 16 * high.toNat + low.toNat := by
  have hshift : (high <<< 4).toNat = high.toNat * 2 ^ 4 := by
    rw [UInt8.toNat_shiftLeft, Nat.shiftLeft_eq]
    change high.toNat * 2 ^ 4 % 256 = _
    omega
  rw [UInt8.toNat_or, hshift, Nat.mul_comm, ← Nat.two_pow_add_eq_or_of_lt (by omega)]

theorem hexNumber_cons {c : Char} {rest : Text} {n : Nat} :
    HexNumber (c :: rest) n ↔
      ∃ x m, IsHex c x ∧ HexNumber rest m ∧ n = x * 16 ^ rest.length + m := by
  constructor
  · rintro ⟨digits, hdigits, rfl⟩
    cases hdigits with
    | @cons _ x _ later hx hlater =>
        refine ⟨x, _, hx, ⟨later, hlater, rfl⟩, ?_⟩
        rw [List.reverse_cons, Nat.ofDigits_append, Nat.ofDigits_singleton, List.length_reverse,
          hlater.length_eq]
        ring
  · rintro ⟨x, m, hx, ⟨later, hlater, rfl⟩, rfl⟩
    refine ⟨x :: later, .cons hx hlater, ?_⟩
    rw [List.reverse_cons, Nat.ofDigits_append, Nat.ofDigits_singleton, List.length_reverse,
      hlater.length_eq]
    ring

private theorem byte_of_hex {x y : Nat} (hx : x < 16) (hy : y < 16) :
    (UInt8.ofNat x <<< 4 ||| UInt8.ofNat y).toNat = 16 * x + y := by
  have hx' : (UInt8.ofNat x).toNat = x := by rw [UInt8.toNat_ofNat']; omega
  have hy' : (UInt8.ofNat y).toNat = y := by rw [UInt8.toNat_ofNat']; omega
  rw [nibbles_toNat (by omega) (by omega), hx', hy']

private theorem isHex_lt {c : Char} {n : Nat} (h : IsHex c n) : n < 16 := by
  rcases h with h | h <;> simpa using (List.getElem?_eq_some_iff.mp h).1

private theorem pair_value (x y k m : Nat) :
    x * 16 ^ (2 * k + 1) + (y * 16 ^ (2 * k) + m) = (16 * x + y) * 256 ^ k + m := by
  have hbase : (16 : Nat) ^ (2 * k) = 256 ^ k := by rw [pow_mul]; norm_num
  rw [pow_succ, hbase]
  ring

theorem unhexPairs_ok {text : Text} {bytes : Bytes} (heven : text.length % 2 = 0)
    (h : unhexPairs text = .ok bytes) :
    text.length = 2 * bytes.length ∧ HexNumber text (beNat bytes) := by
  induction text using unhexPairs.induct generalizing bytes with
  | case1 high low rest ih =>
      rw [unhexPairs] at h
      obtain ⟨x, hx, h⟩ := Loops.bind_eq_ok.mp h
      obtain ⟨y, hy, h⟩ := Loops.bind_eq_ok.mp h
      obtain ⟨more, hmore, h⟩ := Loops.bind_eq_ok.mp h
      obtain rfl := Loops.pure_eq_ok.mp h
      simp only [List.length_cons] at heven ⊢
      obtain ⟨hlength, hnumber⟩ := ih (by omega) hmore
      have hx := nib_iff.mp hx
      have hy := nib_iff.mp hy
      refine ⟨by omega, hexNumber_cons.mpr ⟨_, _, hx, hexNumber_cons.mpr ⟨_, _, hy, hnumber, rfl⟩, ?_⟩⟩
      rw [beNat_cons, nibbles_toNat (isHex_lt hx) (isHex_lt hy), List.length_cons, hlength,
        pair_value]
  | case2 text hshort =>
      have hnil : text = [] := by
        cases text with
        | nil => rfl
        | cons high text =>
            cases text with
            | nil => simp at heven
            | cons low rest => exact absurd rfl (hshort high low rest)
      subst hnil
      obtain rfl := Loops.pure_eq_ok.mp h
      exact ⟨rfl, [], .nil, rfl⟩

theorem unhexPairs_of_hexNumber {text : Text} {n k : Nat} (hlength : text.length = 2 * k)
    (h : HexNumber text n) :
    ∃ bytes, unhexPairs text = .ok bytes ∧ bytes.length = k ∧ beNat bytes = n := by
  induction k generalizing text n with
  | zero =>
      obtain rfl := List.length_eq_zero_iff.mp hlength
      obtain ⟨digits, hdigits, rfl⟩ := h
      cases hdigits
      exact ⟨[], rfl, rfl, rfl⟩
  | succ k ih =>
      match text, hlength with
      | high :: low :: rest, hlength =>
          have hrest : rest.length = 2 * k := by simpa [Nat.mul_succ] using hlength
          obtain ⟨x, _, hx, hmore, rfl⟩ := hexNumber_cons.mp h
          obtain ⟨y, m, hy, hnumber, rfl⟩ := hexNumber_cons.mp hmore
          obtain ⟨bytes, hbytes, hcount, rfl⟩ := ih hrest hnumber
          have hread {c : Char} {v : Nat} (hc : IsHex c v) : nib c = .ok (UInt8.ofNat v) := by
            rw [nib_iff, UInt8.toNat_ofNat', Nat.mod_eq_of_lt (by have := isHex_lt hc; omega)]
            exact hc
          refine ⟨(UInt8.ofNat x <<< 4 ||| UInt8.ofNat y) :: bytes, ?_, by simpa using hcount, ?_⟩
          · rw [unhexPairs, hread hx, hread hy, hbytes]
            rfl
          · rw [beNat_cons, byte_of_hex (isHex_lt hx) (isHex_lt hy), List.length_cons, hrest, hcount,
              pair_value]

/-- Texts that can be decoded are hexadecimal numbers of an even length. -/
theorem unhex_iff {text : Text} {n k : Nat} :
    (∃ bytes, unhex text = .ok bytes ∧ bytes.length = k ∧ beNat bytes = n) ↔
      text.length = 2 * k ∧ HexNumber text n := by
  constructor
  · rintro ⟨bytes, hbytes, rfl, rfl⟩
    obtain ⟨heven, hpairs⟩ := Loops.guard_eq_ok.mp hbytes
    exact unhexPairs_ok (not_not.mp heven) hpairs
  · rintro ⟨hlength, hnumber⟩
    rw [unhex, if_neg (by omega)]
    exact unhexPairs_of_hexNumber hlength hnumber

/-! ### Compact targets -/

/-- The number a compact target denotes, rounded down. -/
def compactNat (exponent mantissa : Nat) : Nat :=
  ⌊(mantissa : ℚ) * 256 ^ ((exponent : ℤ) - 3)⌋₊

theorem compactNat_small {exponent : Nat} (mantissa : Nat) (hsmall : exponent ≤ 3) :
    compactNat exponent mantissa = mantissa / 2 ^ (8 * (3 - exponent)) := by
  obtain ⟨k, hk⟩ : ∃ k : Nat, 3 = exponent + k := ⟨3 - exponent, by omega⟩
  have hshift : (exponent : ℤ) - 3 = -(k : ℤ) := by omega
  have hpower : 2 ^ (8 * (3 - exponent)) = 256 ^ k := by
    rw [show 3 - exponent = k by omega, pow_mul]
    norm_num
  rw [compactNat, hshift, hpower, zpow_neg, zpow_natCast, ← div_eq_mul_inv,
    ← Nat.floor_div_eq_div (K := ℚ)]
  push_cast
  rfl

theorem compactNat_large {exponent : Nat} (mantissa : Nat) (hlarge : 3 ≤ exponent) :
    compactNat exponent mantissa = mantissa * 256 ^ (exponent - 3) := by
  obtain ⟨k, rfl⟩ := Nat.exists_eq_add_of_le hlarge
  have hshift : ((3 + k : Nat) : ℤ) - 3 = (k : ℤ) := by omega
  rw [compactNat, hshift, zpow_natCast, Nat.add_sub_cancel_left]
  exact_mod_cast Nat.floor_natCast (R := ℚ) (mantissa * 256 ^ k)

/-- A byte written where there was none counts at its place. -/
private theorem beNat_set (bytes : List UInt8) (i : Nat) (byte : UInt8) (hi : i < bytes.length)
    (hzero : bytes[i] = 0) :
    beNat (bytes.set i byte) = beNat bytes + byte.toNat * 256 ^ (bytes.length - 1 - i) := by
  induction bytes generalizing i with
  | nil => cases hi
  | cons first rest ih =>
      cases i with
      | zero =>
          obtain rfl : first = 0 := hzero
          rw [List.set_cons_zero, beNat_cons, beNat_cons]
          simp
          ring
      | succ i =>
          have hrest : i < rest.length := by simpa using hi
          rw [List.set_cons_succ, beNat_cons, beNat_cons, ih i hrest hzero, List.length_set,
            List.length_cons, show rest.length + 1 - 1 - (i + 1) = rest.length - 1 - i by omega]
          ring

/-- The three bytes of a mantissa, written from a position on. -/
private theorem beNat_placed {n p : Nat} (hp : p + 2 < n) (a b c : UInt8) :
    beNat ((((List.replicate n (0 : UInt8)).set p a).set (p + 1) b).set (p + 2) c) =
      beNat [a, b, c] * 256 ^ (n - 3 - p) := by
  have hzeros : beNat (List.replicate n (0 : UInt8)) = 0 :=
    beNat_eq_zero_iff.mpr (by simp)
  rw [beNat_set _ _ _ (by simp; omega) (by simp),
    beNat_set _ _ _ (by simp; omega) (by simp),
    beNat_set _ _ _ (by simp; omega) (by simp), hzeros]
  simp only [List.length_set, List.length_replicate]
  obtain ⟨k, hk⟩ : ∃ k, n - 3 - p = k ∧ n - 1 - (p + 2) = k ∧ n - 1 - (p + 1) = k + 1 ∧
      n - 1 - p = k + 2 := ⟨n - 3 - p, by omega, by omega, by omega, by omega⟩
  rw [hk.1, hk.2.1, hk.2.2.1, hk.2.2.2]
  simp only [beNat, List.foldl_cons, List.foldl_nil, pow_succ]
  ring

private theorem mantissa_bytes (a b c : UInt8) :
    (beNat [a, b, c] / 2 ^ 16).toUInt8 = a ∧ (beNat [a, b, c] / 2 ^ 8).toUInt8 = b ∧
      (beNat [a, b, c] / 2 ^ 0).toUInt8 = c := by
  have ha := a.toNat_lt
  have hb := b.toNat_lt
  have hc := c.toNat_lt
  simp only [beNat, List.foldl_cons, List.foldl_nil]
  refine ⟨?_, ?_, ?_⟩ <;> apply UInt8.toNat_inj.mp <;> rw [toUInt8_toNat] <;> omega

/-- The loop writes the bytes that lie inside the target; it throws when one that
lies outside is not zero. -/
private theorem placed_iff {exponent : Nat} (hlow : 4 ≤ exponent) (hhigh : exponent ≤ 34)
    (a b c : UInt8) {out : Hash} :
    [0, 1, 2].foldlM (placeMantissa exponent (beNat [a, b, c])) (Vector.replicate 32 0) = .ok out ↔
      compactNat exponent (beNat [a, b, c]) < 2 ^ 256 ∧
        beNat out.toList = compactNat exponent (beNat [a, b, c]) := by
  obtain ⟨hfirst, hsecond, hthird⟩ := mantissa_bytes a b c
  have hinside {i : Nat} {byte : UInt8} (hi : exponent ≤ 32 + i)
      (hbyte : (beNat [a, b, c] / 2 ^ (16 - i * 8)).toUInt8 = byte) (target : Hash) :
      placeMantissa exponent (beNat [a, b, c]) target i =
        .ok (target.setIfInBounds (32 + i - exponent) byte) := by
    have hposition : ((32 : Int) - exponent + i).toNat = 32 + i - exponent := by omega
    rw [placeMantissa, hbyte, if_neg (by omega), hposition]
    rfl
  have houtside {i : Nat} {byte : UInt8} (hi : 32 + i < exponent)
      (hbyte : (beNat [a, b, c] / 2 ^ (16 - i * 8)).toUInt8 = byte) (target : Hash) :
      placeMantissa exponent (beNat [a, b, c]) target i =
        if byte ≠ 0 then .error "compact target overflow" else .ok target := by
    rw [placeMantissa, hbyte, if_pos (by omega)]
    rfl
  have hloop : [0, 1, 2].foldlM (placeMantissa exponent (beNat [a, b, c])) (Vector.replicate 32 0) =
      (do
        let out ← placeMantissa exponent (beNat [a, b, c]) (Vector.replicate 32 0) 0
        let out ← placeMantissa exponent (beNat [a, b, c]) out 1
        placeMantissa exponent (beNat [a, b, c]) out 2) := by
    simp only [List.foldlM_cons, List.foldlM_nil, bind_pure]
  have hsize : (256 : Nat) ^ 32 = 2 ^ 256 := by norm_num
  have hclose {final : Hash} (hvalue : beNat final.toList = beNat [a, b, c] * 256 ^ (exponent - 3)) :
      (Except.ok final : Except String Hash) = .ok out ↔
        beNat [a, b, c] * 256 ^ (exponent - 3) < 2 ^ 256 ∧
          beNat out.toList = beNat [a, b, c] * 256 ^ (exponent - 3) := by
    have hlt := beNat_lt final.toList
    rw [Vector.length_toList, hvalue, hsize] at hlt
    rw [and_iff_right hlt, ← hvalue, Except.ok.injEq]
    exact ⟨fun h => by rw [h], fun h => (hash_eq_of_beNat h).symm⟩
  have hoverflow {e : String} (hlarge : 256 ^ 32 ≤ beNat [a, b, c] * 256 ^ (exponent - 3)) :
      (Except.error e : Except String Hash) = .ok out ↔
        beNat [a, b, c] * 256 ^ (exponent - 3) < 2 ^ 256 ∧
          beNat out.toList = beNat [a, b, c] * 256 ^ (exponent - 3) :=
    iff_of_false (fun h => nomatch h) fun h => absurd h.1 (not_lt.mpr (hsize ▸ hlarge))
  have hzero (bytes : List UInt8) : beNat (0 :: bytes) = beNat bytes := by
    rw [beNat_cons]
    simp
  have hpositive {byte : UInt8} (hbyte : byte ≠ 0) : 1 ≤ byte.toNat :=
    Nat.one_le_iff_ne_zero.mpr fun h => hbyte (UInt8.toNat_inj.mp h)
  rw [compactNat_large _ (by omega), hloop]
  obtain hin | rfl | rfl : exponent ≤ 32 ∨ exponent = 33 ∨ exponent = 34 := by omega
  · simp only [hinside (i := 0) (by omega) hfirst, hinside (i := 1) (by omega) hsecond,
      hinside (i := 2) (by omega) hthird, Loops.ok_bind]
    refine hclose ?_
    have hplaced := beNat_placed (n := 32) (p := 32 - exponent) (by omega) a b c
    rw [show 32 - 3 - (32 - exponent) = exponent - 3 by omega] at hplaced
    rw [← hplaced]
    simp only [Vector.toList_setIfInBounds, Vector.toList_replicate]
    rw [show 32 + 0 - exponent = 32 - exponent by omega,
      show 32 + 1 - exponent = 32 - exponent + 1 by omega,
      show 32 + 2 - exponent = 32 - exponent + 2 by omega]
  · simp only [houtside (i := 0) (by omega) hfirst, hinside (i := 1) (by omega) hsecond,
      hinside (i := 2) (by omega) hthird]
    by_cases ha : a = 0
    · subst ha
      refine hclose ?_
      have hplaced := beNat_placed (n := 33) (p := 0) (by omega) 0 b c
      have hcons : (((List.replicate 33 (0 : UInt8)).set 0 0).set (0 + 1) b).set (0 + 2) c =
          0 :: ((List.replicate 32 0).set 0 b).set 1 c := rfl
      rw [hcons, hzero] at hplaced
      simp only [Vector.toList_setIfInBounds, Vector.toList_replicate]
      exact hplaced
    · rw [if_pos ha]
      refine hoverflow ?_
      have hmantissa : 256 ^ 2 ≤ beNat [a, b, c] := by
        have ha := hpositive ha
        simp only [beNat, List.foldl_cons, List.foldl_nil]
        omega
      exact Nat.mul_le_mul_right (256 ^ 30) hmantissa
  · simp only [houtside (i := 0) (by omega) hfirst, houtside (i := 1) (by omega) hsecond,
      hinside (i := 2) (by omega) hthird]
    by_cases ha : a = 0
    · subst ha
      by_cases hb : b = 0
      · subst hb
        refine hclose ?_
        have hplaced := beNat_placed (n := 34) (p := 0) (by omega) 0 0 c
        have hcons : (((List.replicate 34 (0 : UInt8)).set 0 0).set (0 + 1) 0).set (0 + 2) c =
            0 :: 0 :: (List.replicate 32 0).set 0 c := rfl
        rw [hcons, hzero, hzero] at hplaced
        simp only [Vector.toList_setIfInBounds, Vector.toList_replicate]
        exact hplaced
      · simp only [ne_eq, not_true_eq_false, if_false, Loops.ok_bind, if_pos hb]
        refine hoverflow ?_
        have hmantissa : 256 ≤ beNat [0, b, c] := by
          have hb := hpositive hb
          simp only [beNat, List.foldl_cons, List.foldl_nil]
          omega
        exact Nat.mul_le_mul_right (256 ^ 31) hmantissa
    · rw [if_pos ha]
      refine hoverflow ?_
      have hmantissa : 256 ≤ beNat [a, b, c] := by
        have ha := hpositive ha
        simp only [beNat, List.foldl_cons, List.foldl_nil]
        omega
      exact Nat.mul_le_mul_right (256 ^ 31) hmantissa

/-- The outcome for four bytes: an exponent and a mantissa without sign. -/
private theorem compactTarget_bytes {nbits : Text} {e a b c : UInt8}
    (hbytes : unhex nbits = .ok [e, a, b, c]) {h : Hash} :
    compactTarget nbits = .ok h ↔ beNat [a, b, c] < 2 ^ 23 ∧
      0 < compactNat e.toNat (beNat [a, b, c]) ∧ compactNat e.toNat (beNat [a, b, c]) < 2 ^ 256 ∧
      beNat h.toList = compactNat e.toNat (beNat [a, b, c]) := by
  have hbound := beNat_lt [a, b, c]
  have hnonzero {out : Hash} : ¬ out.toList.all (· == 0) = true ↔ 0 < beNat out.toList := by
    rw [← beNat_eq_zero_iff, Nat.pos_iff_ne_zero]
  have hthis : compactTarget nbits = .ok h ↔
      ¬ (beNat [a, b, c] ≥ 0x800000 ∨ beNat [a, b, c] = 0 ∨ e.toNat > 34) ∧
        ∃ out : Hash, (if e.toNat ≤ 3 then
          (pure (hashOfNat (beNat [a, b, c] / 2 ^ (8 * (3 - e.toNat)))) : Except String Hash)
          else [0, 1, 2].foldlM (placeMantissa e.toNat (beNat [a, b, c]))
            (Vector.replicate 32 0)) = .ok out ∧ ¬ out.toList.all (· == 0) = true ∧ out = h := by
    rw [compactTarget, hbytes]
    refine Loops.guard_eq_ok.trans (and_congr_right fun _ => ?_)
    have hlast (x : Except String Hash) :
        (x >>= fun out => if out.toList.all (· == 0) = true then throw "zero compact target"
          else pure out) = .ok h ↔
          ∃ out, x = .ok out ∧ ¬ out.toList.all (· == 0) = true ∧ out = h :=
      Loops.bind_eq_ok.trans (exists_congr fun out => and_congr_right fun _ =>
        Loops.guard_eq_ok.trans (and_congr_right fun _ => Loops.pure_eq_ok))
    by_cases hsmall : e.toNat ≤ 3
    · rw [if_pos hsmall, ← hlast]
      exact (if_pos hsmall).congr_left
    · rw [if_neg hsmall, ← hlast]
      exact (if_neg hsmall).congr_left
  have hdecoded (hle : e.toNat ≤ 34) (out : Hash) :
      (if e.toNat ≤ 3 then
        (pure (hashOfNat (beNat [a, b, c] / 2 ^ (8 * (3 - e.toNat)))) : Except String Hash)
      else [0, 1, 2].foldlM (placeMantissa e.toNat (beNat [a, b, c])) (Vector.replicate 32 0)) =
          .ok out ↔ compactNat e.toNat (beNat [a, b, c]) < 2 ^ 256 ∧
            beNat out.toList = compactNat e.toNat (beNat [a, b, c]) := by
    split
    · rename_i hsmall
      have hlt : beNat [a, b, c] / 2 ^ (8 * (3 - e.toNat)) < 2 ^ 256 :=
        calc beNat [a, b, c] / 2 ^ (8 * (3 - e.toNat)) ≤ beNat [a, b, c] := Nat.div_le_self _ _
          _ < 256 ^ 3 := hbound
          _ < 2 ^ 256 := by norm_num
      rw [compactNat_small _ hsmall, and_iff_right hlt, Loops.pure_eq_ok]
      constructor
      · rintro rfl
        exact beNat_hashOfNat hlt
      · intro hvalue
        exact (hash_eq_of_beNat (hvalue.trans (beNat_hashOfNat hlt).symm)).symm
    · exact placed_iff (by omega) hle a b c
  rw [hthis]
  constructor
  · rintro ⟨hguard, out, hout, hzero, rfl⟩
    simp only [not_or, not_le, gt_iff_lt, not_lt, ge_iff_le] at hguard
    obtain ⟨hrange, hvalue⟩ := (hdecoded hguard.2.2 out).mp hout
    exact ⟨hguard.1, hvalue ▸ hnonzero.mp hzero, hrange, hvalue⟩
  · rintro ⟨hsign, hpositive, hrange, hvalue⟩
    have hmantissa : beNat [a, b, c] ≠ 0 := by
      intro hzero
      rw [hzero, compactNat] at hpositive
      simp at hpositive
    have hle : e.toNat ≤ 34 := by
      by_contra hlarge
      have hpower : 256 ^ 32 ≤ 256 ^ (e.toNat - 3) :=
        Nat.pow_le_pow_right (by norm_num) (by omega)
      have hsize : (256 : Nat) ^ 32 = 2 ^ 256 := by norm_num
      rw [compactNat_large _ (by omega)] at hrange
      have hmul := Nat.le_mul_of_pos_left (256 ^ (e.toNat - 3)) (Nat.pos_of_ne_zero hmantissa)
      omega
    refine ⟨by omega, h, (hdecoded hle h).mpr ⟨hrange, hvalue⟩, ?_, rfl⟩
    exact hnonzero.mpr (hvalue ▸ hpositive)

/-- Compact targets are decoded exactly: eight hexadecimal digits that encode an
exponent and a mantissa without sign, with a value that is positive and fits
into 256 bits. The consensus target of an SV2 previous hash is decoded as SV1
decodes the text of the same word. -/
theorem compact_target_exact :
    (∀ nbits h, compactTarget nbits = .ok h ↔ nbits.length = 8 ∧ ∃ e m, e < 256 ∧ m < 2 ^ 23 ∧
      HexNumber nbits (e * 2 ^ 24 + m) ∧ 0 < compactNat e m ∧ compactNat e m < 2 ^ 256 ∧
      beNat h.toList = compactNat e m) ∧
    ∀ (word : UInt32) (nbits : Text), nbits.length = 8 → HexNumber nbits word.toNat →
      compactTarget (hex (leBytes 4 word.toUInt64).reverse) = compactTarget nbits := by
  refine ⟨?_, ?_⟩
  · intro nbits h
    constructor
    · intro hok
      obtain ⟨bytes, hbytes, hrest⟩ := Loops.bind_eq_ok.mp hok
      obtain ⟨hcount, -⟩ := Loops.guard_eq_ok.mp hrest
      obtain ⟨x, a, b, c, rfl⟩ : ∃ x a b c, bytes = [x, a, b, c] :=
        List.length_eq_four.mp (not_not.mp hcount)
      obtain ⟨hlength, hnumber⟩ := unhex_iff.mp ⟨_, hbytes, rfl, rfl⟩
      obtain ⟨hsign, hpositive, hrange, hvalue⟩ := (compactTarget_bytes hbytes).mp hok
      have hsplit : beNat [x, a, b, c] = x.toNat * 2 ^ 24 + beNat [a, b, c] := by
        rw [beNat_cons]
        norm_num
      rw [hsplit] at hnumber
      exact ⟨hlength, x.toNat, beNat [a, b, c], x.toNat_lt, hsign, hnumber, hpositive, hrange, hvalue⟩
    · rintro ⟨hlength, e, m, he, hm, hnumber, hpositive, hrange, hvalue⟩
      obtain ⟨bytes, hbytes, hcount, hnumber⟩ := (unhex_iff (k := 4)).mpr ⟨hlength, hnumber⟩
      obtain ⟨x, a, b, c, rfl⟩ := List.length_eq_four.mp hcount
      have hbound := beNat_lt [a, b, c]
      have hsplit : beNat [x, a, b, c] = x.toNat * 2 ^ 24 + beNat [a, b, c] := by
        rw [beNat_cons]
        norm_num
      have hsize : 256 ^ [a, b, c].length = 2 ^ 24 := by norm_num
      have hmantissa : beNat [a, b, c] = m := by omega
      have hexponent : x.toNat = e := by omega
      rw [compactTarget_bytes hbytes, hmantissa, hexponent]
      exact ⟨hm, hpositive, hrange, hvalue⟩
  · intro word nbits hlength hnumber
    obtain ⟨bytes, hbytes, hcount, hvalue⟩ := (unhex_iff (k := 4)).mpr ⟨hlength, hnumber⟩
    have hword : (leBytes 4 word.toUInt64).reverse = bytes := by
      refine beNat_injective (by rw [List.length_reverse, leBytes_length, hcount]) ?_
      rw [hvalue, beNat_reverse, leNat_leBytes, UInt32.toNat_toUInt64]
      exact Nat.mod_eq_of_lt (word.toNat_lt.trans_le (by norm_num))
    have hsame : unhex (hex (leBytes 4 word.toUInt64).reverse) = unhex nbits := by
      rw [unhex_hex, hbytes, hword]
    rw [compactTarget, compactTarget, hsame]

end Supryolo
