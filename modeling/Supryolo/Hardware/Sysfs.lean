import Supryolo.Devices

/-!
Model of what `amd.cpp` reads out of sysfs: formatted input from files, the PCI
address that names a device's directory and the search for the sensors of its
driver. A path is the list of its components, and a file is its content.
-/

namespace Supryolo.Hardware

abbrev Path := List Text

/-- What the file system answers while a plan is made. A file that cannot be
opened has no content; an iteration over a directory may break off. -/
structure Sysfs where
  content : Path → Option Text
  entries : Path → List (Except String Text)
  present : Path → Except String Bool

def fileName (p : Path) : String := String.ofList (p.getLast?.getD [])

def isSpace (c : Char) : Bool := c == ' ' || ('\t' ≤ c && c ≤ '\r')

def decimal (n : Nat) : Text := Nat.toDigits 10 n

/-- `>>` into an unsigned integer: the value and the rest of the input. A minus
sign negates the value; a value of too many bits is an error. -/
def readUnsigned (width : Nat) (input : Text) : Option (Nat × Text) :=
  let input := input.dropWhile isSpace
  let digits := if input.head? = some '-' ∨ input.head? = some '+' then input.tail else input
  let value := Nat.ofDigitChars 10 (digits.takeWhile Char.isDigit) 0
  if digits.takeWhile Char.isDigit = [] ∨ value ≥ 2 ^ width then none
  else
    some (if input.head? = some '-' then (2 ^ width - value) % 2 ^ width else value,
      digits.dropWhile Char.isDigit)

/-- `>>` into a character. -/
def readChar (input : Text) : Option (Char × Text) :=
  match input.dropWhile isSpace with
  | [] => none
  | c :: rest => some (c, rest)

/-- `>>` into a string, which stays empty at the end of the input. -/
def readWord (input : Text) : Text := (input.dropWhile isSpace).takeWhile fun c => !isSpace c

/-- The lines `std::getline` returns. -/
def fileLines (content : Text) : List Text :=
  let pieces := content.splitOn '\n'
  if pieces.getLast? = some [] then pieces.dropLast else pieces

def parseNumber (content : Text) : Option UInt64 :=
  (readUnsigned 64 content).map fun (n, _) => n.toUInt64

def number (fs : Sysfs) (p : Path) : Option UInt64 := fs.content p >>= parseNumber

def word (fs : Sysfs) (p : Path) : Text := readWord ((fs.content p).getD [])

/-- Index and MHz of a line of a DPM table. -/
def dpmLevel (line : Text) : Option (UInt32 × UInt32) := do
  let (index, rest) ← readUnsigned 32 line
  let (colon, rest) ← readChar rest
  let (value, _) ← readUnsigned 32 rest
  if colon = ':' then some (index.toUInt32, value.toUInt32) else none

theorem not_isSpace_of_isDigit {c : Char} (h : c.isDigit = true) : isSpace c = false := by
  simp only [Char.isDigit, Bool.and_eq_true, decide_eq_true_eq, UInt32.le_iff_toNat_le] at h
  simp only [isSpace, Bool.or_eq_false_iff, beq_eq_false_iff_ne, Bool.and_eq_false_iff,
    decide_eq_false_iff_not, Char.le_def, UInt32.le_iff_toNat_le]
  refine ⟨?_, Or.inr ?_⟩
  · rintro rfl
    exact absurd h.1 (by decide)
  · exact fun hc => absurd (h.1.trans hc) (by decide)

/-- A number that is written is read back. -/
theorem parseNumber_decimal (n : UInt64) : parseNumber (decimal n.toNat ++ ['\n']) = some n := by
  have hdigits : ∀ c ∈ decimal n.toNat, c.isDigit = true := fun c hc =>
    Nat.isDigit_of_mem_toDigits (by decide) (by decide) hc
  obtain ⟨first, rest, hcons⟩ := List.exists_cons_of_ne_nil (Nat.toDigits_ne_nil (n := n.toNat) (b := 10))
  have hfirst : first.isDigit = true := hdigits first (by rw [decimal, hcons]; exact List.mem_cons_self)
  have hskip : (decimal n.toNat ++ ['\n']).dropWhile isSpace = decimal n.toNat ++ ['\n'] := by
    rw [decimal, hcons, List.cons_append]
    exact List.dropWhile_cons_of_neg (by rw [not_isSpace_of_isDigit hfirst]; exact Bool.false_ne_true)
  have hhead : ∀ sign : Char, sign.isDigit = false → (decimal n.toNat ++ ['\n']).head? ≠ some sign := by
    intro sign hsign hhead
    rw [decimal, hcons, List.cons_append, List.head?_cons, Option.some_inj] at hhead
    rw [hhead, hsign] at hfirst
    exact Bool.false_ne_true hfirst
  have htake : (decimal n.toNat ++ ['\n']).takeWhile Char.isDigit = decimal n.toNat := by
    rw [List.takeWhile_append_of_pos hdigits]
    exact List.append_nil _
  have hvalue : Nat.ofDigitChars 10 (decimal n.toNat) 0 = n.toNat := Nat.ofDigitChars_ten_toDigits
  have hread : readUnsigned 64 (decimal n.toNat ++ ['\n']) =
      some (n.toNat, (decimal n.toNat ++ ['\n']).dropWhile Char.isDigit) := by
    unfold readUnsigned
    simp only [hskip, hhead '-' rfl, hhead '+' rfl, or_self, if_false, htake, hvalue]
    rw [if_neg]
    rintro (hnil | hbig)
    · exact Nat.toDigits_ne_nil hnil
    · exact absurd n.toNat_lt (Nat.not_lt.mpr hbig)
  rw [parseNumber, hread, Option.map_some]
  exact congrArg some (UInt64.ofNat_toNat)

def isHex (c : Char) : Bool := c.isDigit || ('a' ≤ c && c ≤ 'f') || ('A' ≤ c && c ≤ 'F')

/-- The pattern of a PCI address: four, two and two hexadecimal digits and a
function below 8. -/
def isPciBus (t : Text) : Bool :=
  match t with
  | [d₁, d₂, d₃, d₄, ':', b₁, b₂, ':', e₁, e₂, '.', f] =>
      [d₁, d₂, d₃, d₄, b₁, b₂, e₁, e₂].all isHex && ('0' ≤ f && f ≤ '7')
  | _ => false

/-- The first entry of the directory that belongs to the driver. -/
def findHwmon (fs : Sysfs) (directory : Path) : List (Except String Text) → Except String (Option Path)
  | [] => pure none
  | entry :: rest => do
      let hw := directory ++ [← entry]
      if word fs (hw ++ ["name".toList]) = "amdgpu".toList then pure (some hw)
      else findHwmon fs directory rest

end Supryolo.Hardware
