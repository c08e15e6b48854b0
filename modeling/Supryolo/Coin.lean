import Supryolo.Crypto

/-!
Model of `coin.cpp` and of `difficulty_target` in `crypto.cpp`: targets from
compact and from decimal difficulties, and the Sia header of an SV1 job. Big
numbers are natural numbers.
-/

namespace Supryolo

open Words

/-- The big-endian bytes of the low 256 bits of a number. -/
def hashOfNat (n : Nat) : Hash := Vector.ofFn fun i => (n / 256 ^ (31 - i.val)).toUInt8

/-- `std::stoi`: white space, an optional sign and digits; the value and the
number of characters read. -/
def stoi (text : Text) : Except String (Int × Nat) :=
  let body := text.dropWhile fun c => c = ' ' ∨ ('\t' ≤ c ∧ c ≤ '\r')
  let signed := match body with
    | '+' :: rest => (false, rest)
    | '-' :: rest => (true, rest)
    | rest => (false, rest)
  let digits := signed.2.takeWhile fun c => '0' ≤ c ∧ c ≤ '9'
  let magnitude := digits.foldl (fun n c => 10 * n + (c.toNat - '0'.toNat)) 0
  let value : Int := if signed.1 then -magnitude else magnitude
  if digits = [] then throw "stoi"
  else if value < -2 ^ 31 ∨ value ≥ 2 ^ 31 then throw "stoi"
  else pure (value, text.length - (signed.2.length - digits.length))

/-- The mantissa's text and the power of ten that scales it. -/
def splitDecimal (decimal : Text) : Except String (Text × Int) := do
  let isExponent (c : Char) : Bool := c = 'e' || c = 'E'
  let mant := decimal.takeWhile fun c => !isExponent c
  let exponent ←
    if decimal.any isExponent then do
      let e := decimal.drop (mant.length + 1)
      let (exponent, n) ← stoi e
      if n ≠ e.length ∨ exponent > 300 ∨ exponent < -300 then throw "difficulty exponent"
      pure exponent
    else pure 0
  if '.' ∈ mant then
    let dot := mant.idxOf '.'
    pure (mant.eraseIdx dot, exponent - (mant.length - dot - 1 : Nat))
  else pure (mant, exponent)

def difficultyTarget (decimal : Text) : Except String Hash := do
  if decimal = [] ∨ decimal.length > 96 then throw "invalid difficulty"
  let (mant, exponent) ← splitDecimal decimal
  if mant = [] ∨ mant.any fun c => !('0' ≤ c && c ≤ '9') then throw "invalid difficulty"
  let den := mant.foldl (fun n c => 10 * n + (c.toNat - '0'.toNat)) 0
  if den = 0 then throw "invalid difficulty"
  let scale := 10 ^ exponent.natAbs
  let num := 65535 * 2 ^ 208
  let out := if exponent < 0 then num * scale / den else num / (den * scale)
  pure (if out ≥ 2 ^ 256 then Vector.replicate 32 255 else hashOfNat out)

/-- The three mantissa bytes of a target whose exponent is above three. -/
def placeMantissa (exponent mantissa : Nat) (out : Hash) (i : Nat) : Except String Hash :=
  let position : Int := 32 - exponent + i
  let byte := (mantissa / 2 ^ (16 - i * 8)).toUInt8
  if position < 0 then
    if byte ≠ 0 then throw "compact target overflow" else pure out
  else pure (out.setIfInBounds position.toNat byte)

def compactTarget (nbits : Text) : Except String Hash := do
  let bytes ← unhex nbits
  if bytes.length ≠ 4 then throw "invalid nbits"
  let exponent := (bytes.getD 0 0).toNat
  let mantissa := beNat (bytes.drop 1)
  if mantissa ≥ 0x800000 ∨ mantissa = 0 ∨ exponent > 34 then throw "invalid compact target"
  let out ←
    if exponent ≤ 3 then pure (hashOfNat (mantissa / 2 ^ (8 * (3 - exponent))))
    else [0, 1, 2].foldlM (placeMantissa exponent mantissa) (Vector.replicate 32 0)
  if out.toList.all (· == 0) then throw "zero compact target"
  pure out

def siaWork (prev c1 c2 en1 en2 time : Text) : Except String Header := do
  let p ← unhex prev
  let a ← unhex c1
  let b ← unhex c2
  let e1 ← unhex en1
  let e2 ← unhex en2
  let t ← unhex time
  if p.length ≠ 32 ∨ a.length ≠ 39 ∨ b ≠ [] ∨ e1.length + e2.length ≠ 12 ∨ t.length ≠ 8 then
    throw "unsupported BTCB2 Sia job layout"
  let root ← blake2b256 ([0] ++ a ++ e1 ++ e2)
  let w : Header := Vector.replicate 80 0
  let w := copyTo w 0 p
  let w := copyTo w 40 t
  pure (copyTo w 48 root.toList)

end Supryolo
