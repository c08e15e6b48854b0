import Mathlib.Data.List.Basic
import Mathlib.Tactic.Common

/-!
HTTP replies with a stated length. The head is a list of lines and ends with an
empty one; a client that has read less than the whole reply can tell.
-/

namespace Supryolo.Http

abbrev Bytes := List Char

def decimal (text : Bytes) : Nat := Nat.ofDigitChars 10 (text.takeWhile Char.isDigit) 0

def head (lines : List Bytes) : Bytes := lines.flatMap (· ++ ['\r', '\n']) ++ ['\r', '\n']

end Supryolo.Http
