import Supryolo.Crypto

/-!
The JSON values the pool protocol and the session events are made of, with the
accessors the miner uses of the vendored library: their conversions, the
exceptions they throw and the texts of these. Reading a value from its wire
text is left to a parser parameter of the socket model.
-/

namespace Supryolo

/-- A parsed document. Integers are the numbers the library keeps exactly; any
other number is a `double`, known here by the text `dump` prints for it and by
its value truncated towards zero. -/
inductive Json
  | null
  | boolean (value : Bool)
  | integer (value : Int)
  | float (dump : Text) (truncated : Int)
  | string (value : Text)
  | array (items : List Json)
  | object (members : List (Text × Json))

namespace Json

def typeName : Json → String
  | null => "null"
  | boolean _ => "boolean"
  | integer _ => "number"
  | float _ _ => "number"
  | string _ => "string"
  | array _ => "array"
  | object _ => "object"

/-- The value of a member of an object; `none` when there is no such member or
the value is no object. -/
def member? (key : Text) : Json → Option Json
  | object members => (members.find? fun entry => entry.1 = key).map Prod.snd
  | _ => none

def contains (json : Json) (key : Text) : Bool := (json.member? key).isSome

def atKey (json : Json) (key : Text) : Except String Json :=
  match json.member? key with
  | some value => pure value
  | none => throw ("[json.exception.out_of_range.403] key '" ++ String.ofList key ++ "' not found")

/-- `value(key, json())`: the member, or null. -/
def value (json : Json) (key : Text) : Json := (json.member? key).getD null

def isTrue : Json → Bool
  | boolean b => b
  | _ => false

def typeError (expected : String) (json : Json) : String :=
  "[json.exception.type_error.302] type must be " ++ expected ++ ", but is " ++ json.typeName

def getString : Json → Except String Text
  | string s => pure s
  | json => throw (typeError "string" json)

def getBool : Json → Except String Bool
  | boolean b => pure b
  | json => throw (typeError "boolean" json)

/-- Conversion to `int` keeps the low 32 bits of an integer. A `double` is
truncated; beyond the range of `int` the processor gives the smallest one. -/
def getInt : Json → Except String Int
  | integer n => pure (n.bmod (2 ^ 32))
  | float _ n => pure (if -2 ^ 31 ≤ n ∧ n < 2 ^ 31 then n else -2 ^ 31)
  | boolean b => pure (if b then 1 else 0)
  | json => throw (typeError "number" json)

/-- The value of an integer member as an `int64_t`, when there is one. -/
def integerMember? (key : Text) (json : Json) : Option Int :=
  match json.member? key with
  | some (integer n) => some (n.bmod (2 ^ 64))
  | _ => none

def dumpNumber : Json → Option Text
  | integer n => some (toString n).toList
  | float dump _ => some dump
  | _ => none

end Json

end Supryolo
