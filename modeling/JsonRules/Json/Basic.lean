import JsonRules.Json.Source
import JsonRules.Keyed
import JsonRules.Value.Reading

/-!
JSON documents of the host.

A host document tells integers from floats and keeps the keys of objects in ascending order.
`Value.toJson` and `Value.ofJson` go between values and documents.
-/

namespace JsonRules

/-- A JSON document. -/
inductive Json
  | null
  | bool (b : Bool)
  | integer (n : Int)
  | float (x : Binary64)
  | string (s : String)
  | array (items : List Json)
  /-- The fields, in ascending order of their keys. -/
  | object (fields : List (String × Json))

namespace Json

/-- The integers that a document holds as such: those of a signed or an unsigned 64-bit word. -/
def isWordInteger (n : Int) : Bool := Word.lowest ≤ n && n ≤ Word.highestUnsigned

/-- A numeral without point and exponent is an integer if a word holds it.  A negative zero and
all other numerals are floats, which must be finite. -/
def ofNumeral? (numeral : Numeral) (whole : Bool) : Option Json :=
  let n : Int := numeral.magnitude.coefficient
  let z := if numeral.negative then -n else n
  if whole && isWordInteger z && !(numeral.negative && n == 0) then some (.integer z)
  else numeral.toFinite?.map .float

end Json

namespace JsonSource

mutual

/-- The document that a JSON text stands for: a repeated key takes its last value. -/
def toJson? : JsonSource → Option Json
  | .null => some .null
  | .bool b => some (.bool b)
  | .number numeral whole => Json.ofNumeral? numeral whole
  | .string text => text.map .string
  | .array items => (toJsonItems? items).map .array
  | .object fields => (toJsonFields? fields).map fun pairs => .object (Keyed.sorted pairs)

def toJsonItems? : List JsonSource → Option (List Json)
  | [] => some []
  | item :: rest => do
    let document ← item.toJson?
    let documents ← toJsonItems? rest
    return document :: documents

def toJsonFields? : List (Option String × JsonSource) → Option (List (String × Json))
  | [] => some []
  | (key, item) :: rest => do
    let key ← key
    let document ← item.toJson?
    let pairs ← toJsonFields? rest
    return (key, document) :: pairs

end

end JsonSource

namespace Json

def ofText? (text : String) : Option Json :=
  (JsonSource.ofBoundedText? text).bind JsonSource.toJson?

def get? (key : String) : Json → Option Json
  | .object fields => Keyed.get? key fields
  | _ => none

end Json

namespace Value

mutual

/-- The value of a document: every number becomes the nearest double. -/
def ofJson : Json → Value
  | .null => .null
  | .bool b => .bool b
  | .integer n => .number (.ofInt n)
  | .float x => .number x
  | .string s => .string s
  | .array items => .array (ofJsonItems items)
  | .object fields => .object (ofJsonFields fields)

def ofJsonItems : List Json → List Value
  | [] => []
  | item :: rest => ofJson item :: ofJsonItems rest

def ofJsonFields : List (String × Json) → List (String × Value)
  | [] => []
  | (key, item) :: rest => (key, ofJson item) :: ofJsonFields rest

end

/-- The largest integer below which every integer is a double. -/
def maxSafeInteger : Nat := 9007199254740991

/-- A number in a document: an integer if it is whole and safe, null if it has no digits, and a
float otherwise. -/
def numberToJson : Binary64 → Json
  | .finite negative units h =>
    if units % Binary64.unitsInOne = 0 ∧ units ≤ maxSafeInteger * Binary64.unitsInOne then
      .integer (Binary64.signedUnits negative (units / Binary64.unitsInOne))
    else .float (.finite negative units h)
  | _ => .null

mutual

/-- The document of a value. -/
def toJson : Value → Json
  | .null => .null
  | .bool b => .bool b
  | .number x => numberToJson x
  | .string s => .string s
  | .array items => .array (toJsonItems items)
  | .object fields => .object (Keyed.sorted (toJsonFields fields))

def toJsonItems : List Value → List Json
  | [] => []
  | item :: rest => item.toJson :: toJsonItems rest

def toJsonFields : List (String × Value) → List (String × Json)
  | [] => []
  | (key, value) :: rest => (key, value.toJson) :: toJsonFields rest

end

end Value

end JsonRules
