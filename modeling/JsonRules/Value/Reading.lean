import JsonRules.Json.Source
import JsonRules.Value.Basic

/-!
Values read from JSON texts.

A numeral becomes the nearest double and must stay finite, a string must be a text, and a repeated
key keeps its first place and takes its last value.
-/

namespace JsonRules

def Numeral.toFinite? (n : Numeral) : Option Binary64 :=
  if n.toBinary64.isFinite then some n.toBinary64 else none

namespace JsonSource

mutual

/-- The value that a JSON text stands for. -/
def toValue? : JsonSource → Option Value
  | .null => some .null
  | .bool b => some (.bool b)
  | .number numeral _ => numeral.toFinite?.map .number
  | .string text => text.map .string
  | .array items => (toItems? items).map .array
  | .object fields => (toFields? fields).map fun pairs => .object (Keyed.ofPairs pairs)

def toItems? : List JsonSource → Option (List Value)
  | [] => some []
  | item :: rest => do
    let value ← item.toValue?
    let values ← toItems? rest
    return value :: values

def toFields? : List (Option String × JsonSource) → Option (List (String × Value))
  | [] => some []
  | (key, item) :: rest => do
    let key ← key
    let value ← item.toValue?
    let pairs ← toFields? rest
    return (key, value) :: pairs

end

end JsonSource

def Value.ofText? (text : String) : Option Value :=
  (JsonSource.ofBoundedText? text).bind JsonSource.toValue?

end JsonRules
