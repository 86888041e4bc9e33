import JsonRules.Binary64.Basic
import JsonRules.Keyed

/-!
The values that rules and data are made of.

A value is what JSON can say, with every number a double.  Objects keep the order of their keys.
`==` compares values as JSON means them: numbers by their place on the number line, so that
not-a-number differs from itself, and objects without regard to the order of keys.
-/

namespace JsonRules

/-- A JSON-like value. -/
inductive Value
  | null
  | bool (b : Bool)
  | number (x : Binary64)
  | string (s : String)
  | array (items : List Value)
  | object (fields : List (String × Value))
  deriving Inhabited

namespace Value

def ofInt (n : Int) : Value := .number (.ofInt n)

/-- A value that may be absent, null standing for its absence. -/
def ofOption (value : Option Value) : Value := value.getD .null

def typeName : Value → String
  | .null => "null"
  | .bool _ => "boolean"
  | .number _ => "number"
  | .string _ => "string"
  | .array _ => "array"
  | .object _ => "object"

def isNull : Value → Bool
  | .null => true
  | _ => false

def bool? : Value → Option Bool
  | .bool b => some b
  | _ => none

def number? : Value → Option Binary64
  | .number x => some x
  | _ => none

def string? : Value → Option String
  | .string s => some s
  | _ => none

def array? : Value → Option (List Value)
  | .array items => some items
  | _ => none

def object? : Value → Option (List (String × Value))
  | .object fields => some fields
  | _ => none

/-- The name and the argument of an operation, which is an object with exactly one key. -/
def operation? : Value → Option (String × Value)
  | .object [field] => some field
  | _ => none

mutual

/-- How deep arrays and objects are nested. -/
def height : Value → Nat
  | .array items => heightItems items + 1
  | .object fields => heightFields fields + 1
  | _ => 0

def heightItems : List Value → Nat
  | [] => 0
  | item :: rest => max item.height (heightItems rest)

def heightFields : List (String × Value) → Nat
  | [] => 0
  | (_, value) :: rest => max value.height (heightFields rest)

end

mutual

/-- No object in the value repeats a key. -/
def WellFormed : Value → Prop
  | .array items => WellFormedItems items
  | .object fields => Keyed.Distinct fields ∧ WellFormedFields fields
  | _ => True

def WellFormedItems : List Value → Prop
  | [] => True
  | item :: rest => item.WellFormed ∧ WellFormedItems rest

def WellFormedFields : List (String × Value) → Prop
  | [] => True
  | (_, value) :: rest => value.WellFormed ∧ WellFormedFields rest

end

end Value

/-- A value as rules and data hold it: no object in it repeats a key. -/
structure Datum where
  value : Value
  wellFormed : value.WellFormed

namespace Value

mutual

/-- The value with the keys of every object in ascending order. -/
def sortKeys : Value → Value
  | .array items => .array (sortKeysItems items)
  | .object fields => .object (Keyed.sorted (sortKeysFields fields))
  | value => value

def sortKeysItems : List Value → List Value
  | [] => []
  | item :: rest => item.sortKeys :: sortKeysItems rest

def sortKeysFields : List (String × Value) → List (String × Value)
  | [] => []
  | (key, value) :: rest => (key, value.sortKeys) :: sortKeysFields rest

end

mutual

/-- The same value place by place, with numbers compared on the number line. -/
def alike : Value → Value → Bool
  | .null, .null => true
  | .bool a, .bool b => a == b
  | .number x, .number y => x.equals y
  | .string s, .string t => s == t
  | .array xs, .array ys => alikeItems xs ys
  | .object fs, .object gs => alikeFields fs gs
  | _, _ => false

def alikeItems : List Value → List Value → Bool
  | [], [] => true
  | x :: xs, y :: ys => x.alike y && alikeItems xs ys
  | _, _ => false

def alikeFields : List (String × Value) → List (String × Value) → Bool
  | [], [] => true
  | (j, x) :: fs, (k, y) :: gs => j == k && x.alike y && alikeFields fs gs
  | _, _ => false

end

/-- Values are equal when they are alike once their keys are sorted. -/
instance : BEq Value := ⟨fun a b => a.sortKeys.alike b.sortKeys⟩

end Value

end JsonRules
