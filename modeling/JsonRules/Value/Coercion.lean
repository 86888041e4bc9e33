import JsonRules.Decimal.Numeral
import JsonRules.Text.Blank
import JsonRules.Value.Text

/-!
How operators read values.

Numbers, texts, conditions and the two equalities.  Numbers, numeric strings and booleans meet on
the number line under `looseEq`; `strictEq` keeps kinds apart.
-/

namespace JsonRules.Value

/-- The characters that a numeric string is made of. -/
def isNumericChar (c : Char) : Bool :=
  c.isDigit || c == '+' || c == '-' || c == '.' || c == 'e' || c == 'E'

/-- The number that a string reads as, blanks around it aside.  The words for what is not finite are
no numbers here. -/
def numberOfString? (s : String) : Option Binary64 :=
  let text := Text.trim s.toList
  if text.isEmpty then none
  else if !text.all isNumericChar then none
  else Binary64.ofText? text

/-- The numeric reading of a value, which arrays, objects and other strings do not have. -/
def toNumber? : Value → Option Binary64
  | .null => some (.zero false)
  | .bool b => some (if b then .ofNat 1 else .zero false)
  | .number x => some x
  | .string s => numberOfString? s
  | .array _ => none
  | .object _ => none

/-- The text of a value in a joined string: a string is itself, anything else its display text. -/
def toText : Value → String
  | .string s => s
  | value => value.display

/-- Null, false, zeros, not-a-number and what is empty count as false, and objects never do. -/
def isTruthy : Value → Bool
  | .null => false
  | .bool b => b
  | .number x => !x.isZero && !x.isNaN
  | .string s => !s.isEmpty
  | .array items => !items.isEmpty
  | .object _ => true

mutual

/-- The same kind and the same value. -/
def strictEq : Value → Value → Bool
  | .null, .null => true
  | .bool a, .bool b => a == b
  | .number x, .number y => x.equals y
  | .string s, .string t => s == t
  | .array xs, .array ys => strictEqItems xs ys
  | .object fs, .object gs => fs.length == gs.length && fieldsWithin fs gs
  | _, _ => false

def strictEqItems : List Value → List Value → Bool
  | [], [] => true
  | x :: xs, y :: ys => x.strictEq y && strictEqItems xs ys
  | _, _ => false

/-- Whether each field is found under its key among other fields, with the same value. -/
def fieldsWithin : List (String × Value) → List (String × Value) → Bool
  | [], _ => true
  | (key, x) :: rest, gs =>
    (match Keyed.get? key gs with
      | some y => x.strictEq y
      | none => false) && fieldsWithin rest gs

end

def isContainer : Value → Bool
  | .array _ => true
  | .object _ => true
  | _ => false

/-- Null equals only null, containers are compared strictly, two strings or two booleans as such,
and other scalars by their numeric readings. -/
def looseEq (a b : Value) : Bool :=
  match a, b with
  | .null, .null => true
  | .null, _ => false
  | _, .null => false
  | .string s, .string t => s == t
  | .bool x, .bool y => x == y
  | a, b =>
    if a.isContainer || b.isContainer then a.strictEq b
    else
      match a.toNumber?, b.toNumber? with
      | some x, some y => x.equals y
      | _, _ => false

end JsonRules.Value
