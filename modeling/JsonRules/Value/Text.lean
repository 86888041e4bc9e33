import JsonRules.Decimal.Layout
import JsonRules.Text.Quoted
import JsonRules.Value.Basic

/-!
Values as compact JSON text.

`write` is one writer for both texts of a value, which differ in how numbers are written: `display`
is the text that people read, and `stored` the text that keeps every number a float.
-/

namespace JsonRules.Value

mutual

/-- The compact text of a value, with numbers in a given format. -/
def write (format : NumberFormat) : Value → List Char
  | .null => ['n', 'u', 'l', 'l']
  | .bool true => ['t', 'r', 'u', 'e']
  | .bool false => ['f', 'a', 'l', 's', 'e']
  | .number x => format.write x
  | .string s => Text.quote s.toList
  | .array [] => ['[', ']']
  | .array (item :: rest) => '[' :: item.write format ++ writeItems format rest
  | .object [] => ['{', '}']
  | .object ((key, value) :: rest) =>
    '{' :: Text.quote key.toList ++ ':' :: value.write format ++ writeFields format rest

/-- The items after the first and the closing bracket. -/
def writeItems (format : NumberFormat) : List Value → List Char
  | [] => [']']
  | item :: rest => ',' :: item.write format ++ writeItems format rest

/-- The fields after the first and the closing brace. -/
def writeFields (format : NumberFormat) : List (String × Value) → List Char
  | [] => ['}']
  | (key, value) :: rest =>
    ',' :: Text.quote key.toList ++ ':' :: value.write format ++ writeFields format rest

end

/-- The text of a value in messages, in the log and in joined strings. -/
def display (value : Value) : String := String.ofList (value.write .display)

/-- The text of a value that is kept and read back. -/
def stored (value : Value) : String := String.ofList (value.write .stored)

end JsonRules.Value
