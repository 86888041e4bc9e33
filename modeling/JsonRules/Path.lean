import JsonRules.Value.Basic
import JsonRules.Word

/-!
Paths into values.

A path text is a list of segments between points, and the empty text is the empty path, which leads
to the whole value.  A segment is a key of an object or an index of an array.
-/

namespace JsonRules.Path

def segments (path : String) : List String :=
  if path = "" then [] else (path.toList.splitOn '.').map String.ofList

def highestIndex : Nat := Word.highestUnsigned

/-- The digits of an index without the plus sign that may stand in front. -/
def indexDigits : List Char → List Char
  | '+' :: digits => digits
  | digits => digits

/-- The array index that a segment denotes: decimal digits, up to the highest index. -/
def index? (segment : String) : Option Nat :=
  let digits := indexDigits segment.toList
  let n := Nat.ofDigitChars 10 digits 0
  if !digits.isEmpty && digits.all Char.isDigit && n ≤ highestIndex then some n else none

/-- What one segment leads to. -/
def step (value : Value) (segment : String) : Option Value :=
  match value with
  | .object fields => Keyed.get? segment fields
  | .array items => (index? segment).bind fun i => items[i]?
  | _ => none

/-- What a list of segments leads to. -/
def follow (value : Value) (path : List String) : Option Value := path.foldlM step value

/-- What a path text leads to. -/
def get? (value : Value) (path : String) : Option Value := follow value (segments path)

end JsonRules.Path
