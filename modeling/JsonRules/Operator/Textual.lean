import JsonRules.Operator.Numeric

/-!
Texts and membership.

Texts are sequences of characters, and positions count characters.
-/

namespace JsonRules.Textual

def join (values : List Value) : Value := .string (String.join (values.map Value.toText))

/-- The position where a part starts in `length` characters: counted from the end if negative. -/
def startPosition (length start : Int) : Option Int :=
  if start < 0 then (Word.add? length start).map fun position => max position 0
  else some (min start length)

/-- The position where a part ends that starts at `position`: a negative size leaves out as many
characters at the end. -/
def endPosition (length position : Int) : Option Int → Option Int
  | none => some length
  | some size =>
    if size < 0 then Word.add? length size
    else some (min (Word.addClamped position size) length)

/-- The positions where a part starts and ends.  A part that would end before it starts is empty. -/
def bounds (length start : Int) (size : Option Int) : Option (Int × Int) := do
  let first ← startPosition length start
  let last ← endPosition length first size
  return (first, max last first)

/-- Characters in memory, which are no more than a word counts. -/
structure Characters where
  list : List Char
  short : list.length ≤ Word.highest

/-- The characters of a text.  What a word does not count is in no memory and left out. -/
def Characters.ofText (text : List Char) : Characters :=
  ⟨text.take Word.highest.toNat, Int.ofNat_le.2 (List.length_take_le _ text)⟩

/-- The characters between two positions, which must be in order and within the text. -/
def between (text : List Char) (first last : Int) : Option (List Char) :=
  if 0 ≤ first ∧ first ≤ last ∧ last ≤ text.length then
    some ((text.take last.toNat).drop first.toNat)
  else none

/-- The part of a text from a start on, of a size or up to the end. -/
def part (text : Characters) (start : Int) (size : Option Int) : Option (List Char) := do
  let (first, last) ← bounds (Word.cast text.list.length) start size
  between text.list first last

/-- An operand that counts characters: the whole part of its reading. -/
def characterCount (operator : String) (value : Value) : Except RuleError Int :=
  (Numeric.reading operator value).map Binary64.truncateToWord

def slice (operator : String) : List Value → Result Value
  | value :: start :: rest => do
    let text := Characters.ofText value.toText.toList
    let start ← Result.ofExcept (characterCount operator start)
    let size ← match rest with
      | [] => pure none
      | size :: _ => some <$> Result.ofExcept (characterCount operator size)
    let part ← Result.ofOption (part text start size)
    return .string (String.ofList part)
  | _ => Result.stuck

def occursIn (needle : List Char) : List Char → Bool
  | [] => needle.isEmpty
  | c :: rest => needle.isPrefixOf (c :: rest) || occursIn needle rest

/-- Whether a value occurs in another: as a text in a string, and as an item in an array. -/
def member (needle haystack : Value) : Bool :=
  match haystack with
  | .string s => occursIn needle.toText.toList s.toList
  | .array items => items.any fun item => item.strictEq needle
  | _ => false

/-- Arrays one after another, with anything else as an item of its own. -/
def merge (values : List Value) : Value :=
  .array (values.flatMap fun
    | .array items => items
    | value => [value])

theorem Characters.ofText_of_short {text : List Char} (h : text.length ≤ Word.highest) :
    ofText text = ⟨text, h⟩ := by
  have hall : text.take Word.highest.toNat = text := List.take_of_length_le (Int.ofNat_le.1 h)
  simp only [ofText, hall]

/-- The cast of the length has no part in what is taken. -/
theorem part_eq (text : Characters) (start : Int) (size : Option Int) :
    part text start size =
      (bounds text.list.length start size).bind fun (first, last) =>
        between text.list first last := by
  rw [part, Word.cast_of_le text.short]
  rfl

end JsonRules.Textual
