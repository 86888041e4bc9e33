import JsonRules.Decimal.Numeral
import JsonRules.Text.Quoted

/-!
JSON texts by their grammar.

`JsonSource` is the tree of a JSON text before its numerals and strings are given a value, so that
every reader of JSON works from the same tree.  A numeral keeps its digits, fields keep their order
and repetitions, and a string with half a surrogate pair is marked as having no text.
-/

namespace JsonRules

/-- What a JSON text says. -/
inductive JsonSource
  | null
  | bool (b : Bool)
  /-- A numeral, and whether it is written without a point and an exponent. -/
  | number (numeral : Numeral) (whole : Bool)
  | string (text : Option String)
  | array (items : List JsonSource)
  | object (fields : List (Option String × JsonSource))

namespace JsonSource

/-- Blanks between the parts of a JSON text. -/
def isBlank (c : Char) : Bool := c == ' ' || c == '\t' || c == '\n' || c == '\r'

def skipBlanks (text : List Char) : List Char := text.dropWhile isBlank

/-- The digits before the point: a zero alone, or digits that do not start with zero. -/
def readWhole : List Char → Option (List Char × List Char)
  | '0' :: rest => some (['0'], rest)
  | text =>
    let (digits, rest) := Numeral.readDigits text
    if digits.isEmpty then none else some (digits, rest)

/-- The digits after a point, of which there is at least one. -/
def readFraction : List Char → Option (List Char × List Char)
  | '.' :: rest =>
    let (digits, rest) := Numeral.readDigits rest
    if digits.isEmpty then none else some (digits, rest)
  | text => some ([], text)

/-- Whether a numeral ends here, with neither a point nor an exponent to follow. -/
def endsWhole : List Char → Bool
  | '.' :: _ => false
  | 'e' :: _ => false
  | 'E' :: _ => false
  | _ => true

/-- Reads the digits of a numeral after its sign. -/
def readUnsigned (negative : Bool) (text : List Char) : Option (JsonSource × List Char) := do
  let (whole, afterWhole) ← readWhole text
  let (fraction, afterFraction) ← readFraction afterWhole
  let (exponent, rest) ← Numeral.readExponent afterFraction
  return (.number (Numeral.ofDigits negative whole fraction exponent) (endsWhole afterWhole), rest)

def readNumber : List Char → Option (JsonSource × List Char)
  | '-' :: rest => readUnsigned true rest
  | text => readUnsigned false text

/-- Reads a string whose opening quotation mark is already taken. -/
def readString (text : List Char) : Option (Option String × List Char) := do
  let (pieces, rest) ← Text.readBody text
  return ((Text.assemble pieces).map String.ofList, rest)

mutual

/-- Reads one value and gives what follows it.  The counter bounds the calls. -/
def readValue : Nat → List Char → Option (JsonSource × List Char)
  | 0, _ => none
  | count + 1, text =>
    match skipBlanks text with
    | 'n' :: 'u' :: 'l' :: 'l' :: rest => some (.null, rest)
    | 't' :: 'r' :: 'u' :: 'e' :: rest => some (.bool true, rest)
    | 'f' :: 'a' :: 'l' :: 's' :: 'e' :: rest => some (.bool false, rest)
    | '"' :: rest => (readString rest).map fun (s, rest) => (.string s, rest)
    | '[' :: rest =>
      match skipBlanks rest with
      | ']' :: rest => some (.array [], rest)
      | rest => (readItems count rest).map fun (items, rest) => (.array items, rest)
    | '{' :: rest =>
      match skipBlanks rest with
      | '}' :: rest => some (.object [], rest)
      | rest => (readFields count rest).map fun (fields, rest) => (.object fields, rest)
    | rest => readNumber rest

def readItems : Nat → List Char → Option (List JsonSource × List Char)
  | 0, _ => none
  | count + 1, text =>
    match readValue count text with
    | none => none
    | some (item, rest) =>
      match skipBlanks rest with
      | ']' :: rest => some ([item], rest)
      | ',' :: rest => (readItems count rest).map fun (items, rest) => (item :: items, rest)
      | _ => none

def readFields : Nat → List Char → Option (List (Option String × JsonSource) × List Char)
  | 0, _ => none
  | count + 1, text =>
    match skipBlanks text with
    | '"' :: rest =>
      match readString rest with
      | none => none
      | some (key, rest) =>
        match skipBlanks rest with
        | ':' :: rest =>
          match readValue count rest with
          | none => none
          | some (value, rest) =>
            match skipBlanks rest with
            | '}' :: rest => some ([(key, value)], rest)
            | ',' :: rest =>
              (readFields count rest).map fun (fields, rest) => ((key, value) :: fields, rest)
            | _ => none
        | _ => none
    | _ => none

end

theorem readItems_succ (count : Nat) (text : List Char) :
    readItems (count + 1) text =
      match readValue count text with
      | none => none
      | some (item, rest) =>
        match skipBlanks rest with
        | ']' :: rest => some ([item], rest)
        | ',' :: rest => (readItems count rest).map fun (items, rest) => (item :: items, rest)
        | _ => none := rfl

theorem readFields_succ (count : Nat) (text : List Char) :
    readFields (count + 1) text =
      match skipBlanks text with
      | '"' :: rest =>
        match readString rest with
        | none => none
        | some (key, rest) =>
          match skipBlanks rest with
          | ':' :: rest =>
            match readValue count rest with
            | none => none
            | some (value, rest) =>
              match skipBlanks rest with
              | '}' :: rest => some ([(key, value)], rest)
              | ',' :: rest =>
                (readFields count rest).map fun (fields, rest) => ((key, value) :: fields, rest)
              | _ => none
          | _ => none
      | _ => none := rfl

/-- Reads a text that is one JSON value, blanks around it aside.  Each level of nesting and each
item takes at least one character and at most two calls. -/
def ofChars? (text : List Char) : Option JsonSource :=
  match readValue (2 * text.length + 1) text with
  | some (source, rest) => if (skipBlanks rest).isEmpty then some source else none
  | none => none

def ofText? (text : String) : Option JsonSource := ofChars? text.toList

mutual

/-- How deep arrays and objects are nested. -/
def height : JsonSource → Nat
  | .array items => heightItems items + 1
  | .object fields => heightFields fields + 1
  | _ => 0

def heightItems : List JsonSource → Nat
  | [] => 0
  | item :: rest => max item.height (heightItems rest)

def heightFields : List (Option String × JsonSource) → Nat
  | [] => 0
  | (_, value) :: rest => max value.height (heightFields rest)

end

/-- The deepest nesting that is read into a value. -/
def heightLimit : Nat := 127

/-- Reads a text that is one JSON value of bounded nesting. -/
def ofBoundedText? (text : String) : Option JsonSource :=
  (ofText? text).filter fun source => source.height ≤ heightLimit

end JsonSource

end JsonRules
