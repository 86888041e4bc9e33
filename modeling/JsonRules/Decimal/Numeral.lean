import JsonRules.Decimal.Layout

/-!
Decimal numerals in text.

A numeral is a sign and a decimal magnitude.  `Numeral.ofText?` reads a whole text in a liberal
grammar: digits may be missing on one side of the point, zeros may lead, and either sign may stand
in front.  `Binary64.ofText?` takes words for what is not finite too.
-/

namespace JsonRules

/-- A signed decimal.  Zero has a sign too. -/
structure Numeral where
  negative : Bool
  magnitude : Decimal
  deriving DecidableEq

namespace Numeral

def toBinary64 (n : Numeral) : Binary64 := n.magnitude.nearest n.negative

/-- The numeral of the digits before and after the point and an exponent. -/
def ofDigits (negative : Bool) (whole fraction : List Char) (exponent : Int) : Numeral :=
  ⟨negative, Nat.ofDigitChars 10 (whole ++ fraction) 0, exponent - fraction.length⟩

def readSign : List Char → Bool × List Char
  | '-' :: rest => (true, rest)
  | '+' :: rest => (false, rest)
  | text => (false, text)

def readDigits (text : List Char) : List Char × List Char :=
  (text.takeWhile Char.isDigit, text.dropWhile Char.isDigit)

def readFraction : List Char → List Char × List Char
  | '.' :: rest => readDigits rest
  | text => ([], text)

/-- A signed exponent, which must have digits. -/
def readExponentDigits (text : List Char) : Option (Int × List Char) :=
  let (negative, rest) := readSign text
  let (digits, rest) := readDigits rest
  let n : Nat := Nat.ofDigitChars 10 digits 0
  if digits.isEmpty then none else some (if negative then -(n : Int) else n, rest)

/-- An exponent part, zero if there is none. -/
def readExponent : List Char → Option (Int × List Char)
  | 'e' :: rest => readExponentDigits rest
  | 'E' :: rest => readExponentDigits rest
  | text => some (0, text)

def ofText? (text : List Char) : Option Numeral :=
  let (negative, rest) := readSign text
  let (whole, rest) := readDigits rest
  let (fraction, rest) := readFraction rest
  if whole.isEmpty && fraction.isEmpty then none
  else
    match readExponent rest with
    | some (exponent, []) => some (ofDigits negative whole fraction exponent)
    | _ => none

end Numeral

namespace Binary64

/-- The number that a word means, whatever the case of its letters. -/
def ofWord? (negative : Bool) (text : List Char) : Option Binary64 :=
  let word := String.ofList (text.map Char.toLower)
  if word = "inf" ∨ word = "infinity" then some (.infinite negative)
  else if word = "nan" then some .nan
  else none

/-- Reads a whole text as a double: a word behind a sign or none, or a numeral. -/
def ofText? (text : List Char) : Option Binary64 :=
  let (negative, word) := Numeral.readSign text
  (ofWord? negative word).or ((Numeral.ofText? text).map Numeral.toBinary64)

end Binary64

end JsonRules
