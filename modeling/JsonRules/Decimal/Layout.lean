import JsonRules.Decimal.Shortest

/-!
How doubles are written in decimal.

A `NumberFormat` records the choices of one output format: which exponents are written with the
point in place, whether whole numbers are written digit for digit, what stands for zeros and for
the values that have no digits.  The digits are those of the shortest decimal.
-/

namespace JsonRules

/-- The choices of a number format. -/
structure NumberFormat where
  /-- The lowest exponent of the leading digit that is written with the point in place. -/
  lowestInPlace : Int
  /-- The highest such exponent. -/
  highestInPlace : Int
  /-- The choice between two shortest decimals that are equally near. -/
  tie : Decimal.Tie
  /-- Whether whole numbers written in place show every digit of their exact value. -/
  wholeExactly : Bool
  /-- Whether whole numbers written in place end in `.0`. -/
  pointZero : Bool
  /-- Whether a negative zero keeps its sign. -/
  signedZero : Bool
  /-- The words for not-a-number and the two infinities. -/
  nan : String
  infinity : String
  negativeInfinity : String

def decimalDigits (n : Nat) : List Char := Nat.toDigits 10 n

namespace NumberFormat

/-- What follows the digits of a whole number. -/
def wholeEnd (f : NumberFormat) : List Char := if f.pointZero then ['.', '0'] else []

/-- Digits with `places` of them after the point and at least one before it. -/
def withPoint (digits : List Char) (places : Nat) : List Char :=
  let padded := List.replicate (places + 1 - digits.length) '0' ++ digits
  padded.take (padded.length - places) ++ '.' :: padded.drop (padded.length - places)

/-- The digits of `digits * 10 ^ exponent` with the point in place. -/
def inPlace (f : NumberFormat) (digits : List Char) : Int → List Char
  | .ofNat k => digits ++ List.replicate k '0' ++ f.wholeEnd
  | .negSucc k => withPoint digits (k + 1)

def writeExponent (e : Int) : List Char :=
  (if e < 0 then '-' else '+') :: decimalDigits e.natAbs

/-- One digit, the others after a point, and the exponent of the leading digit. -/
def scientific (digits : List Char) (lead : Int) : List Char :=
  match digits with
  | [] => []
  | [d] => d :: 'e' :: writeExponent lead
  | d :: ds => d :: '.' :: ds ++ 'e' :: writeExponent lead

/-- The exponent of the leading digit of a decimal. -/
def leadingExponent (d : Decimal) : Int :=
  d.exponent + (decimalDigits d.coefficient).length - 1

/-- The text of a positive decimal. -/
def writeDecimal (f : NumberFormat) (d : Decimal) : List Char :=
  let lead := leadingExponent d
  if f.lowestInPlace ≤ lead ∧ lead ≤ f.highestInPlace then
    f.inPlace (decimalDigits d.coefficient) d.exponent
  else
    scientific (decimalDigits d.coefficient) lead

def writeMagnitude (f : NumberFormat) (units : Nat) : List Char :=
  let d := Decimal.shortest f.tie units
  if f.wholeExactly ∧ units % Binary64.unitsInOne = 0 ∧ leadingExponent d ≤ f.highestInPlace then
    decimalDigits (units / Binary64.unitsInOne) ++ f.wholeEnd
  else
    f.writeDecimal d

def write (f : NumberFormat) : Binary64 → List Char
  | .nan => f.nan.toList
  | .infinite false => f.infinity.toList
  | .infinite true => f.negativeInfinity.toList
  | .finite negative units _ =>
    if units = 0 then
      (if negative && f.signedZero then ['-'] else []) ++ '0' :: f.wholeEnd
    else
      (if negative then ['-'] else []) ++ f.writeMagnitude units

/-- The format of text that people read: whole numbers below `10 ^ 21` digit for digit, other
numbers from a millionth up with the point in place, and the rest with an exponent. -/
def display : NumberFormat where
  lowestInPlace := -6
  highestInPlace := 20
  tie := .up
  wholeExactly := true
  pointZero := false
  signedZero := false
  nan := "NaN"
  infinity := "Infinity"
  negativeInfinity := "-Infinity"

/-- The format of stored numbers: always with a point or an exponent, and `null` for what has no
digits. -/
def stored : NumberFormat where
  lowestInPlace := -5
  highestInPlace := 15
  tie := .even
  wholeExactly := false
  pointZero := true
  signedZero := true
  nan := "null"
  infinity := "null"
  negativeInfinity := "null"

end NumberFormat

end JsonRules
