import JsonRules.Binary64.Basic

/-!
The 64-bit interchange form of double-precision numbers.

A word is a sign bit, eleven exponent bits and 52 fraction bits.  Below the sign, the word of a
count of units is its binade times `2 ^ 52` plus the significand, a carry of the leading bit
included, so that words grow with magnitudes.
-/

namespace JsonRules.Binary64

/-- The first number beyond the 52 fraction bits. -/
def fractionLimit : Nat := Nat.pow 2 52

/-- The exponent bits of the infinities and of not-a-number. -/
def topExponent : Nat := 2047

/-- The word below the sign bit of a magnitude: for a spacing of `2 ^ e` units and `m`
steps, it is `e * 2 ^ 52 + m`. -/
def magnitudeBits (units : Nat) : Nat :=
  (units.log2 - 52) * fractionLimit + units / spacing units

/-- The sign in its place above the 63 magnitude bits. -/
def withSignBit (negative : Bool) (magnitude : Nat) : Nat :=
  if negative then (topExponent + 1) * fractionLimit + magnitude else magnitude

/-- The interchange word, or `none` for not-a-number, which has many. -/
def toBits? : Binary64 → Option Nat
  | .nan => none
  | .infinite negative => some (withSignBit negative (topExponent * fractionLimit))
  | .finite negative units _ => some (withSignBit negative (magnitudeBits units))

/-- The magnitude that exponent and fraction bits stand for, in units. -/
def unitsOfBits (exponent fraction : Nat) : Nat :=
  if exponent = 0 then fraction else (fractionLimit + fraction) * Nat.pow 2 (exponent - 1)

def exponentOf (word : Nat) : Nat := word / fractionLimit % (topExponent + 1)

def fractionOf (word : Nat) : Nat := word % fractionLimit

/-- The number of an interchange word.  Bits beyond the lowest 64 do not count. -/
def ofBits (word : Nat) : Binary64 :=
  if exponentOf word = topExponent then
    if fractionOf word = 0 then .infinite (word.testBit 63) else .nan
  else
    ofRatio (word.testBit 63) (unitsOfBits (exponentOf word) (fractionOf word)) 1

end JsonRules.Binary64
