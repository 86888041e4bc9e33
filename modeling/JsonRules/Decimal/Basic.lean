import JsonRules.Binary64.Basic

/-!
Decimal magnitudes and the doubles nearest to them.

`Decimal.nearest` is the one way from decimal notation to a double.  Reading a numeral uses it, and
so does the search for the shortest decimal, which asks of each candidate whether it reads back.
-/

namespace JsonRules

/-- The magnitude `coefficient * 10 ^ exponent`. -/
structure Decimal where
  coefficient : Nat
  exponent : Int
  deriving DecidableEq

namespace Decimal

/-- The magnitude in units, as a quotient of natural numbers. -/
def unitsRatio (d : Decimal) : Nat × Nat :=
  match d.exponent with
  | .ofNat k => (d.coefficient * Nat.pow 10 k * Binary64.unitsInOne, 1)
  | .negSucc k => (d.coefficient * Binary64.unitsInOne, Nat.pow 10 (k + 1))

/-- No positive decimal with a higher exponent is finite. -/
def highestExponent : Int := 400

/-- A decimal with an exponent below this bound rounds to zero: its coefficient has fewer decimal
places than binary ones. -/
def lowestExponent (coefficient : Nat) : Int := -(400 + coefficient.log2 : Nat)

/-- The double nearest to a decimal of the given sign.  The outermost exponents are settled without
writing out their power of ten. -/
def nearest (negative : Bool) (d : Decimal) : Binary64 :=
  if d.coefficient = 0 ∨ d.exponent < lowestExponent d.coefficient then .zero negative
  else if highestExponent < d.exponent then .infinite negative
  else .ofRatio negative d.unitsRatio.1 d.unitsRatio.2

end Decimal

end JsonRules
