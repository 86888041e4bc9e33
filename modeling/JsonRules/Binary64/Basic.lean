import JsonRules.Binary64.Rounding
import JsonRules.Word

/-!
The type of double-precision numbers.

A double is not a number, an infinity, or a sign with a representable count of units.  Each double
has one form, so `=` tells any two apart (the two zeros too), while `equals`, `lessThan` and
`atMost` compare places on the number line, where the zeros meet and not-a-number has no place.
-/

namespace JsonRules

/-- A double-precision number.  All not-a-number patterns are one value. -/
inductive Binary64
  | nan
  | infinite (negative : Bool)
  | finite (negative : Bool) (units : Nat) (representable : Binary64.Representable units)
  deriving DecidableEq

namespace Binary64

def zero (negative : Bool) : Binary64 :=
  .finite negative 0 representable_zero

/-- The double nearest to `num / den` units, infinite when it leaves the finite range. -/
def ofRatio (negative : Bool) (num den : Nat) : Binary64 :=
  if h : roundUnits num den < unitLimit then
    .finite negative (roundUnits num den) (representable_roundUnits h)
  else
    .infinite negative

def ofInt (z : Int) : Binary64 := ofRatio (z < 0) (z.natAbs * unitsInOne) 1

def ofNat (n : Nat) : Binary64 := ofRatio false (n * unitsInOne) 1

def isNaN : Binary64 → Bool
  | .nan => true
  | _ => false

def isFinite : Binary64 → Bool
  | .finite .. => true
  | _ => false

def isZero : Binary64 → Bool
  | .finite _ units _ => units == 0
  | _ => false

/-- The other sign, not-a-number apart. -/
def neg : Binary64 → Binary64
  | .nan => .nan
  | .infinite negative => .infinite !negative
  | .finite negative units h => .finite (!negative) units h

/-- A count of units with its sign. -/
def signedUnits (negative : Bool) (units : Nat) : Int :=
  if negative then -(units : Int) else units

/-- The place on the number line in units.  The infinities stand just beyond the finite range, and
not-a-number has no place. -/
def place? : Binary64 → Option Int
  | .nan => none
  | .infinite negative => some (signedUnits negative unitLimit)
  | .finite negative units _ => some (signedUnits negative units)

/-- Whether both numbers have a place and the places are related. -/
def placesRelated (related : Int → Int → Bool) (x y : Binary64) : Bool :=
  match x.place?, y.place? with
  | some a, some b => related a b
  | _, _ => false

def equals : Binary64 → Binary64 → Bool := placesRelated fun a b => a == b

def lessThan : Binary64 → Binary64 → Bool := placesRelated fun a b => decide (a < b)

def atMost : Binary64 → Binary64 → Bool := placesRelated fun a b => decide (a ≤ b)

/-- The lesser of two numbers, the first if neither is less.  Not-a-number is dropped in either
place. -/
def lesser (x y : Binary64) : Binary64 :=
  if x.isNaN then y else if y.lessThan x then y else x

/-- The greater of two numbers, the first if neither is greater.  Not-a-number is dropped in either
place. -/
def greater (x y : Binary64) : Binary64 :=
  if x.isNaN then y else if x.lessThan y then y else x

/-- The part before the point as a 64-bit word: beyond the range the nearest bound, and zero for
not-a-number. -/
def truncateToWord : Binary64 → Int
  | .nan => 0
  | .infinite negative => if negative then Word.lowest else Word.highest
  | .finite negative units _ => Word.clamp (signedUnits negative (units / unitsInOne))

theorem ofRatio_of_representable (negative : Bool) {n : Nat} (h : Representable n) :
    ofRatio negative n 1 = .finite negative n h := by
  simp [ofRatio, roundUnits_of_representable h, h.1]

end Binary64

end JsonRules
