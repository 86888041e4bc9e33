import JsonRules.Binary64.Basic

/-!
Arithmetic of double-precision numbers.

Each operation treats not-a-number, the infinities and the signs of zeros by the rules of IEEE 754
and on two finite numbers computes the exact result in units and rounds once.
-/

namespace JsonRules.Binary64

/-- The double nearest to a signed count of units.  The sign of a zero is given. -/
def ofSignedUnits (zeroSign : Bool) (z : Int) : Binary64 :=
  if z = 0 then zero zeroSign else ofRatio (z < 0) z.natAbs 1

/-- Opposite infinities have no sum, and a zero sum is negative only if both operands are. -/
def add : Binary64 → Binary64 → Binary64
  | .nan, _ => .nan
  | _, .nan => .nan
  | .infinite s, .infinite t => if s = t then .infinite s else .nan
  | .infinite s, .finite .. => .infinite s
  | .finite .., .infinite t => .infinite t
  | .finite s m _, .finite t n _ => ofSignedUnits (s && t) (signedUnits s m + signedUnits t n)

def sub (x y : Binary64) : Binary64 := x.add y.neg

/-- Zero times an infinity is not a number. -/
def mul : Binary64 → Binary64 → Binary64
  | .nan, _ => .nan
  | _, .nan => .nan
  | .infinite s, .infinite t => .infinite (s != t)
  | .infinite s, .finite t n _ => if n = 0 then .nan else .infinite (s != t)
  | .finite s m _, .infinite t => if m = 0 then .nan else .infinite (s != t)
  | .finite s m _, .finite t n _ => ofRatio (s != t) (m * n) unitsInOne

/-- Division by zero gives an infinity, and zero by zero or infinity by infinity not-a-number. -/
def div : Binary64 → Binary64 → Binary64
  | .nan, _ => .nan
  | _, .nan => .nan
  | .infinite _, .infinite _ => .nan
  | .infinite s, .finite t _ _ => .infinite (s != t)
  | .finite s _ _, .infinite t => zero (s != t)
  | .finite s m _, .finite t n _ =>
    if n = 0 then
      if m = 0 then .nan else .infinite (s != t)
    else
      ofRatio (s != t) (m * unitsInOne) n

/-- What remains of the first operand after whole multiples of the second, with the first
operand's sign.  It is never rounded: the remainder of two counts of units is on the finer grid. -/
def rem : Binary64 → Binary64 → Binary64
  | .nan, _ => .nan
  | _, .nan => .nan
  | .infinite _, _ => .nan
  | .finite s m h, .infinite _ => .finite s m h
  | .finite s m _, .finite _ n _ => if n = 0 then .nan else ofRatio s (m % n) 1

end JsonRules.Binary64
