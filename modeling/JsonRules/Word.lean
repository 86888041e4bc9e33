/-!
64-bit words, signed unless otherwise said, as the integers that they hold.
-/

namespace JsonRules.Word

def lowest : Int := -9223372036854775808

def highest : Int := 9223372036854775807

def highestUnsigned : Nat := 18446744073709551615

/-- The integer of a word nearest to any integer. -/
def clamp (z : Int) : Int := max lowest (min z highest)

/-- The word with the last 64 bits of a number. -/
def cast (n : Nat) : Int := Int.bmod n 18446744073709551616

/-- The sum of two words, if it is one. -/
def add? (a b : Int) : Option Int :=
  if lowest ≤ a + b ∧ a + b ≤ highest then some (a + b) else none

/-- The word nearest to the sum of two words. -/
def addClamped (a b : Int) : Int := clamp (a + b)

/-- A number that is a word is cast to itself. -/
theorem cast_of_le {n : Nat} (h : n ≤ highest) : cast n = n := by
  rw [highest] at h
  apply Int.bmod_eq_of_le <;> omega

end JsonRules.Word
