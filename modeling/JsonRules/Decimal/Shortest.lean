import JsonRules.Decimal.Basic

/-!
The shortest decimal that reads back as a given double.

The multiples of `10 ^ k` are a grid that grows finer as `k` falls.  The search takes the coarsest
grid with a point that reads back as the double, and of its two points beside the double the nearer.
At the exponent -1074 the double itself is on the grid, so the search always ends with a decimal
that reads back.
-/

namespace JsonRules.Decimal

/-- Which of two equally near decimals is taken. -/
inductive Tie
  | up
  | even
  deriving DecidableEq

/-- A magnitude of `units` measured in steps of `10 ^ exponent`, as a quotient. -/
def stepsRatio (units : Nat) (exponent : Int) : Nat × Nat :=
  match exponent with
  | .ofNat k => (units, Binary64.unitsInOne * Nat.pow 10 k)
  | .negSucc k => (units * Nat.pow 10 (k + 1), Binary64.unitsInOne)

/-- Whether a decimal reads back as the double of `units` units. -/
def readsBack (units : Nat) (d : Decimal) : Bool :=
  match d.nearest false with
  | .finite _ n _ => n == units
  | _ => false

/-- Whether the lower of the two neighbouring grid points comes first: it is the nearer, or as near
and preferred. -/
def lowerFirst (tie : Tie) (num den : Nat) : Bool :=
  let twice := 2 * (num % den)
  twice < den || (twice == den && tie == .even && num / den % 2 == 0)

/-- The grid point nearest to the double that reads back as it, on the grid of one exponent. -/
def onGrid? (tie : Tie) (units : Nat) (exponent : Int) : Option Decimal :=
  let (num, den) := stepsRatio units exponent
  let lower : Decimal := ⟨num / den, exponent⟩
  let upper : Decimal := ⟨num / den + 1, exponent⟩
  let candidates := if lowerFirst tie num den then [lower, upper] else [upper, lower]
  candidates.find? (readsBack units)

/-- The magnitude of a double written out in full. -/
def exact (units : Nat) : Decimal := ⟨units * Nat.pow 5 1074, -1074⟩

/-- Tries ever finer grids, `count` of them above the last, on which the double lies. -/
def search (tie : Tie) (units : Nat) : Nat → Decimal
  | 0 => exact units
  | count + 1 => (onGrid? tie units (count - 1073)).getD (search tie units count)

/-- The number of grids to try.  A double of `b` binary places has at most `0.30103 * b` decimal
ones, and the grids above those have no point near it. -/
def gridCount (units : Nat) : Nat := (units.log2 + 1) * 30103 / 100000 + 752

/-- The shortest decimal that reads back as the double of `units` units. -/
def shortest (tie : Tie) (units : Nat) : Decimal := search tie units (gridCount units)

end JsonRules.Decimal
