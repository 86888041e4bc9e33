import JsonRules.Error

/-!
How operators take their operands.
-/

namespace JsonRules

/-- The numbers of operands that an operator accepts. -/
inductive Arity
  | any
  | fixed (n : Nat)
  /-- From `min` operands up to `max`, or without an upper bound. -/
  | range (min : Nat) (max : Option Nat)
  deriving DecidableEq

/-- Whether an operator takes the values of its operands or the operands themselves, of which it
evaluates those that it needs. -/
inductive Mode
  | eager
  | raw
  deriving DecidableEq

/-- What is known of an operator before it runs. -/
structure Signature where
  arity : Arity
  mode : Mode
  deriving DecidableEq

namespace Arity

/-- The count that is asked for when `count` operands are not accepted. -/
def mismatch? (arity : Arity) (count : Nat) : Option OperandCount :=
  match arity with
  | .any => none
  | .fixed n => if count = n then none else some (.exactly n)
  | .range min max =>
    if count < min then some (.atLeast min)
    else
      match max with
      | some max => if max < count then some (.atMost max) else none
      | none => none

/-- Accepts a count of operands or fails in the name of an operator. -/
def check (arity : Arity) (operator : String) (count : Nat) : Except RuleError Unit :=
  match arity.mismatch? count with
  | none => .ok ()
  | some expected => .error (.operandCount operator expected)

end Arity

end JsonRules
