import JsonRules.Registry
import JsonRules.Rule

/-!
Checking rules before they run.

A rule passes if every operation that is sure to be entered has an operator, is not nested too deep
and has a fitting number of operands.  Operands of raw operators may never run or may be mere data,
so they are not looked at.
-/

namespace JsonRules

variable {σ : Type}

/-- The mode of the operator of an operation at a nesting depth, if the operation passes. -/
def Registry.checkNode (operators : Registry σ) (options : Options) (depth : Nat) (name : String)
    (count : Nat) : Except RuleError Mode := do
  match operators.get? name with
  | none => throw (.unknownOperator name)
  | some operator =>
    match options.maxDepth with
    | some max => if max ≤ depth then throw (.depthExceeded max)
    | none => pure ()
    operator.signature.arity.check name count
    return operator.signature.mode

mutual

/-- Checks a rule that stands at a nesting depth. -/
def Rule.check (operators : Registry σ) (options : Options) : Nat → Rule → Except RuleError Unit
  | _, .literal _ => .ok ()
  | depth, .operation name operands => do
    match ← operators.checkNode options depth name operands.length with
    | .raw => return ()
    | .eager => Rule.checkAll operators options (depth + 1) operands
  | depth, .shorthand name operand => do
    match ← operators.checkNode options depth name 1 with
    | .raw => return ()
    | .eager => operand.check operators options (depth + 1)

def Rule.checkAll (operators : Registry σ) (options : Options) :
    Nat → List Rule → Except RuleError Unit
  | _, [] => .ok ()
  | depth, rule :: rest => do
    rule.check operators options depth
    Rule.checkAll operators options depth rest

end

end JsonRules
