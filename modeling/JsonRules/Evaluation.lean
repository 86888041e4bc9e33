import JsonRules.Registry
import JsonRules.Rule

/-!
Evaluating rules.

A rule is evaluated by recursion on the rule.  An operation is looked up, its operands are counted,
and a level is entered for as long as its operator runs.  Only host operators evaluate rules that
are no part of the rule at hand; a budget bounds how deep such evaluations are nested in one
another, and a run that spends it is stuck.  Standard operators need no budget.
-/

namespace JsonRules

/-- Where a rule is evaluated. -/
structure Context (σ : Type) where
  data : Value
  operators : Registry σ
  options : Options

/-- An operand of an operation: as it is written, and as a run. -/
structure Operand (σ : Type) where
  rule : Rule
  run : Run σ Value

/-- What host operators can start. -/
structure Reentry (σ : Type) where
  /-- Evaluates a rule. -/
  evaluate : Context σ → Value → Run σ Value
  /-- Gives an operator operands as they are. -/
  call : Context σ → Operator σ → List Value → Run σ Value

variable {σ : Type}

def Context.view (context : Context σ) : View :=
  ⟨context.data, context.options, context.operators.signatures⟩

/-- Does what a host operator wants done. -/
def Action.run (reentry : Reentry σ) (context : Context σ) : Action σ → Run σ Value
  | .finish answer => Run.orRaise answer
  | .evaluate rule next => do
    let answer ← (reentry.evaluate context rule).attempt
    (next answer).run reentry context
  | .evaluateOn data options rule next => do
    let answer ← (reentry.evaluate ⟨data, context.operators, options⟩ rule).apart.attempt
    (next answer).run reentry context
  | .call name operands next =>
    match context.operators.get? name with
    | none => (next none).run reentry context
    | some operator => do
      let answer ← (reentry.call context operator operands).attempt
      (next (some answer)).run reentry context
  | .depth next => do (next (← Run.depth)).run reentry context
  | .get next => do (next (← Run.get)).run reentry context
  | .set state next => do
    Run.set state
    next.run reentry context

/-- What an operator makes of its operands. -/
def Operator.run (reentry : Reentry σ) (context : Context σ) (operator : Operator σ)
    (operands : List (Operand σ)) : Run σ Value :=
  match operator with
  | .builtin b => b.run context.data (operands.map Operand.run)
  | .host h =>
    match h.signature.mode with
    | .eager => do
      let values ← Run.all (operands.map Operand.run)
      (h.act context.view values).run reentry context
    | .raw => (h.act context.view (operands.map fun o => o.rule.toValue)).run reentry context

/-- What an operator makes of operands that are given as they are: an eager operator takes them for
values, and a raw one for rules. -/
def Operator.call (reentry : Reentry σ) (context : Context σ) (operator : Operator σ)
    (operands : List Value) : Run σ Value :=
  operator.run reentry context <| operands.map fun value =>
    match operator.signature.mode with
    | .eager => ⟨.ofValue value, Run.ok value⟩
    | .raw => ⟨.ofValue value, reentry.evaluate context value⟩

/-- Runs an operation: an operator must have the name and accept the number of operands, and a level
must be free. -/
def dispatch (reentry : Reentry σ) (context : Context σ) (name : String)
    (operands : List (Operand σ)) : Run σ Value :=
  match context.operators.get? name with
  | none => do
    Run.emit (.unknownOperator name)
    Run.raise (.unknownOperator name)
  | some operator => do
    Run.orRaise (operator.signature.arity.check name operands.length)
    Run.enter context.options.maxDepth
    Run.andFinally (announced operator) Run.leave
where
  announced (operator : Operator σ) : Run σ Value := do
    Run.emit (.dispatch name operands.length (← Run.depth))
    operator.run reentry context operands

mutual

def Rule.run (reentry : Reentry σ) (context : Context σ) : Rule → Run σ Value
  | .literal value => Run.ok value
  | .operation name operands =>
    dispatch reentry context name (Rule.operands reentry context 0 operands)
  | .shorthand name operand =>
    dispatch reentry context name [⟨operand, (operand.run reentry context).within 0⟩]

/-- The operands of an operation from a position on. -/
def Rule.operands (reentry : Reentry σ) (context : Context σ) : Nat → List Rule → List (Operand σ)
  | _, [] => []
  | position, rule :: rest =>
    ⟨rule, (rule.run reentry context).within position⟩ ::
      Rule.operands reentry context (position + 1) rest

end

/-- What host operators can start with a budget. -/
def Reentry.ofBudget : Nat → Reentry σ
  | 0 => ⟨fun _ _ => Run.stuck, fun _ _ _ => Run.stuck⟩
  | budget + 1 =>
    ⟨fun context value => ((Rule.ofValue value).run (ofBudget budget) context).moved,
      fun context operator operands => (operator.call (ofBudget budget) context operands).moved⟩

def evaluate (budget : Nat) (context : Context σ) (rule : Value) : Run σ Value :=
  (Rule.ofValue rule).run (.ofBudget budget) context

/-- Calls a standard or host operator directly with operands as they are. -/
def call (budget : Nat) (context : Context σ) (operator : Operator σ) (operands : List Value) :
    Run σ Value :=
  operator.call (.ofBudget budget) context operands

/-- Evaluates rules one after another in one context, errors or not. -/
def evaluateInTurn (budget : Nat) (context : Context σ) :
    List Value → Nat → σ → Option (List (Report σ Value))
  | [], _, _ => some []
  | rule :: rest, depth, state => do
    let report ← evaluate budget context rule depth state
    let reports ← evaluateInTurn budget context rest report.depth report.state
    return report :: reports

end JsonRules
