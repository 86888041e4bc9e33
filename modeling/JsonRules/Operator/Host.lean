import JsonRules.Options
import JsonRules.Run
import JsonRules.Signature

/-!
Operators of the host.

A host operator sees the data, the options and which operators there are, and then acts: it may
evaluate rules, call operators, ask for the nesting depth and use a state of its own, as often as it
likes and with the answers at hand, before it finishes.  An `Action` is the tree of all that it may
do.
-/

namespace JsonRules

structure View where
  data : Value
  options : Options
  /-- The names in use and what is known of their operators. -/
  operators : List (String × Signature)

/-- What a host operator does. -/
inductive Action (σ : Type)
  | finish (answer : Except RuleError Value)
  /-- Evaluates a rule in place, on the same data and at the same nesting. -/
  | evaluate (rule : Value) (next : Except RuleError Value → Action σ)
  /-- Evaluates a rule on other data, with a nesting of its own. -/
  | evaluateOn (data : Value) (options : Options) (rule : Value)
    (next : Except RuleError Value → Action σ)
  /-- Calls an operator with operands as they are, unless nothing has the name. -/
  | call (operator : String) (operands : List Value)
    (next : Option (Except RuleError Value) → Action σ)
  /-- Asks for the nesting depth. -/
  | depth (next : Nat → Action σ)
  /-- Asks for the state of the host. -/
  | get (next : σ → Action σ)
  /-- Changes the state of the host. -/
  | set (state : σ) (next : Action σ)

/-- An operator of the host.  It is given the values of its operands if it is eager, and the
operands as they are written if it is raw. -/
structure HostOperator (σ : Type) where
  signature : Signature
  act : View → List Value → Action σ

end JsonRules
