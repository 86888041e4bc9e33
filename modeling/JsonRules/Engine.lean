import JsonRules.Evaluation
import JsonRules.Json.Basic
import JsonRules.Validation

/-!
Engines and checked rules.

An engine is a registry with options.  A checked rule keeps the engine that it was checked by, as it
was at that time.
-/

namespace JsonRules

/-- Evaluates rules with a registry and options. -/
structure Engine (σ : Type) where
  operators : Registry σ
  options : Options

/-- A rule that passed the check of an engine. -/
structure CheckedRule (σ : Type) where
  rule : Value
  engine : Engine σ

variable {σ : Type}

namespace Engine

def standard : Engine σ := ⟨.standard, .standard⟩

def register (engine : Engine σ) (name : String) (operator : Operator σ) : Engine σ :=
  { engine with operators := engine.operators.insert name operator }

def withOptions (engine : Engine σ) (options : Options) : Engine σ :=
  { engine with options := options }

/-- Where the engine evaluates rules on some data. -/
def context (engine : Engine σ) (data : Value) : Context σ :=
  ⟨data, engine.operators, engine.options⟩

/-- Evaluates a rule on some data, from a state of the host. -/
def apply (engine : Engine σ) (budget : Nat) (rule data : Value) (state : σ) :
    Option (Report σ Value) :=
  evaluate budget (engine.context data) rule 0 state

def check (engine : Engine σ) (rule : Value) : Except RuleError (CheckedRule σ) := do
  (Rule.ofValue rule).check engine.operators engine.options 0
  return ⟨rule, engine⟩

end Engine

/-- Evaluates a checked rule on some data, from a state of the host. -/
def CheckedRule.apply (checked : CheckedRule σ) (budget : Nat) (data : Value) (state : σ) :
    Option (Report σ Value) :=
  checked.engine.apply budget checked.rule data state

/-- The answer as a document of the host. -/
def Report.json (report : Report σ Value) : Except RuleError Json := report.answer.map Value.toJson

end JsonRules
