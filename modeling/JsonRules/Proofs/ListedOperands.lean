import JsonRules.Proofs.Derivation
import JsonRules.Proofs.Surroundings

/-!
Operands written as lists.

An operation may be written with its single operand in place of a list of operands.
`Value.listed` writes all operations of a rule with lists, and leaves literals as they are, even
those that have an operation in them.  On the standard operators, no run and no check can tell the
two spellings apart.
-/

namespace JsonRules

variable {σ : Type}

mutual

/-- The rule with every operation in it written with a list of operands.  Only operands are gone
into: an array that is an operand, and an object of more keys or none, stand for themselves. -/
def Value.listed : Value → Value
  | .object [(name, .array items)] => .operation name (Value.listedAll items)
  | .object [(name, argument)] => .operation name [argument.listed]
  | value => value

def Value.listedAll : List Value → List Value
  | [] => []
  | value :: rest => value.listed :: Value.listedAll rest

end

mutual

/-- The same for a rule that has been read. -/
def Rule.listed : Rule → Rule
  | .literal value => .literal value
  | .operation name operands => .operation name (Rule.listedAll operands)
  | .shorthand name operand => .operation name [operand.listed]

def Rule.listedAll : List Rule → List Rule
  | [] => []
  | rule :: rest => rule.listed :: Rule.listedAll rest

end

namespace Rule

theorem listedAll_eq_map (rules : List Rule) : listedAll rules = rules.map listed := by
  induction rules with
  | nil => rfl
  | cons rule rest ih => rw [listedAll, ih, List.map_cons]

mutual

/-- Writing operands as lists and reading the rule may be done in either order. -/
theorem ofValue_listed : ∀ value : Value, ofValue value.listed = (ofValue value).listed
  | .object [(name, .array items)] => by
      rw [Value.listed, Value.operation, ofValue, ofValue, listed, ofValues_listed items]
  | .object [(name, .object fields)] => by
      have h := ofValue_listed (.object fields)
      simp [Value.listed, Value.operation, ofValue, ofValues, listed, h]
  | .object [(name, .null)] => by
      simp [Value.listed, Value.operation, ofValue, ofValues, listed]
  | .object [(name, .bool _)] => by
      simp [Value.listed, Value.operation, ofValue, ofValues, listed]
  | .object [(name, .number _)] => by
      simp [Value.listed, Value.operation, ofValue, ofValues, listed]
  | .object [(name, .string _)] => by
      simp [Value.listed, Value.operation, ofValue, ofValues, listed]
  | .object [] => by simp [Value.listed, ofValue, listed]
  | .object (_ :: _ :: _) => by simp [Value.listed, ofValue, listed]
  | .null => by simp [Value.listed, ofValue, listed]
  | .bool _ => by simp [Value.listed, ofValue, listed]
  | .number _ => by simp [Value.listed, ofValue, listed]
  | .string _ => by simp [Value.listed, ofValue, listed]
  | .array _ => by simp [Value.listed, ofValue, listed]

theorem ofValues_listed : ∀ values : List Value,
    ofValues (Value.listedAll values) = listedAll (ofValues values)
  | [] => rfl
  | value :: rest => by
      rw [Value.listedAll, ofValues, ofValues, listedAll, ofValue_listed value,
        ofValues_listed rest]

end

theorem operation?_listed {rule : Rule} {name : String} {operands : List Rule}
    (hrule : rule.operation? = some (name, operands)) :
    rule.listed.operation? = some (name, operands.map listed) := by
  cases rule with
  | literal value => cases hrule
  | operation name operands =>
      cases hrule
      rw [listed, operation?, listedAll_eq_map]
  | shorthand name operand =>
      cases hrule
      rfl

/-- At each place there is the same rule, with its operands written as lists. -/
theorem at?_listed (rule : Rule) (place : List Nat) :
    rule.listed.at? place = (rule.at? place).map listed := by
  induction place generalizing rule with
  | nil => rw [at?_nil, at?_nil, Option.map_some]
  | cons position rest ih =>
      cases hrule : rule.operation? with
      | none =>
          cases rule with
          | literal value => rfl
          | operation name operands => cases hrule
          | shorthand name operand => cases hrule
      | some operation =>
          obtain ⟨name, operands⟩ := operation
          cases hoperand : operands[position]? with
          | none => simp [at?, hrule, operation?_listed hrule, hoperand]
          | some operand =>
              have hlisted : (operands.map listed)[position]? = some operand.listed := by
                rw [List.getElem?_map, hoperand, Option.map_some]
              rw [at?_cons hrule hoperand, at?_cons (operation?_listed hrule) hlisted]
              exact ih operand

/-- No operation is left that is written without a list. -/
theorem at?_listed_ne_shorthand (rule : Rule) (place : List Nat) (name : String) (operand : Rule) :
    rule.listed.at? place ≠ some (.shorthand name operand) := by
  rw [at?_listed]
  intro h
  obtain ⟨inner, -, hinner⟩ := Option.map_eq_some_iff.1 h
  cases inner <;> cases hinner

/-- Operations are checked alike if their operands are, so the spelling makes no difference. -/
theorem checkedLike_listed (operators : Registry σ) (options : Options) (rule : Rule) :
    rule.listed.CheckedLike operators options rule := by
  induction rule using Rule.induct with
  | literal value => exact fun _ => rfl
  | operation rule name operands hrule ih =>
      apply CheckedLike.of_operands (operation?_listed hrule) hrule
      rw [List.forall₂_map_left_iff, List.forall₂_same]
      exact ih

end Rule

/-- Where no host operator is registered, an operation depends on the runs of its operands and not
on how they are written. -/
theorem dispatch_eq_of_map_run {context : Context σ} (honly : context.operators.OnlyBuiltins)
    (reentry : Reentry σ) (name : String) {operands others : List (Operand σ)}
    (h : operands.map Operand.run = others.map Operand.run) :
    dispatch reentry context name operands = dispatch reentry context name others := by
  have hlength : operands.length = others.length := by
    simpa using congrArg List.length h
  funext depth state
  rw [dispatch_apply, dispatch_apply, hlength]
  cases hadmission : context.operators.admission context.options depth name others.length with
  | error e => rfl
  | ok operator =>
      obtain ⟨hget, -⟩ := Registry.admission_eq_ok_iff.1 hadmission
      obtain ⟨b, rfl⟩ := honly name operator hget
      simp only [Operator.run, h]

/-- Where no host operator is registered, a rule runs as it does with its operands written as
lists. -/
theorem Rule.run_listed {context : Context σ} (honly : context.operators.OnlyBuiltins)
    (reentry : Reentry σ) (rule : Rule) :
    rule.listed.run reentry context = rule.run reentry context := by
  induction rule using Rule.induct with
  | literal value => rfl
  | operation rule name operands hrule ih =>
      rw [run_of_operation? hrule, run_of_operation? (operation?_listed hrule)]
      apply dispatch_eq_of_map_run honly
      apply List.ext_getElem?
      intro index
      change (operandRuns _ _ _ _)[index]? = (operandRuns _ _ _ _)[index]?
      rw [getElem?_operandRuns, getElem?_operandRuns, List.getElem?_map]
      cases hoperand : operands[index]? with
      | none => rfl
      | some operand =>
          have hsame := ih operand (List.mem_of_getElem? hoperand)
          simp only [Option.map_some, hsame]

namespace Engine

theorem apply_listed_of_onlyBuiltins {engine : Engine σ} (honly : engine.operators.OnlyBuiltins)
    (budget : Nat) (rule data : Value) (state : σ) :
    engine.apply budget rule.listed data state = engine.apply budget rule data state := by
  have hcontext : (engine.context data).operators.OnlyBuiltins := honly
  rw [apply, apply, evaluate, evaluate, Rule.ofValue_listed, Rule.run_listed hcontext]

theorem verdict_listed (engine : Engine σ) (rule : Value) :
    engine.verdict rule.listed = engine.verdict rule := by
  rw [verdict_eq, verdict_eq, Rule.ofValue_listed]
  exact Rule.checkedLike_listed _ _ _ 0

/-- A single operand without a list is notation.  With the operands of all operations written as
lists, a rule comes to the same report on the standard operators, whatever the data and the limit,
with the same answer and the same events; and the check comes to the same.  Nowhere in it is an
operation left that is written without a list. -/
theorem apply_listed (options : Options) (budget : Nat) (rule data : Value) (state : σ) :
    (∃ report, (standard.withOptions options).apply budget rule data state = some report ∧
      (standard.withOptions options).apply budget rule.listed data state = some report) ∧
    ((standard : Engine σ).withOptions options).verdict rule.listed =
      ((standard : Engine σ).withOptions options).verdict rule ∧
    ∀ place name operand,
      (Rule.ofValue rule.listed).at? place ≠ some (.shorthand name operand) := by
  have honly : ((standard : Engine σ).withOptions options).operators.OnlyBuiltins :=
    Registry.onlyBuiltins_standard
  refine ⟨?_, verdict_listed _ rule, ?_⟩
  · obtain ⟨answer, marks, -, happly⟩ := exists_apply_eq _ honly rule data
    refine ⟨_, happly budget state, ?_⟩
    rw [apply_listed_of_onlyBuiltins honly, happly]
  · rw [Rule.ofValue_listed]
    exact Rule.at?_listed_ne_shorthand (.ofValue rule)

end Engine

end JsonRules
