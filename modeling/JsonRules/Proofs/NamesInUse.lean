import JsonRules.Operator.Sample
import JsonRules.Proofs.Derivation
import JsonRules.Proofs.Nodes

/-!
The operators that a rule depends on.

Only the operations of a rule are looked up in a registry: what a rule takes from the data or makes
by itself is never run, even if it is spelled like an operation.  So two registries behave alike on
a rule if they agree on its names (`Rule.run_congr`, `Rule.check_congr`), and changing what another
name stands for makes no difference.
-/

namespace JsonRules

variable {σ : Type}

namespace Registry

/-- Both registries have the same operator under each of these names, or none. -/
def AgreeOn (operators others : Registry σ) (names : List String) : Prop :=
  ∀ name ∈ names, operators.get? name = others.get? name

theorem agreeOn_insert {names : List String} {name : String} (hname : name ∉ names)
    (operators : Registry σ) (operator : Operator σ) :
    operators.AgreeOn (operators.insert name operator) names := by
  intro other hother
  have hne : name ≠ other := fun h => hname (h ▸ hother)
  rw [get?_insert, if_neg hne]

theorem agreeOn_erase {names : List String} {name : String} (hname : name ∉ names)
    (operators : Registry σ) : operators.AgreeOn (operators.erase name) names := by
  intro other hother
  have hne : name ≠ other := fun h => hname (h ▸ hother)
  rw [get?_erase, if_neg hne]

/-- The operands of an operation use no names but those of the operation. -/
theorem AgreeOn.operand {operators others : Registry σ} {rule operand : Rule} {name : String}
    {operands : List Rule} (hagree : operators.AgreeOn others rule.names)
    (hrule : rule.operation? = some (name, operands)) (hoperand : operand ∈ operands) :
    operators.AgreeOn others operand.names :=
  fun other hother => hagree other (Rule.mem_names_of_operand hrule hoperand hother)

theorem checkNode_congr {operators others : Registry σ} {name : String}
    (hname : operators.get? name = others.get? name) (options : Options) (depth count : Nat) :
    operators.checkNode options depth name count = others.checkNode options depth name count := by
  unfold checkNode
  rw [hname]

end Registry

variable {operators others : Registry σ}

/-- A standard operator has no use for the registry in which it was found. -/
theorem dispatch_congr (honly : operators.OnlyBuiltins) {name : String}
    (hname : operators.get? name = others.get? name) (reentry : Reentry σ) (data : Value)
    (options : Options) (operands : List (Operand σ)) :
    dispatch reentry ⟨data, operators, options⟩ name operands =
      dispatch reentry ⟨data, others, options⟩ name operands := by
  cases hget : operators.get? name with
  | none => simp only [dispatch, hget, ← hname]
  | some operator =>
      obtain ⟨b, rfl⟩ := honly name operator hget
      simp only [dispatch, hget, ← hname]
      rfl

namespace Rule

theorem operands_congr {reentry : Reentry σ} {context other : Context σ} (position : Nat)
    {operands : List Rule}
    (h : ∀ operand ∈ operands, operand.run reentry context = operand.run reentry other) :
    Rule.operands reentry context position operands =
      Rule.operands reentry other position operands := by
  induction operands generalizing position with
  | nil => rfl
  | cons operand rest ih =>
      obtain ⟨hoperand, hrest⟩ := List.forall_mem_cons.1 h
      rw [Rule.operands, Rule.operands, hoperand, ih (position + 1) hrest]

/-- A rule runs alike with registries that agree on its names. -/
theorem run_congr (honly : operators.OnlyBuiltins) (reentry : Reentry σ) (data : Value)
    (options : Options) (rule : Rule) (hagree : operators.AgreeOn others rule.names) :
    rule.run reentry ⟨data, operators, options⟩ = rule.run reentry ⟨data, others, options⟩ := by
  induction rule using Rule.induct with
  | literal value => rfl
  | operation rule name operands hrule ih =>
      have hname := hagree name (mem_names_of_operation? hrule)
      have hoperands := operands_congr 0 fun operand hoperand =>
        ih operand hoperand (hagree.operand hrule hoperand)
      rw [run_of_operation? hrule, run_of_operation? hrule, hoperands,
        dispatch_congr honly hname]

theorem checkAll_congr {options : Options} {depth : Nat} {rules : List Rule}
    (h : ∀ rule ∈ rules, rule.check operators options depth = rule.check others options depth) :
    checkAll operators options depth rules = checkAll others options depth rules := by
  induction rules with
  | nil => rfl
  | cons rule rest ih =>
      obtain ⟨hrule, hrest⟩ := List.forall_mem_cons.1 h
      rw [checkAll, checkAll, hrule, ih hrest]

/-- A rule is checked alike, errors included, with registries that agree on its names. -/
theorem check_congr (options : Options) (rule : Rule)
    (hagree : operators.AgreeOn others rule.names) (depth : Nat) :
    rule.check operators options depth = rule.check others options depth := by
  induction rule using Rule.induct generalizing depth with
  | literal value => rw [check, check]
  | operation rule name operands hrule ih =>
      have hname := hagree name (mem_names_of_operation? hrule)
      have hoperands : checkAll operators options (depth + 1) operands =
          checkAll others options (depth + 1) operands := by
        apply checkAll_congr
        intro operand hoperand
        exact ih operand hoperand (hagree.operand hrule hoperand) (depth + 1)
      rw [check_of_operation? hrule, check_of_operation? hrule,
        Registry.checkNode_congr hname, hoperands]

end Rule

namespace Engine

/-- A rule makes no difference between two engines: both pass it or refuse it with the same error,
and on all data both come to the same report. -/
structure AlikeOn (rule : Value) (engine other : Engine σ) : Prop where
  verdict : (engine.check rule).map CheckedRule.rule = (other.check rule).map CheckedRule.rule
  report : ∀ budget data state, ∃ report,
    engine.apply budget rule data state = some report ∧
      other.apply budget rule data state = some report

/-- The verdict on a rule, without the engine that passed it. -/
theorem map_rule_check (engine : Engine σ) (rule : Value) :
    (engine.check rule).map CheckedRule.rule =
      ((Rule.ofValue rule).check engine.operators engine.options 0).map fun _ => rule := by
  rw [check]
  cases (Rule.ofValue rule).check engine.operators engine.options 0 <;> rfl

theorem AlikeOn.of_agreeOn (honly : operators.OnlyBuiltins) (options : Options) (rule : Value)
    (hagree : operators.AgreeOn others (Rule.ofValue rule).names) :
    AlikeOn rule ⟨operators, options⟩ ⟨others, options⟩ := by
  constructor
  · rw [map_rule_check, map_rule_check]
    exact congrArg (Except.map fun _ => rule) (Rule.check_congr options (.ofValue rule) hagree 0)
  · intro budget data state
    obtain ⟨answer, marks, -, happly⟩ :=
      Engine.exists_apply_eq ⟨operators, options⟩ honly rule data
    have hrun := Rule.run_congr honly (.ofBudget budget) data options (.ofValue rule) hagree
    refine ⟨_, happly budget state, ?_⟩
    rw [← happly budget state]
    exact (congrFun (congrFun hrun 0) state).symm

/-- Only the operators that a rule names matter.  Where these are standard operators, any registry
that agrees on the names of the rule behaves alike on it, so a name that the rule does not use may
be registered, replaced or removed. -/
theorem alikeOn_of_onlyBuiltins (honly : operators.OnlyBuiltins) (options : Options)
    (rule : Value) :
    (∀ others, operators.AgreeOn others (Rule.ofValue rule).names →
        AlikeOn rule ⟨operators, options⟩ ⟨others, options⟩) ∧
      ∀ name ∉ (Rule.ofValue rule).names,
        (∀ operator,
          AlikeOn rule ⟨operators, options⟩ (register ⟨operators, options⟩ name operator)) ∧
        AlikeOn rule ⟨operators, options⟩ ⟨operators.erase name, options⟩ := by
  have halike : ∀ others, operators.AgreeOn others (Rule.ofValue rule).names →
      AlikeOn rule ⟨operators, options⟩ ⟨others, options⟩ :=
    fun others hagree => AlikeOn.of_agreeOn honly options rule hagree
  refine ⟨halike, fun name hname => ⟨fun operator => ?_, ?_⟩⟩
  · exact halike _ (Registry.agreeOn_insert hname operators operator)
  · exact halike _ (Registry.agreeOn_erase hname operators)

/-- Takes something from the data that is spelled like an operation. -/
def carryingRule : Value :=
  .object [("choose", .array [.object [("var", .string "wanted")],
    .object [("var", .string "found")], .null])]

def carryingData : Value :=
  .object [("found", .object [("frobnicate", .bool true)]), ("wanted", .bool true)]

/-- What was taken is not run, even once a host operator has the name that it is spelled with. -/
theorem alikeOn_carryingRule :
    ∃ report,
      apply ⟨Registry.standard.insert "choose" (.builtin (.control .choice)), .standard⟩ 0
        carryingRule carryingData 7 = some report ∧
      apply (register
          ⟨Registry.standard.insert "choose" (.builtin (.control .choice)), .standard⟩
          "frobnicate" (.host ((Sample.const .null).operator ⟨.any, .eager⟩))) 0
        carryingRule carryingData 7 = some report ∧
      report.answer = .ok (.object [("frobnicate", .bool true)]) := by
  have honly : (Registry.standard.insert "choose"
      (.builtin (.control .choice)) : Registry Nat).OnlyBuiltins :=
    Registry.onlyBuiltins_standard.insert "choose" (.control .choice)
  have hunused : "frobnicate" ∉ (Rule.ofValue carryingRule).names := by decide +kernel
  obtain ⟨report, happly, hother⟩ := (((alikeOn_of_onlyBuiltins honly .standard carryingRule).2
    "frobnicate" hunused).1 _).report 0 carryingData 7
  have hanswer : (apply (σ := Nat)
      ⟨Registry.standard.insert "choose" (.builtin (.control .choice)), .standard⟩ 0 carryingRule
        carryingData 7).map Report.answer =
      some (.ok (.object [("frobnicate", .bool true)])) := by rfl
  rw [happly] at hanswer
  exact ⟨report, happly, hother, Option.some.inj hanswer⟩

end Engine

end JsonRules
