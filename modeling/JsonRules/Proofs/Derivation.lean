import JsonRules.Engine
import JsonRules.Proofs.BuiltinRegistry
import JsonRules.Proofs.Marks
import JsonRules.Proofs.Operations
import JsonRules.Proofs.OperatorFit

/-!
Evaluation as a relation.

`Evaluates` says of a rule at a nesting depth to which answer it comes and which marks it leaves, as
far as only standard operators are met, and `Follows` says the same of the rest of a script.  The
relation agrees with running the rule (`Evaluates.run_eq`), and where no host operator is registered
every rule has its answer (`Rule.exists_evaluates`).  Facts about all such runs are inductions over
this relation.
-/

namespace JsonRules

variable {σ : Type}

mutual

/-- A rule below `depth` operations comes to an answer and leaves marks. -/
inductive Evaluates (context : Context σ) :
    Nat → Rule → Except RuleError Value → List Mark → Prop
  | literal {depth : Nat} {value : Value} :
      Evaluates context depth (.literal value) (.ok value) []
  | refused {depth : Nat} {rule : Rule} {name : String} {operands : List Rule} {e : RuleError}
      (hrule : rule.operation? = some (name, operands))
      (hrefused : context.operators.admission context.options depth name operands.length =
        .error e) :
      Evaluates context depth rule (.error e) e.refusal
  | entered {depth : Nat} {rule : Rule} {name : String} {operands : List Rule} {b : Builtin}
      {answer : Except RuleError Value} {marks : List Mark}
      (hrule : rule.operation? = some (name, operands))
      (hadmitted : context.operators.admission context.options depth name operands.length =
        .ok (.builtin b))
      (hfollows : Follows context (depth + 1) 0 operands (b.script operands.length) answer
        marks) :
      Evaluates context depth rule answer
        (Mark.around name operands.length depth marks)

/-- Following a script below `depth` operations, with the operands from a position on left, comes to
an answer and leaves marks. -/
inductive Follows (context : Context σ) :
    Nat → Nat → List Rule → Script → Except RuleError Value → List Mark → Prop
  | ok {depth position : Nat} {operands : List Rule} {value : Value} :
      Follows context depth position operands (.finish (.ok value)) (.ok value) []
  | error {depth position : Nat} {operands : List Rule} {e : RuleError} :
      Follows context depth position operands (.finish (.error e)) (.error e)
        [.here (.raised e)]
  | operand {depth position : Nat} {first : Rule} {rest : List Rule} {next : Value → Script}
      {value : Value} {answer : Except RuleError Value} {marks others : List Mark}
      (hfirst : Evaluates context depth first (.ok value) marks)
      (hnext : Follows context depth (position + 1) rest (next value) answer others) :
      Follows context depth position (first :: rest) (.operand next) answer
        (marks.map (Mark.within position) ++ others)
  | operandError {depth position : Nat} {first : Rule} {rest : List Rule}
      {next : Value → Script} {e : RuleError} {marks : List Mark}
      (hfirst : Evaluates context depth first (.error e) marks) :
      Follows context depth position (first :: rest) (.operand next) (.error e)
        (marks.map (Mark.within position))
  | skip {depth position : Nat} {first : Rule} {rest : List Rule} {next : Script}
      {answer : Except RuleError Value} {marks : List Mark}
      (hnext : Follows context depth (position + 1) rest next answer marks) :
      Follows context depth position (first :: rest) (.skip next) answer marks
  | lookup {depth position : Nat} {operands : List Rule} {path : String}
      {next : Option Value → Script} {answer : Except RuleError Value} {marks : List Mark}
      (hnext : Follows context depth position operands (next (Path.get? context.data path))
        answer marks) :
      Follows context depth position operands (.lookup path next) answer
        (.here (.lookup path) :: marks)
  | log {depth position : Nat} {operands : List Rule} {value : Value} {next : Script}
      {answer : Except RuleError Value} {marks : List Mark}
      (hnext : Follows context depth position operands next answer marks) :
      Follows context depth position operands (.log value next) answer
        (.here (.event (.log depth value.display)) :: marks)

end

variable {context : Context σ}

namespace Evaluates

variable {depth : Nat} {rule : Rule} {name : String} {operands : List Rule}
  {answer : Except RuleError Value} {marks : List Mark}

/-- An operation that is refused comes to the error of the refusal and runs nothing. -/
theorem eq_of_refused {e : RuleError} (h : Evaluates context depth rule answer marks)
    (hrule : rule.operation? = some (name, operands))
    (hrefused : context.operators.admission context.options depth name operands.length =
      .error e) :
    answer = .error e ∧ marks = e.refusal := by
  cases h with
  | literal => cases hrule
  | refused hsame hother =>
      cases hrule.symm.trans hsame
      cases hrefused.symm.trans hother
      exact ⟨rfl, rfl⟩
  | entered hsame hadmitted _ =>
      cases hrule.symm.trans hsame
      cases hrefused.symm.trans hadmitted

/-- An operation that is admitted follows the script of its operator. -/
theorem exists_follows {operator : Operator σ} (h : Evaluates context depth rule answer marks)
    (hrule : rule.operation? = some (name, operands))
    (hadmitted : context.operators.admission context.options depth name operands.length =
      .ok operator) :
    ∃ b inner, operator = .builtin b ∧
      Follows context (depth + 1) 0 operands (b.script operands.length) answer inner ∧
      marks = Mark.around name operands.length depth inner := by
  cases h with
  | literal => cases hrule
  | refused hsame hrefused =>
      cases hrule.symm.trans hsame
      cases hadmitted.symm.trans hrefused
  | entered hsame hother hfollows =>
      cases hrule.symm.trans hsame
      cases hadmitted.symm.trans hother
      exact ⟨_, _, rfl, hfollows, rfl⟩

end Evaluates

/-- A standard operator follows its script, whatever host operators could start. -/
theorem run_builtin (reentry : Reentry σ) (context : Context σ) (b : Builtin)
    (operands : List Rule) :
    (Operator.builtin b).run reentry context (Rule.operands reentry context 0 operands) =
      (b.script operands.length).run context.data
        (Rule.operandRuns reentry context 0 operands) := by
  rw [Operator.run, Builtin.run_eq_script, List.length_map, Rule.length_operands]
  rfl

mutual

/-- What a rule evaluates to is what its run comes to, at the depth and in the state from which the
run started. -/
theorem Evaluates.run_eq (reentry : Reentry σ) (state : σ) {depth : Nat} {rule : Rule}
    {answer : Except RuleError Value} {marks : List Mark} :
    Evaluates context depth rule answer marks →
      rule.run reentry context depth state = some ⟨answer, depth, state, marks⟩
  | .literal => rfl
  | .refused hrule hrefused => by
      rw [Rule.run_of_operation? hrule, dispatch_apply, Rule.length_operands, hrefused]
  | .entered hrule hadmitted hfollows => by
      have hrun := hfollows.run_eq reentry state
      rw [Rule.run_of_operation? hrule, dispatch_apply, Rule.length_operands, hadmitted]
      simp only [run_builtin, hrun]
      rfl

/-- What following a script comes to is what its run comes to. -/
theorem Follows.run_eq (reentry : Reentry σ) (state : σ) {depth position : Nat}
    {operands : List Rule} {script : Script} {answer : Except RuleError Value}
    {marks : List Mark} :
    Follows context depth position operands script answer marks →
      script.run context.data (Rule.operandRuns reentry context position operands) depth state =
        some ⟨answer, depth, state, marks⟩
  | .ok => rfl
  | .error => rfl
  | .operand hfirst hnext => by
      have hfirstRun := hfirst.run_eq reentry state
      have hrun := hnext.run_eq reentry state
      rw [Rule.operandRuns_cons, Script.run, Run.andThen_of_ok (Run.within_apply hfirstRun _),
        hrun]
      rfl
  | .operandError hfirst => by
      have hfirstRun := hfirst.run_eq reentry state
      rw [Rule.operandRuns_cons, Script.run, Run.andThen_of_error (Run.within_apply hfirstRun _)]
  | .skip hnext => hnext.run_eq reentry state
  | .lookup hnext => by
      have hrun := hnext.run_eq reentry state
      rw [Script.run, Run.andThen_of_ok (Control.lookUp_apply _ _ depth state), hrun]
      rfl
  | .log hnext => by
      have hrun := hnext.run_eq reentry state
      rw [Script.run, Run.andThen_of_ok (Builtin.logValue_apply _ depth state), hrun]
      rfl

end

/-- A script that fits the operands left can be followed, if each of them evaluates. -/
theorem Script.exists_follows {operator : String} {script : Script} {operands : List Rule}
    (hfits : script.Fits operator operands.length) {depth position : Nat}
    (hoperands : ∀ operand ∈ operands, ∃ answer marks, Evaluates context depth operand answer
      marks) :
    ∃ answer marks, Follows context depth position operands script answer marks := by
  induction script generalizing operands position with
  | finish answer =>
      cases answer with
      | ok value => exact ⟨_, _, .ok⟩
      | error e => exact ⟨_, _, .error⟩
  | stuck => cases operands <;> exact hfits.elim
  | operand next ih =>
      cases operands with
      | nil => exact hfits.elim
      | cons first rest =>
          obtain ⟨answer, marks, hfirst⟩ := hoperands first List.mem_cons_self
          cases answer with
          | error e => exact ⟨_, _, .operandError hfirst⟩
          | ok value =>
              obtain ⟨answer, others, hnext⟩ := ih value (hfits value)
                fun operand hoperand => hoperands operand (List.mem_cons_of_mem first hoperand)
              exact ⟨_, _, .operand hfirst hnext⟩
  | skip next ih =>
      cases operands with
      | nil => exact hfits.elim
      | cons first rest =>
          obtain ⟨answer, marks, hnext⟩ := ih hfits
            fun operand hoperand => hoperands operand (List.mem_cons_of_mem first hoperand)
          exact ⟨_, _, .skip hnext⟩
  | lookup path next ih =>
      obtain ⟨answer, marks, hnext⟩ := ih _ (Script.fits_lookup.1 hfits _) hoperands
      exact ⟨_, _, .lookup hnext⟩
  | log value next ih =>
      obtain ⟨answer, marks, hnext⟩ := ih (Script.fits_log.1 hfits) hoperands
      exact ⟨_, _, .log hnext⟩

/-- Where no host operator is registered, every rule has its answer. -/
theorem Rule.exists_evaluates (honly : context.operators.OnlyBuiltins) (rule : Rule) :
    ∀ depth, ∃ answer marks, Evaluates context depth rule answer marks := by
  induction rule using Rule.induct with
  | literal value => exact fun depth => ⟨_, _, .literal⟩
  | operation rule name operands hrule ih =>
      intro depth
      cases hadmission : context.operators.admission context.options depth name operands.length with
      | error e => exact ⟨_, _, .refused hrule hadmission⟩
      | ok operator =>
          obtain ⟨hget, haccepts, -⟩ := Registry.admission_eq_ok_iff.1 hadmission
          obtain ⟨b, rfl⟩ := honly name operator hget
          obtain ⟨answer, marks, hfollows⟩ := Script.exists_follows
            (b.script_fits haccepts) fun operand hoperand => ih operand hoperand (depth + 1)
          exact ⟨_, _, .entered hrule hadmission hfollows⟩

/-- An engine without host operators answers every rule on all data, whatever the budget, and the
answer is the one that the rule evaluates to. -/
theorem Engine.exists_apply_eq (engine : Engine σ) (honly : engine.operators.OnlyBuiltins)
    (rule data : Value) :
    ∃ answer marks, Evaluates (engine.context data) 0 (.ofValue rule) answer marks ∧
      ∀ budget state, engine.apply budget rule data state =
        some ⟨answer, 0, state, marks⟩ := by
  obtain ⟨answer, marks, h⟩ :=
    Rule.exists_evaluates (show (engine.context data).operators.OnlyBuiltins from honly)
      (.ofValue rule) 0
  exact ⟨answer, marks, h, fun budget state => h.run_eq (.ofBudget budget) state⟩

/-- An engine answers a rule with the value that it evaluates to. -/
theorem Engine.apply_of_evaluates {engine : Engine σ} {rule data value : Value}
    (h : ∃ marks, Evaluates (engine.context data) 0 (.ofValue rule) (.ok value) marks)
    (budget : Nat) (state : σ) :
    (apply engine budget rule data state).map Report.answer = some (.ok value) := by
  obtain ⟨marks, hevaluates⟩ := h
  rw [apply, evaluate, hevaluates.run_eq]
  rfl

end JsonRules
