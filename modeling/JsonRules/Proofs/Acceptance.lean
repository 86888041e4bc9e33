import JsonRules.Engine
import JsonRules.Operator.Sample
import JsonRules.Proofs.Nesting

/-!
The check accepts what can succeed.

A rule that evaluates to a value on some data passes the check, with any operators of the host and
under any limit.  The check visits the operands of eager operators at the depth at which they are
evaluated, because evaluating an operand leaves the depth as it was for the next one.
-/

namespace JsonRules

variable {σ α : Type}

/-- If all runs come to values, then each of them does so from the depth at which they start. -/
theorem Run.exists_ok_of_all {limit : Option Nat} {runs : List (Run σ α)}
    (hkeeps : ∀ run ∈ runs, run.KeepsDepth limit) {depth : Nat} {state : σ}
    {report : Report σ (List α)} {values : List α} (h : Run.all runs depth state = some report)
    (hok : report.answer = .ok values) :
    ∀ run ∈ runs, ∃ start last a, run depth start = some last ∧ last.answer = .ok a := by
  induction runs generalizing state report values with
  | nil => simp
  | cons first rest ih =>
      intro run hrun
      rcases Run.andThen_eq_some h with ⟨e, depth', state', marks, -, rfl⟩ |
        ⟨a, depth', state', marks, others, hfirst, hothers, rfl⟩
      · cases hok
      · obtain rfl : depth' = depth :=
          (hkeeps first List.mem_cons_self depth state _ hfirst).depth_eq
        rcases List.mem_cons.1 hrun with rfl | hrest
        · exact ⟨state, _, a, hfirst, rfl⟩
        · rcases Run.andThen_eq_some hothers with ⟨e, _, _, _, -, rfl⟩ |
            ⟨values', depth'', state'', marks', last, hrestRun, -, -⟩
          · cases hok
          · exact ih (fun other hother => hkeeps other (List.mem_cons_of_mem first hother))
              hrestRun rfl run hrest

/-- An eager operator evaluates all its operands before it does anything else. -/
theorem Operator.run_of_eager {operator : Operator σ} (heager : operator.signature.mode = .eager)
    (reentry : Reentry σ) (context : Context σ) (operands : List (Operand σ)) :
    ∃ body : List Value → Run σ Value, operator.run reentry context operands =
      (Run.all (operands.map Operand.run)).andThen body := by
  cases operator with
  | builtin b =>
      cases b with
      | function f => exact ⟨_, rfl⟩
      | missing => exact ⟨_, rfl⟩
      | missingSome => exact ⟨_, rfl⟩
      | log => exact ⟨_, rfl⟩
      | control c => cases heager
  | host host =>
      have hmode : host.signature.mode = .eager := heager
      exact ⟨_, by rw [Operator.run, hmode]; rfl⟩

theorem Rule.exists_within_mem_operandRuns (reentry : Reentry σ) (context : Context σ)
    (position : Nat) {operands : List Rule} {operand : Rule} (h : operand ∈ operands) :
    ∃ place, (operand.run reentry context).within place ∈
      Rule.operandRuns reentry context position operands := by
  induction operands generalizing position with
  | nil => simp at h
  | cons first rest ih =>
      rcases List.mem_cons.1 h with rfl | hrest
      · exact ⟨position, List.mem_cons_self⟩
      · obtain ⟨place, hplace⟩ := ih (position + 1) hrest
        exact ⟨place, List.mem_cons_of_mem _ hplace⟩

/-- If an eager operator comes to a value, then each of its operands does so from the depth at which
the operator runs. -/
theorem Operator.exists_ok_of_eager {reentry : Reentry σ} (hreentry : reentry.KeepsDepth)
    {context : Context σ} {operator : Operator σ} (heager : operator.signature.mode = .eager)
    {operands : List Rule} {depth : Nat} {state : σ} {report : Report σ Value} {value : Value}
    (h : operator.run reentry context (Rule.operands reentry context 0 operands) depth state =
      some report) (hok : report.answer = .ok value) :
    ∀ operand ∈ operands, ∃ start last a,
      operand.run reentry context depth start = some last ∧ last.answer = .ok a := by
  intro operand hoperand
  obtain ⟨body, hbody⟩ := Operator.run_of_eager heager reentry context
    (Rule.operands reentry context 0 operands)
  rw [hbody] at h
  rcases Run.andThen_eq_some h with ⟨e, _, _, _, -, rfl⟩ | ⟨values, _, _, _, _, hall, -, -⟩
  · cases hok
  · have hkeeps : ∀ run ∈ Rule.operandRuns reentry context 0 operands,
        run.KeepsDepth context.options.maxDepth := by
      simpa [Rule.operandRuns] using Rule.keepsDepth_operands hreentry context 0 operands
    obtain ⟨place, hmem⟩ := Rule.exists_within_mem_operandRuns reentry context 0 hoperand
    obtain ⟨start, last, a, hlast, ha⟩ := Run.exists_ok_of_all hkeeps hall rfl _ hmem
    obtain ⟨first, hfirst, rfl⟩ := Option.map_eq_some_iff.1 hlast
    exact ⟨start, first, a, hfirst, ha⟩

/-- A rule that comes to a value at a depth passes the check at that depth. -/
theorem Rule.check_of_run_ok {reentry : Reentry σ} (hreentry : reentry.KeepsDepth)
    (context : Context σ) (rule : Rule) :
    ∀ {depth : Nat} {state : σ} {report : Report σ Value} {value : Value},
      rule.run reentry context depth state = some report → report.answer = .ok value →
        rule.check context.operators context.options depth = .ok () := by
  induction rule using Rule.induct with
  | literal value =>
      intro depth state report value' hrun hok
      rfl
  | operation rule name operands hrule ih =>
      intro depth state report value hrun hok
      rw [Rule.run_of_operation? hrule, dispatch_apply, Rule.length_operands] at hrun
      cases hadmission : context.operators.admission context.options depth name operands.length with
      | error e =>
          simp only [hadmission, Option.some.injEq] at hrun
          rw [← hrun] at hok
          cases hok
      | ok operator =>
          simp only [hadmission, Option.map_eq_some_iff] at hrun
          obtain ⟨inner, hinner, rfl⟩ := hrun
          rw [Rule.check_of_operation? hrule, checkNode_eq_ok_iff.2 ⟨operator, hadmission, rfl⟩]
          cases hmode : operator.signature.mode with
          | raw => rfl
          | eager =>
              refine Rule.checkAll_eq_ok_iff.2 fun operand hoperand => ?_
              obtain ⟨start, first, a, hfirst, ha⟩ :=
                Operator.exists_ok_of_eager hreentry hmode hinner hok operand hoperand
              exact ih operand hoperand hfirst ha

/-- The check accepts every rule that comes to a value on some data, from some state of the host.
So a rule that it refuses fails on all data. -/
theorem Engine.check_eq_ok_of_apply_eq_ok {engine : Engine σ} {budget : Nat}
    {rule data value : Value} {state : σ} {report : Report σ Value}
    (happly : engine.apply budget rule data state = some report)
    (hok : report.answer = .ok value) : engine.check rule = .ok ⟨rule, engine⟩ := by
  have hcheck := Rule.check_of_run_ok (Reentry.keepsDepth_ofBudget budget)
    (engine.context data) (.ofValue rule) happly hok
  have hcheck' : (Rule.ofValue rule).check engine.operators engine.options 0 = .ok () := hcheck
  rw [Engine.check, hcheck']
  rfl

/-- An eager operator that lists its operands and a raw one that goes on after an error, two levels
deep. -/
def tolerantEngine : Engine Nat :=
  ⟨(Registry.empty.insert "list" (.host (Sample.list.operator ⟨.any, .eager⟩))).insert "try"
    (.host (Sample.attempt.operator ⟨.fixed 1, .raw⟩)), ⟨some 2⟩⟩

/-- A list of an error that is caught and of a literal. -/
def tolerantRule : Value :=
  .object [("list", .array [.object [("try", .object [("frobnicate", .null)])], .null])]

theorem check_tolerantRule :
    ∃ report, tolerantEngine.apply 1 tolerantRule .null 0 = some report ∧
      report.answer =
        .ok (.array [.array [.string "error: Unknown operator: frobnicate"], .null]) ∧
      tolerantEngine.check tolerantRule = .ok ⟨tolerantRule, tolerantEngine⟩ := by
  have happly : ∃ report, tolerantEngine.apply 1 tolerantRule .null 0 = some report ∧
      report.answer =
        .ok (.array [.array [.string "error: Unknown operator: frobnicate"], .null]) :=
    ⟨_, rfl, rfl⟩
  obtain ⟨report, hreport, hanswer⟩ := happly
  exact ⟨report, hreport, hanswer, Engine.check_eq_ok_of_apply_eq_ok hreport hanswer⟩

end JsonRules
