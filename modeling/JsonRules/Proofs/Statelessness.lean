import JsonRules.Proofs.Admission
import JsonRules.Proofs.Operations
import JsonRules.Proofs.Script

/-!
Runs that leave the state of the host alone.

An operator is stateless if nothing that it may come to do changes the state of the host.  Standard
operators are, and so is every host operator whose actions never set a state, however often it
evaluates rules and whatever it makes of their errors.  Where all operators are stateless,
evaluating a rule leaves the state as it was (`Rule.keepsState_run`).
-/

namespace JsonRules

variable {σ α β : Type}

/-- Nothing that may come of the action changes the state of the host. -/
def Action.Stateless : Action σ → Prop
  | .finish _ => True
  | .evaluate _ next => ∀ answer, (next answer).Stateless
  | .evaluateOn _ _ _ next => ∀ answer, (next answer).Stateless
  | .call _ _ next => ∀ answer, (next answer).Stateless
  | .depth next => ∀ depth, (next depth).Stateless
  | .get next => ∀ state, (next state).Stateless
  | .set _ _ => False

def Operator.Stateless : Operator σ → Prop
  | .builtin _ => True
  | .host h => ∀ view operands, (h.act view operands).Stateless

/-- Every name stands for a stateless operator. -/
def Registry.Stateless (registry : Registry σ) : Prop :=
  ∀ name operator, registry.get? name = some operator → operator.Stateless

namespace Run

/-- Every report of the run has the state of its start. -/
def KeepsState (run : Run σ α) : Prop :=
  ∀ depth state report, run depth state = some report → report.state = state

theorem keepsState_stuck : (stuck : Run σ α).KeepsState := by
  intro depth state report h
  cases h

/-- A run that says at once what it comes to and does not touch the state. -/
theorem keepsState_of_apply_eq {run : Run σ α}
    (h : ∀ depth state, ∃ answer last marks, run depth state = some ⟨answer, last, state, marks⟩) :
    run.KeepsState := by
  intro depth state report hreport
  obtain ⟨answer, last, marks, hrun⟩ := h depth state
  rw [hrun, Option.some.injEq] at hreport
  rw [← hreport]

theorem keepsState_ofAnswer (answer : Except RuleError α) :
    (ofAnswer answer : Run σ α).KeepsState :=
  keepsState_of_apply_eq fun _ _ => ⟨_, _, _, rfl⟩

theorem keepsState_orRaise (answer : Except RuleError α) :
    (orRaise answer : Run σ α).KeepsState := by
  cases answer with
  | ok a => exact keepsState_ofAnswer (.ok a)
  | error e => exact keepsState_of_apply_eq fun _ _ => ⟨_, _, _, rfl⟩

theorem KeepsState.andThen {run : Run σ α} {next : α → Run σ β} (hrun : run.KeepsState)
    (hnext : ∀ a, (next a).KeepsState) : (run.andThen next).KeepsState := by
  intro depth state report h
  rcases andThen_eq_some h with ⟨e, depth', state', marks, hfirst, rfl⟩ |
    ⟨a, depth', state', marks, last, hfirst, hlast, rfl⟩
  · exact hrun depth state _ hfirst
  · have hstate : state' = state := hrun depth state _ hfirst
    have hlastState := hnext a depth' state' last hlast
    exact hlastState.trans hstate

theorem KeepsState.attempt {run : Run σ α} (h : run.KeepsState) : run.attempt.KeepsState := by
  intro depth state report hreport
  obtain ⟨first, hfirst, rfl⟩ := Option.map_eq_some_iff.1 hreport
  exact h depth state first hfirst

/-- A run whose marks are changed keeps the state if the run does. -/
theorem KeepsState.mapMarks {run : Run σ α} (h : run.KeepsState) (f : Mark → Mark) :
    KeepsState fun depth state => (run depth state).map (Report.mapMarks f) := by
  intro depth state report hreport
  obtain ⟨first, hfirst, rfl⟩ := Option.map_eq_some_iff.1 hreport
  exact h depth state first hfirst

theorem KeepsState.within {run : Run σ α} (h : run.KeepsState) (position : Nat) :
    (run.within position).KeepsState := h.mapMarks (Mark.within position)

theorem KeepsState.moved {run : Run σ α} (h : run.KeepsState) : run.moved.KeepsState :=
  h.mapMarks Mark.moved

/-- A run at a nesting of its own starts from the outermost depth and in the same state. -/
theorem KeepsState.apart {run : Run σ α} (h : run.KeepsState) : run.apart.KeepsState := by
  intro depth state report hreport
  obtain ⟨first, hfirst, rfl⟩ := Option.map_eq_some_iff.1 hreport
  exact h 0 state first hfirst

theorem keepsState_all {runs : List (Run σ α)} (h : ∀ run ∈ runs, run.KeepsState) :
    (all runs).KeepsState := by
  induction runs with
  | nil => exact keepsState_ofAnswer (.ok [])
  | cons run rest ih =>
      have hrest := ih fun other hother => h other (List.mem_cons_of_mem run hother)
      exact (h run List.mem_cons_self).andThen fun a =>
        hrest.andThen fun values => keepsState_ofAnswer (.ok (a :: values))

end Run

/-- Following a script keeps the state if the operands do. -/
theorem Script.keepsState_run (script : Script) (data : Value) {operands : List (Run σ Value)}
    (h : ∀ run ∈ operands, run.KeepsState) : (script.run data operands).KeepsState := by
  induction script generalizing operands with
  | finish answer => exact Run.keepsState_orRaise answer
  | stuck => exact Run.keepsState_stuck
  | operand next ih =>
      cases operands with
      | nil => exact Run.keepsState_stuck
      | cons first rest =>
          have hrest : ∀ run ∈ rest, run.KeepsState := fun run hrun =>
            h run (List.mem_cons_of_mem first hrun)
          exact (h first List.mem_cons_self).andThen fun value => ih value hrest
  | skip next ih => exact ih fun run hrun => h run (List.mem_of_mem_tail hrun)
  | lookup path next ih =>
      have hlookUp : (Control.lookUp data path : Run σ _).KeepsState :=
        Run.keepsState_of_apply_eq fun depth state => ⟨_, _, _, Control.lookUp_apply _ _ _ _⟩
      exact hlookUp.andThen fun found => ih found h
  | log value next ih =>
      have hlog : (Builtin.logValue value : Run σ _).KeepsState :=
        Run.keepsState_of_apply_eq fun depth state => ⟨_, _, _, Builtin.logValue_apply _ _ _⟩
      exact hlog.andThen fun _ => ih h

/-- Whatever host operators can start keeps the state where all operators are stateless. -/
structure Reentry.KeepsState (reentry : Reentry σ) : Prop where
  evaluate : ∀ context : Context σ, context.operators.Stateless → ∀ rule,
    (reentry.evaluate context rule).KeepsState
  call : ∀ context : Context σ, context.operators.Stateless → ∀ operator : Operator σ,
    operator.Stateless → ∀ operands, (reentry.call context operator operands).KeepsState

variable {reentry : Reentry σ} {context : Context σ}

/-- A stateless action keeps the state, whatever it evaluates. -/
theorem Action.keepsState_run (hreentry : reentry.KeepsState)
    (hoperators : context.operators.Stateless) {action : Action σ} (haction : action.Stateless) :
    (action.run reentry context).KeepsState := by
  induction action with
  | finish answer => exact Run.keepsState_orRaise answer
  | evaluate rule next ih =>
      have hevaluate := hreentry.evaluate context hoperators rule
      exact hevaluate.attempt.andThen fun answer => ih answer (haction answer)
  | evaluateOn data options rule next ih =>
      have hevaluate := hreentry.evaluate ⟨data, context.operators, options⟩ hoperators rule
      exact hevaluate.apart.attempt.andThen fun answer => ih answer (haction answer)
  | call name operands next ih =>
      unfold Action.run
      cases hget : context.operators.get? name with
      | none => exact ih none (haction none)
      | some operator =>
          have hcall := hreentry.call context hoperators operator (hoperators name operator hget)
            operands
          exact hcall.attempt.andThen fun answer => ih (some answer) (haction (some answer))
  | depth next ih =>
      have hdepth : (Run.depth : Run σ Nat).KeepsState :=
        Run.keepsState_of_apply_eq fun _ _ => ⟨_, _, _, rfl⟩
      exact hdepth.andThen fun depth => ih depth (haction depth)
  | get next ih =>
      have hget : (Run.get : Run σ σ).KeepsState :=
        Run.keepsState_of_apply_eq fun _ _ => ⟨_, _, _, rfl⟩
      exact hget.andThen fun state => ih state (haction state)
  | set state next ih => exact haction.elim

theorem Operator.keepsState_run (hreentry : reentry.KeepsState)
    (hoperators : context.operators.Stateless) {operator : Operator σ}
    (hoperator : operator.Stateless) {operands : List (Operand σ)}
    (h : ∀ operand ∈ operands, operand.run.KeepsState) :
    (operator.run reentry context operands).KeepsState := by
  have hruns : ∀ run ∈ operands.map Operand.run, run.KeepsState := by
    simpa using h
  unfold Operator.run
  cases operator with
  | builtin b =>
      simp only [Builtin.run_eq_script]
      exact Script.keepsState_run _ _ hruns
  | host host =>
      cases hmode : host.signature.mode with
      | eager =>
          simp only [hmode]
          exact (Run.keepsState_all hruns).andThen fun values =>
            Action.keepsState_run hreentry hoperators (hoperator context.view values)
      | raw =>
          simp only [hmode]
          exact Action.keepsState_run hreentry hoperators (hoperator context.view _)

/-- An operation keeps the state, whether it is refused or entered. -/
theorem keepsState_dispatch (hreentry : reentry.KeepsState)
    (hoperators : context.operators.Stateless) (name : String) {operands : List (Operand σ)}
    (h : ∀ operand ∈ operands, operand.run.KeepsState) :
    (dispatch reentry context name operands).KeepsState := by
  intro depth state report hreport
  rw [dispatch_apply] at hreport
  cases hadmission : context.operators.admission context.options depth name operands.length with
  | error e =>
      simp only [hadmission, Option.some.injEq] at hreport
      rw [← hreport]
  | ok operator =>
      simp only [hadmission, Option.map_eq_some_iff] at hreport
      obtain ⟨inner, hinner, rfl⟩ := hreport
      have hget := (Registry.admission_eq_ok_iff.1 hadmission).1
      have hoperator := hoperators name operator hget
      exact Operator.keepsState_run hreentry hoperators hoperator h (depth + 1) state inner hinner

/-- Evaluating a rule keeps the state where all operators are stateless. -/
theorem Rule.keepsState_run (hreentry : reentry.KeepsState)
    (hoperators : context.operators.Stateless) (rule : Rule) :
    (rule.run reentry context).KeepsState := by
  induction rule using Rule.induct with
  | literal value => exact Run.keepsState_ofAnswer (.ok value)
  | operation rule name operands hrule ih =>
      rw [Rule.run_of_operation? hrule]
      refine keepsState_dispatch hreentry hoperators name fun operand hoperand => ?_
      obtain ⟨inner, hinner, position, hrun⟩ := Rule.exists_run_of_mem_operands hoperand
      rw [hrun]
      exact (ih inner hinner).within position

/-- What an operator makes of operands given as they are keeps the state. -/
theorem Operator.keepsState_call (hreentry : reentry.KeepsState)
    (hoperators : context.operators.Stateless) {operator : Operator σ}
    (hoperator : operator.Stateless) (operands : List Value) :
    (operator.call reentry context operands).KeepsState := by
  refine Operator.keepsState_run hreentry hoperators hoperator fun operand hoperand => ?_
  obtain ⟨value, -, rfl⟩ := List.mem_map.1 hoperand
  cases operator.signature.mode with
  | eager => exact Run.keepsState_ofAnswer (.ok value)
  | raw => exact hreentry.evaluate context hoperators value

/-- Whatever host operators can start with a budget keeps the state. -/
theorem Reentry.keepsState_ofBudget (budget : Nat) :
    (Reentry.ofBudget budget : Reentry σ).KeepsState := by
  induction budget with
  | zero => exact ⟨fun _ _ _ => Run.keepsState_stuck, fun _ _ _ _ _ => Run.keepsState_stuck⟩
  | succ budget ih =>
      refine ⟨fun context hoperators rule => ?_,
        fun context hoperators operator hoperator operands => ?_⟩
      · exact (Rule.keepsState_run ih hoperators _).moved
      · exact (Operator.keepsState_call ih hoperators hoperator operands).moved

end JsonRules
