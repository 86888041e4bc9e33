import JsonRules.Operator.Sample
import JsonRules.Proofs.Laziness
import JsonRules.Proofs.Nesting

/-!
Negated conjunctions and disjunctions.

A negated conjunction comes to the same answer as the disjunction of the negated operands, and a
negated disjunction to the same as the conjunction of the negated operands, although both loops hand
on values rather than truth values, stop early and pass errors on.  The two runs evaluate the same
operands one after another at the same depth, so what happens within the operands is the same in
both, at places that differ in the order of their first two steps (`Report.Dual`).
-/

namespace JsonRules

variable {σ α β : Type}

namespace Mark

/-- The marks of operands of operands, and of what is within them. -/
def inner (marks : List Mark) : List Mark := marks.filter fun mark => 2 ≤ mark.place.length

/-- The mark at the place whose first two steps are taken in the other order. -/
def swapped (mark : Mark) : Mark :=
  match mark.place with
  | first :: second :: rest => ⟨second :: first :: rest, mark.occurrence⟩
  | _ => mark

theorem inner_append (marks others : List Mark) :
    inner (marks ++ others) = inner marks ++ inner others :=
  List.filter_append marks others

theorem inner_refusal (e : RuleError) : inner e.refusal = [] := by
  cases e <;> rfl

theorem inner_within_refusal (position : Nat) (e : RuleError) :
    inner (e.refusal.map (within position)) = [] := by
  cases e <;> rfl

/-- All marks of an operand of an operand are inner ones. -/
theorem inner_within_within (outer position : Nat) (marks : List Mark) :
    inner ((marks.map (within position)).map (within outer)) =
      (marks.map (within position)).map (within outer) := by
  rw [inner, List.filter_eq_self, List.map_map]
  intro mark hmark
  obtain ⟨first, -, rfl⟩ := List.mem_map.1 hmark
  simp [within]

theorem map_swapped_within_within (outer position : Nat) (marks : List Mark) :
    ((marks.map (within position)).map (within outer)).map swapped =
      (marks.map (within outer)).map (within position) := by
  simp only [List.map_map]
  rfl

end Mark

theorem Report.inner_entered (name : String) (count depth : Nat) (report : Report σ α) :
    Mark.inner (report.entered name count depth).marks = Mark.inner report.marks := by
  simp [Mark.inner, entered, Mark.here]

/-- The marks of going in and out are no inner ones, be it those of an operand. -/
theorem Report.inner_within_entered (name : String) (count depth position : Nat)
    (report : Report σ α) :
    Mark.inner ((report.entered name count depth).marks.map (Mark.within position)) =
      Mark.inner (report.marks.map (Mark.within position)) := by
  simp [Mark.inner, entered, Mark.here, Mark.within]

def Report.mapAnswer (f : α → β) (report : Report σ α) : Report σ β :=
  { report with answer := report.answer.map f }

theorem Run.andThen_ok_apply (run : Run σ α) (f : α → β) (depth : Nat) (state : σ) :
    run.andThen (fun a => Run.ok (f a)) depth state =
      (run depth state).map (Report.mapAnswer f) := by
  rcases hrun : run depth state with _ | ⟨answer, depth', state', marks⟩
  · simp [andThen, hrun]
  · cases answer with
    | error e =>
        rw [andThen_of_error hrun]
        rfl
    | ok a =>
        rw [andThen_of_ok hrun]
        simp [ok, ofAnswer, Report.after, Report.mapAnswer, Except.map]

/-- Marks of the other run are at the same operands of operands, reached in the other order, if the
one run is that of the first operand of an operation. -/
def Mark.Crossed (marks others : List Mark) : Prop :=
  inner others = (inner (marks.map (within 0))).map swapped

theorem Mark.Crossed.append {marks others more others' : List Mark} (h : Crossed marks others)
    (hmore : Crossed more others') : Crossed (marks ++ more) (others ++ others') := by
  unfold Crossed at *
  rw [inner_append, List.map_append, inner_append, List.map_append, h, hmore]

/-- Both runs, of which the one is a level deeper, come to no answer, or to the same error, or to a
value and what `f` makes of it. -/
def Run.Counterpart (f : α → β) (depth : Nat) (run : Run σ α) (other : Run σ β) : Prop :=
  ∀ state,
    (run (depth + 1) state = none ∧ other depth state = none) ∨
    ∃ answer state' marks others,
      run (depth + 1) state = some ⟨answer, depth + 1, state', marks⟩ ∧
        other depth state = some ⟨answer.map f, depth, state', others⟩ ∧
        Mark.Crossed marks others

namespace Run.Counterpart

variable {depth : Nat}

theorem ok (f : α → β) (a : α) : Counterpart (σ := σ) f depth (Run.ok a) (Run.ok (f a)) :=
  fun state => .inr ⟨.ok a, state, [], [], rfl, rfl, rfl⟩

theorem andThen {γ δ : Type} {f : α → β} {g : γ → δ} {run : Run σ α} {other : Run σ β}
    (h : Counterpart f depth run other) {next : α → Run σ γ} {following : β → Run σ δ}
    (hnext : ∀ a, Counterpart g depth (next a) (following (f a))) :
    Counterpart g depth (run.andThen next) (other.andThen following) := by
  intro state
  rcases h state with ⟨hrun, hother⟩ | ⟨answer, state', marks, others, hrun, hother, hmarks⟩
  · exact .inl ⟨by simp [Run.andThen, hrun], by simp [Run.andThen, hother]⟩
  · cases answer with
    | error e =>
        exact .inr ⟨.error e, state', marks, others, Run.andThen_of_error hrun next,
          Run.andThen_of_error hother following, hmarks⟩
    | ok a =>
        rw [Run.andThen_of_ok hrun, Run.andThen_of_ok hother]
        rcases hnext a state' with
          ⟨hlast, hotherLast⟩ | ⟨last, state'', more, others', hlast, hotherLast, hmore⟩
        · exact .inl ⟨by simp [hlast], by simp [hotherLast]⟩
        · refine .inr ⟨last, state'', marks ++ more, others ++ others', ?_, ?_,
            hmarks.append hmore⟩
          · simp [hlast, Report.after]
          · simp [hotherLast, Report.after]

end Run.Counterpart

namespace Control

/-- The conjunction stops at the first value that counts as false, and the disjunction at the first
that counts as true. -/
def junction : Bool → Control
  | false => .conjunction
  | true => .disjunction

theorem run_junction (stop : Bool) (data : Value) (operands : List (Run σ Value)) :
    (junction stop).run data operands =
      firstWhere (fun value => value.isTruthy == stop) operands := by
  cases stop with
  | false => simp only [beq_false, junction, run]
  | true => simp only [beq_true, junction, run]

theorem evaluated_junction (stop : Bool) (data : Value) (operands : List (Run σ Value))
    (depth : Nat) (state : σ) :
    (junction stop).evaluated data operands depth state =
      evaluatedUntil (fun value => value.isTruthy == stop) operands depth state := by
  cases stop with
  | false => simp only [beq_false, junction, evaluated]
  | true => simp only [beq_true, junction, evaluated]

theorem accepts_junction (stop : Bool) {count : Nat} (h : count ≠ 0) :
    (junction stop).arity.mismatch? count = none := by
  cases stop <;> simp [junction, arity, Arity.mismatch?] <;> omega

theorem firstWhere_of_error (passes : Value → Bool) {operand : Run σ Value}
    (rest : List (Run σ Value)) {depth : Nat} {state : σ} {e : RuleError} {depth' : Nat}
    {state' : σ} {marks : List Mark}
    (h : operand depth state = some ⟨.error e, depth', state', marks⟩) :
    firstWhere passes (operand :: rest) depth state = some ⟨.error e, depth', state', marks⟩ := by
  by_cases hrest : rest = []
  · subst hrest
    exact h
  · rw [firstWhere_cons passes operand hrest, Run.andThen_of_error h]

end Control

def Value.negate (value : Value) : Value := .bool !value.isTruthy

@[simp] theorem Value.isTruthy_negate (value : Value) :
    value.negate.isTruthy = !value.isTruthy := by
  rw [negate, isTruthy]

section

variable {depth : Nat} {runs others : List (Run σ Value)}

/-- Searching for one truth value is searching for the other among the negated values. -/
theorem Run.Counterpart.firstWhere (stop : Bool)
    (h : List.Forall₂ (Counterpart Value.negate depth) runs others)
    (hruns : runs ≠ []) :
    Counterpart Value.negate depth
      (Control.firstWhere (fun value => value.isTruthy == stop) runs)
      (Control.firstWhere (fun value => value.isTruthy == !stop) others) := by
  induction h with
  | nil => exact absurd rfl hruns
  | @cons run other rest more hfirst hmore ih =>
      cases hmore with
      | nil => exact hfirst
      | cons hsecond hrest =>
          rw [Control.firstWhere_cons _ run (List.cons_ne_nil _ _),
            Control.firstWhere_cons _ other (List.cons_ne_nil _ _)]
          refine hfirst.andThen fun value => ?_
          by_cases hstop : value.isTruthy = stop
          · simpa [hstop] using ok Value.negate value
          · simpa [hstop] using ih (List.cons_ne_nil _ _)

theorem Run.Counterpart.evaluatedUntil (stop : Bool)
    (h : List.Forall₂ (Counterpart Value.negate depth) runs others) (state : σ) :
    Control.evaluatedUntil (fun value => value.isTruthy == !stop) others depth state =
      Control.evaluatedUntil (fun value => value.isTruthy == stop) runs (depth + 1) state := by
  induction h generalizing state with
  | nil => rfl
  | @cons run other rest more hfirst hmore ih =>
      simp only [Control.evaluatedUntil, List.cons.injEq, true_and]
      rcases hfirst state with ⟨hrun, hother⟩ | ⟨answer, state', marks, others, hrun, hother, -⟩
      · simp [Run.onValue, hrun, hother]
      · cases answer with
        | error e => simp [Run.onValue, hrun, hother, Except.map]
        | ok value =>
            rw [Run.onValue_of_ok hrun, Run.onValue_of_ok hother, ih state']
            simp

end

def Value.negated (rule : Value) : Value := .operation Function.negation.name [rule]

theorem Rule.operation?_ofValue_negated (rule : Value) :
    (ofValue rule.negated).operation? = some (Function.negation.name, [ofValue rule]) :=
  operation?_ofValue_operation _ [rule]

section

variable {context : Context σ}
  (hnot : context.operators.get? Function.negation.name = some (.builtin (.function .negation)))

include hnot

/-- A negation runs its operand a level deeper, if there is one. -/
theorem Rule.run_negated (reentry : Reentry σ) (rule : Value) (depth : Nat) (state : σ) :
    (ofValue rule.negated).run reentry context depth state =
      match context.options.level depth with
      | .error e => some ⟨.error e, depth, state, e.refusal⟩
      | .ok () => ((ofValue rule).run reentry context (depth + 1) state).map fun report =>
          ((report.mapMarks (Mark.within 0)).mapAnswer Value.negate).entered
            Function.negation.name 1 (depth + 1) := by
  have hrun (operand : Run σ Value) : (Builtin.function .negation).run context.data [operand] =
      operand.andThen fun value => Run.ok value.negate := by
    rw [Builtin.run_eq_script]
    rfl
  rw [run_of_operation? (operation?_ofValue_negated rule), dispatch_builtin hnot rfl]
  cases context.options.level depth with
  | error e => rfl
  | ok _ =>
      change Option.map _ ((Builtin.function .negation).run context.data
        [((ofValue rule).run reentry context).within 0] (depth + 1) state) = _
      rw [hrun, Run.andThen_ok_apply]
      simp only [Run.within, Option.map_map]
      rfl

/-- An operand and its negation, one level above it. -/
theorem Run.Counterpart.negated {reentry : Reentry σ} (hreentry : reentry.KeepsDepth)
    {depth : Nat} (hlevel : context.options.level depth = .ok ()) (rule : Value) (position : Nat) :
    Counterpart Value.negate depth (((Rule.ofValue rule).run reentry context).within position)
      (((Rule.ofValue rule.negated).run reentry context).within position) := by
  intro state
  have hnegated := Rule.run_negated hnot reentry rule depth state
  rw [hlevel] at hnegated
  rcases hrun : (Rule.ofValue rule).run reentry context (depth + 1) state with
    _ | ⟨answer, depth', state', marks⟩
  · rw [hrun] at hnegated
    exact .inl ⟨by simp [Run.within, hrun], by simp [Run.within, hnegated]⟩
  · obtain rfl : depth' = depth + 1 :=
      (Rule.keepsDepth_run hreentry context _ (depth + 1) state _ hrun).depth_eq
    rw [hrun] at hnegated
    refine .inr ⟨answer, state', _, _, Run.within_apply hrun position,
      Run.within_apply hnegated position, ?_⟩
    rw [Mark.Crossed, Report.inner_within_entered]
    simp only [Report.mapAnswer, Report.mapMarks]
    rw [Mark.inner_within_within, Mark.inner_within_within, Mark.map_swapped_within_within]

/-- The operands of an operation and their negations as the operands of another. -/
theorem Run.Counterpart.operandRuns {reentry : Reentry σ} (hreentry : reentry.KeepsDepth)
    {depth : Nat} (hlevel : context.options.level depth = .ok ()) (rules : List Value)
    (position : Nat) :
    List.Forall₂ (Counterpart Value.negate depth)
      (Rule.operandRuns reentry context position (rules.map Rule.ofValue))
      (Rule.operandRuns reentry context position ((rules.map Value.negated).map Rule.ofValue)) := by
  induction rules generalizing position with
  | nil => exact .nil
  | cons rule rest ih =>
      exact .cons (negated hnot hreentry hlevel rule position) (ih (position + 1))

end

/-- Two runs come to the same answer at the same depth and in the same state, and what happens in
operands of operands is the same in both and in the same order, at places that differ in the order
of the first two steps. -/
structure Report.Dual (report other : Report σ Value) : Prop where
  answer : other.answer = report.answer
  depth : other.depth = report.depth
  state : other.state = report.state
  marks : Mark.inner other.marks = (Mark.inner report.marks).map Mark.swapped

/-- The positions of the rules that are evaluated if their negations are the operands of a form of
control: those of the negations that it evaluates, as far as these are admitted. -/
def Control.evaluatedNegated (reentry : Reentry σ) (context : Context σ) (name : String)
    (rules : List Value) (depth : Nat) (state : σ) (c : Control) : List Nat :=
  match context.operators.admission context.options (depth + 1) Function.negation.name 1 with
  | .error _ => []
  | .ok _ => c.evaluatedOperands reentry context name
      ((rules.map Value.negated).map Rule.ofValue) depth state

/-- Where no level is free for the negated operands, the first of them is refused. -/
theorem Rule.firstWhere_negated_of_full {context : Context σ}
    (hnot : context.operators.get? Function.negation.name = some (.builtin (.function .negation)))
    {reentry : Reentry σ} {rules : List Value} (hrules : rules ≠ []) (passes : Value → Bool)
    {depth : Nat} {e : RuleError} (hlevel : context.options.level depth = .error e) (state : σ) :
    Control.firstWhere passes
        (operandRuns reentry context 0 ((rules.map Value.negated).map ofValue)) depth state =
      some ⟨.error e, depth, state, e.refusal.map (Mark.within 0)⟩ := by
  obtain ⟨rule, rest, rfl⟩ := List.exists_cons_of_ne_nil hrules
  have hfirst := Rule.run_negated hnot reentry rule depth state
  rw [hlevel] at hfirst
  exact Control.firstWhere_of_error passes _ (Run.within_apply hfirst 0)

section

variable {context : Context σ}
  (hnot : context.operators.get? Function.negation.name = some (.builtin (.function .negation)))
  (hjunction : ∀ stop, context.operators.get? (Control.junction stop).name =
    some (.builtin (.control (.junction stop))))
  {reentry : Reentry σ} (hreentry : reentry.KeepsDepth) {rules : List Value} (hrules : rules ≠ [])

include hjunction hrules

theorem Rule.run_junction (stop : Bool) (reentry : Reentry σ) (depth : Nat) (state : σ) :
    (ofValue (.operation (Control.junction stop).name rules)).run reentry context depth state =
      match context.options.level depth with
      | .error e => some ⟨.error e, depth, state, e.refusal⟩
      | .ok () => (Control.firstWhere (fun value => value.isTruthy == stop)
          (operandRuns reentry context 0 (rules.map ofValue)) (depth + 1) state).map
            (Report.entered (Control.junction stop).name rules.length (depth + 1)) := by
  have hcount : (operands reentry context 0 (rules.map ofValue)).length = rules.length := by simp
  have haccepts := Control.accepts_junction stop (mt List.length_eq_zero_iff.1 hrules)
  rw [run_of_operation? (operation?_ofValue_operation _ rules),
    dispatch_builtin (hjunction stop) (by rwa [hcount]), hcount, Builtin.run,
    Control.run_junction]
  rfl

include hnot hreentry

/-- Negating the value of a search for a truth value is searching for the other one among the
negated values. -/
theorem Rule.dual_negated_junction (stop : Bool) (depth : Nat) (state : σ) :
    Option.Rel Report.Dual
      ((ofValue (Value.operation (Control.junction stop).name rules).negated).run reentry context
        depth state)
      ((ofValue (.operation (Control.junction !stop).name (rules.map Value.negated))).run reentry
        context depth state) := by
  have hnegated : rules.map Value.negated ≠ [] := mt List.map_eq_nil_iff.1 hrules
  rw [Rule.run_negated hnot, Rule.run_junction hjunction hnegated]
  cases hlevel : context.options.level depth with
  | error e =>
      exact .some ⟨rfl, rfl, rfl, by simp [Mark.inner_refusal]⟩
  | ok _ =>
      simp only [Rule.run_junction hjunction hrules]
      cases hinner : context.options.level (depth + 1) with
      | error e =>
          rw [Rule.firstWhere_negated_of_full hnot hrules _ hinner]
          refine .some ⟨rfl, rfl, rfl, ?_⟩
          simp only [Report.inner_entered, Report.mapAnswer, Report.mapMarks,
            Mark.inner_within_refusal, List.map_nil]
      | ok _ =>
          have hruns := Run.Counterpart.operandRuns hnot hreentry hinner rules 0
          have hsearch := Run.Counterpart.firstWhere stop hruns <| by
            rw [← List.length_pos_iff, length_operandRuns, List.length_map, List.length_pos_iff]
            exact hrules
          rcases hsearch state with
            ⟨hrun, hother⟩ | ⟨answer, state', marks, others, hrun, hother, hmarks⟩
          · simp only [hrun, hother, Option.map_none]
            exact .none
          · simp only [hrun, hother, Option.map_some]
            refine .some ⟨rfl, rfl, rfl, ?_⟩
            rw [Report.inner_entered, Report.inner_entered]
            simp only [Report.mapAnswer, Report.mapMarks]
            rw [Report.inner_within_entered]
            exact hmarks

/-- A search in rules and the search for the other truth value in their negations evaluate the same
rules. -/
theorem Control.evaluatedNegated_junction (stop : Bool) (depth : Nat) (state : σ) :
    (junction !stop).evaluatedNegated reentry context (junction !stop).name rules depth state =
      (junction stop).evaluatedOperands reentry context (junction stop).name
        (rules.map Rule.ofValue) (depth + 1) state := by
  have hlength : rules.length ≠ 0 := mt List.length_eq_zero_iff.1 hrules
  have haccepts : (Function.negation.arity).mismatch? 1 = none := rfl
  have hadmission (stop : Bool) (depth : Nat) :=
    Registry.admission_of_accepts (hjunction stop) (accepts_junction stop hlength) context.options
      depth
  have hnegation := Registry.admission_of_accepts hnot haccepts context.options (depth + 1)
  simp only [evaluatedNegated, evaluatedOperands, List.length_map, hadmission, hnegation]
  cases hlevel : context.options.level (depth + 1) with
  | error e => rfl
  | ok _ =>
      simp only [Options.level_of_succ hlevel, Except.map, evaluated_junction]
      exact Run.Counterpart.evaluatedUntil stop
        (Run.Counterpart.operandRuns hnot hreentry hlevel rules 0) state

end

/-- De Morgan's laws with early ends and errors.  A negated conjunction comes to the same as the
disjunction of the negated operands, and a negated disjunction to the same as the conjunction of the
negated operands, from every depth and state and under every limit: the answers are the same, errors
included, and so is all that happens in operands; and the same operands are evaluated in the same
order. -/
theorem evaluate_negated_junction (stop : Bool) {context : Context σ}
    (hnot : context.operators.get? Function.negation.name = some (.builtin (.function .negation)))
    (hjunction : ∀ stop, context.operators.get? (Control.junction stop).name =
      some (.builtin (.control (.junction stop))))
    {rules : List Value} (hrules : rules ≠ []) (budget depth : Nat) (state : σ) :
    Option.Rel Report.Dual
      (evaluate budget context
        (Value.operation (Control.junction stop).name rules).negated depth state)
      (evaluate budget context
        (.operation (Control.junction !stop).name (rules.map Value.negated)) depth state) ∧
    (Control.junction !stop).evaluatedNegated (.ofBudget budget) context
        (Control.junction !stop).name rules depth state =
      (Control.junction stop).evaluatedOperands (.ofBudget budget) context
        (Control.junction stop).name (rules.map Rule.ofValue) (depth + 1) state :=
  ⟨Rule.dual_negated_junction hnot hjunction (Reentry.keepsDepth_ofBudget budget) hrules stop depth
      state,
    Control.evaluatedNegated_junction hnot hjunction (Reentry.keepsDepth_ofBudget budget) hrules
      stop depth state⟩

/-- Negation, conjunction and disjunction beside an operator that counts its runs. -/
def countingLogic : Context Nat :=
  ⟨.null, (((Registry.empty.define (.function .negation)).define (.control .conjunction)).define
    (.control .disjunction)).insert "tick" (.host (Sample.tick.operator ⟨.any, .eager⟩)), ⟨some 3⟩⟩

/-- A conjunction counts once and stops, and so does the disjunction of the negated operands. -/
theorem evaluate_negated_counts :
    ∃ report other,
      evaluate 1 countingLogic
          (Value.operation "and" [.operation "tick" [], .null, .operation "tick" []]).negated 0 7 =
        some report ∧
      evaluate 1 countingLogic (.operation "or" [(Value.operation "tick" []).negated,
        Value.null.negated, (Value.operation "tick" []).negated]) 0 7 = some other ∧
      report.answer = .ok (.bool true) ∧ report.state = 8 ∧ report.Dual other := by
  have hnot : countingLogic.operators.get? Function.negation.name =
      some (.builtin (.function .negation)) := rfl
  have hjunction (stop : Bool) : countingLogic.operators.get? (Control.junction stop).name =
      some (.builtin (.control (.junction stop))) := by
    cases stop <;> rfl
  have hrules : [.operation "tick" [], .null, .operation "tick" []] ≠ ([] : List Value) := by simp
  have hdual := (evaluate_negated_junction false hnot hjunction hrules 1 0 7).1
  have hrun : (evaluate 1 countingLogic
      (Value.operation "and" [.operation "tick" [], .null, .operation "tick" []]).negated 0 7).map
        (fun report => (report.answer, report.state)) = some (.ok (.bool true), 8) := rfl
  obtain ⟨report, hreport, hresult⟩ := Option.map_eq_some_iff.1 hrun
  obtain ⟨hanswer, hstate⟩ := Prod.mk.inj hresult
  generalize hother : evaluate 1 countingLogic (.operation (Control.junction !false).name
    ([.operation "tick" [], .null, .operation "tick" []].map Value.negated)) 0 7 = result at hdual
  rw [show (Control.junction false).name = "and" from rfl, hreport] at hdual
  cases hdual with
  | some hdual => exact ⟨report, _, hreport, hother, hanswer, hstate, hdual⟩

end JsonRules
