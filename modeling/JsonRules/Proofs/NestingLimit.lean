import JsonRules.Proofs.Derivation

/-!
What a limit on nesting does.

A run under a limit does what the run without a limit does until an operation beyond the limit is to
be entered, and there it ends.  `Evaluates.underLimit` keeps the two runs in step through every
operator: as long as nothing deep has happened they agree, and no operator goes on after the limited
run has ended.
-/

namespace JsonRules

variable {σ : Type}

def Event.deeperThan (limit : Nat) : Event → Bool
  | .dispatch _ _ depth => limit < depth
  | _ => false

/-- Nothing was entered beyond a limit. -/
def Shallow (limit : Nat) (events : List Event) : Prop :=
  ∀ event ∈ events, event.deeperThan limit = false

/-- Something was entered beyond a limit, and the other events are those until then and the one of
reaching the limit. -/
def CutAt (limit : Nat) (events others : List Event) : Prop :=
  (∃ event ∈ events, event.deeperThan limit = true) ∧
    others = events.takeWhile (fun event => !event.deeperThan limit) ++ [.depthLimit limit]

namespace Shallow

variable {limit : Nat} {events others : List Event}

theorem nil : Shallow limit [] := List.forall_mem_nil _

theorem cons {event : Event} (hevent : event.deeperThan limit = false)
    (h : Shallow limit events) : Shallow limit (event :: events) :=
  List.forall_mem_cons.2 ⟨hevent, h⟩

theorem append (h : Shallow limit events) (hothers : Shallow limit others) :
    Shallow limit (events ++ others) :=
  List.forall_mem_append.2 ⟨h, hothers⟩

theorem refusal (limit : Nat) (e : RuleError) : Shallow limit e.events := by
  intro event hevent
  cases e with
  | unknownOperator name => rw [List.mem_singleton.1 hevent]; rfl
  | depthExceeded max => rw [List.mem_singleton.1 hevent]; rfl
  | _ => cases hevent

theorem mono {higher : Nat} (h : Shallow limit events) (hle : limit ≤ higher) :
    Shallow higher events := by
  intro event hevent
  have hdepth := h event hevent
  cases event with
  | dispatch name count depth =>
      simp only [Event.deeperThan, decide_eq_false_iff_not] at hdepth ⊢
      omega
  | _ => rfl

theorem not_deep (h : Shallow limit events) :
    ¬∃ event ∈ events, event.deeperThan limit = true := by
  rintro ⟨event, hevent, hdeep⟩
  rw [h event hevent] at hdeep
  cases hdeep

end Shallow

namespace CutAt

variable {limit : Nat} {events others : List Event}

theorem here {event : Event} (hevent : event.deeperThan limit = true) (events : List Event) :
    CutAt limit (event :: events) [.depthLimit limit] :=
  ⟨⟨event, List.mem_cons_self, hevent⟩, by simp [hevent]⟩

theorem prepend {first : List Event} (hfirst : Shallow limit first)
    (h : CutAt limit events others) : CutAt limit (first ++ events) (first ++ others) := by
  obtain ⟨⟨event, hevent, hdeep⟩, rfl⟩ := h
  refine ⟨⟨event, List.mem_append_right first hevent, hdeep⟩, ?_⟩
  have hkept : ∀ event ∈ first, (!event.deeperThan limit) = true := by
    intro event hevent
    rw [hfirst event hevent]
    rfl
  rw [List.takeWhile_append_of_pos hkept, List.append_assoc]

theorem cons {event : Event} (hevent : event.deeperThan limit = false)
    (h : CutAt limit events others) : CutAt limit (event :: events) (event :: others) :=
  h.prepend (.cons hevent .nil)

theorem append (h : CutAt limit events others) (last : List Event) :
    CutAt limit (events ++ last) others := by
  obtain ⟨⟨event, hevent, hdeep⟩, rfl⟩ := h
  refine ⟨⟨event, List.mem_append_left last hevent, hdeep⟩, ?_⟩
  obtain ⟨before, after, rfl⟩ := List.append_of_mem hevent
  induction before with
  | nil => simp [hdeep]
  | cons first rest ih =>
      cases hfirst : first.deeperThan limit with
      | true => simp [hfirst]
      | false => simpa [hfirst] using ih

end CutAt

def Context.withLimit (context : Context σ) (limit : Nat) : Context σ :=
  { context with options := ⟨some limit⟩ }

/-- A limit takes nothing away from the causes for which an operation is refused. -/
theorem Registry.admission_withLimit_of_error {operators : Registry σ} {options : Options}
    {depth count : Nat} {name : String} {e : RuleError} (hnone : options.maxDepth = none)
    (h : operators.admission options depth name count = .error e) (limit : Nat) :
    operators.admission ⟨some limit⟩ depth name count = .error e := by
  rcases admission_eq_error_iff.1 h with hunknown | hcount | ⟨operator, max, -, -, hlimit, -, -⟩
  · exact admission_eq_error_iff.2 (.inl hunknown)
  · exact admission_eq_error_iff.2 (.inr (.inl hcount))
  · rw [hnone] at hlimit
    cases hlimit

/-- An operation that is admitted without a limit is admitted under it as well, or the limit is
reached. -/
theorem Registry.admission_withLimit_of_ok {operators : Registry σ} {options : Options}
    {depth count : Nat} {name : String} {operator : Operator σ}
    (h : operators.admission options depth name count = .ok operator) (limit : Nat) :
    operators.admission ⟨some limit⟩ depth name count =
      if limit ≤ depth then .error (.depthExceeded limit) else .ok operator := by
  obtain ⟨hget, haccepts, -⟩ := admission_eq_ok_iff.1 h
  have hcheck := (Arity.check_eq_ok_iff name).2 haccepts
  simp only [admission, hget, hcheck]

variable {context : Context σ}

/-- Of a run without a limit: either nothing deep happens and the limit changes nothing, or the
limit cuts the run short. -/
def Limited (limit : Nat) (marks : List Mark) (answer : Except RuleError Value)
    (underLimit : Except RuleError Value → List Mark → Prop) : Prop :=
  (Shallow limit (Mark.events marks) ∧ underLimit answer marks) ∨
    ∃ others, CutAt limit (Mark.events marks) (Mark.events others) ∧
      underLimit (.error (.depthExceeded limit)) others

mutual

/-- A rule evaluates under a limit as without it, up to the first operation beyond the limit. -/
theorem Evaluates.underLimit (hnone : context.options.maxDepth = none) (limit : Nat)
    {depth : Nat} {rule : Rule} {answer : Except RuleError Value} {marks : List Mark} :
    Evaluates context depth rule answer marks →
      Limited limit marks answer (Evaluates (context.withLimit limit) depth rule)
  | .literal => .inl ⟨.nil, .literal⟩
  | .refused (e := e) hrule hrefused => by
      have hlimited := Registry.admission_withLimit_of_error hnone hrefused limit
      refine .inl ⟨?_, .refused hrule hlimited⟩
      rw [Mark.events_refusal]
      exact .refusal limit e
  | .entered hrule hadmitted hfollows => by
      have hinner := hfollows.underLimit hnone limit
      have hlimited := Registry.admission_withLimit_of_ok hadmitted limit
      by_cases hdeep : limit ≤ depth
      · rw [if_pos hdeep] at hlimited
        refine .inr ⟨_, ?_, .refused hrule hlimited⟩
        rw [Mark.events_around, Mark.events_refusal]
        exact .here (by simp only [Event.deeperThan, decide_eq_true_eq]; omega) _
      · rw [if_neg hdeep] at hlimited
        have hentered : ∀ name count,
            Event.deeperThan limit (.dispatch name count (depth + 1)) = false := by
          intro name count
          simp only [Event.deeperThan, decide_eq_false_iff_not]
          omega
        rcases hinner with ⟨hshallow, hinner⟩ | ⟨others, hcut, hinner⟩
        · refine .inl ⟨?_, .entered hrule hlimited hinner⟩
          rw [Mark.events_around]
          exact hshallow.cons (hentered _ _)
        · refine .inr ⟨_, ?_, .entered hrule hlimited hinner⟩
          rw [Mark.events_around, Mark.events_around]
          exact hcut.cons (hentered _ _)

/-- A script is followed under a limit as without it, up to the first operation beyond the limit. -/
theorem Follows.underLimit (hnone : context.options.maxDepth = none) (limit : Nat)
    {depth position : Nat} {operands : List Rule} {script : Script}
    {answer : Except RuleError Value} {marks : List Mark} :
    Follows context depth position operands script answer marks →
      Limited limit marks answer (Follows (context.withLimit limit) depth position operands script)
  | .ok => .inl ⟨.nil, .ok⟩
  | .error => .inl ⟨.nil, .error⟩
  | .operand hfirst hnext => by
      have hfirst' := hfirst.underLimit hnone limit
      have hnext' := hnext.underLimit hnone limit
      rcases hfirst' with ⟨hshallow, hfirst'⟩ | ⟨cut, hcut, hfirst'⟩
      · rcases hnext' with ⟨hothers, hnext'⟩ | ⟨cut, hcut, hnext'⟩
        · refine .inl ⟨?_, .operand hfirst' hnext'⟩
          rw [Mark.events_append, Mark.events_within]
          exact hshallow.append hothers
        · refine .inr ⟨_, ?_, .operand hfirst' hnext'⟩
          rw [Mark.events_append, Mark.events_append, Mark.events_within]
          exact hcut.prepend hshallow
      · refine .inr ⟨_, ?_, .operandError hfirst'⟩
        rw [Mark.events_append, Mark.events_within, Mark.events_within]
        exact hcut.append _
  | .operandError hfirst => by
      have hfirst' := hfirst.underLimit hnone limit
      rcases hfirst' with ⟨hshallow, hfirst'⟩ | ⟨cut, hcut, hfirst'⟩
      · refine .inl ⟨?_, .operandError hfirst'⟩
        rw [Mark.events_within]
        exact hshallow
      · refine .inr ⟨_, ?_, .operandError hfirst'⟩
        rw [Mark.events_within, Mark.events_within]
        exact hcut
  | .skip hnext => by
      rcases hnext.underLimit hnone limit with ⟨hshallow, hnext'⟩ | ⟨cut, hcut, hnext'⟩
      · exact .inl ⟨hshallow, .skip hnext'⟩
      · exact .inr ⟨cut, hcut, .skip hnext'⟩
  | .lookup hnext => by
      rcases hnext.underLimit hnone limit with ⟨hshallow, hnext'⟩ | ⟨cut, hcut, hnext'⟩
      · exact .inl ⟨hshallow, .lookup hnext'⟩
      · exact .inr ⟨.here (.lookup _) :: cut, hcut, .lookup hnext'⟩
  | .log hnext => by
      have hlog : ∀ text, Event.deeperThan limit (.log depth text) = false := fun _ => rfl
      rcases hnext.underLimit hnone limit with ⟨hshallow, hnext'⟩ | ⟨cut, hcut, hnext'⟩
      · exact .inl ⟨hshallow.cons (hlog _), .log hnext'⟩
      · exact .inr ⟨.here (.event (.log depth _)) :: cut, hcut.cons (hlog _), .log hnext'⟩

end

/-- The run under a limit, beside the run without one.  If nothing is entered beyond the limit, then
both come to the same.  Otherwise the limited run ends in the error of exceeding it, with the events
before the first that lies beyond.  So a result that is not that error stays with every higher
limit. -/
theorem Engine.apply_limit (limit budget : Nat) (rule data : Value) (state : σ) :
    ∃ unlimited limited,
      Engine.apply ⟨.standard, ⟨none⟩⟩ budget rule data state = some unlimited ∧
      Engine.apply ⟨.standard, ⟨some limit⟩⟩ budget rule data state = some limited ∧
      ((∀ event ∈ unlimited.events, event.deeperThan limit = false) →
        limited.answer = unlimited.answer ∧ limited.events = unlimited.events) ∧
      ((∃ event ∈ unlimited.events, event.deeperThan limit = true) →
        limited.answer = .error (.depthExceeded limit) ∧
          limited.events =
            unlimited.events.takeWhile (fun event => !event.deeperThan limit) ++
              [.depthLimit limit]) ∧
      ∀ higher, limit ≤ higher → limited.answer ≠ .error (.depthExceeded limit) →
        ∃ report, Engine.apply ⟨.standard, ⟨some higher⟩⟩ budget rule data state = some report ∧
          report.answer = limited.answer := by
  obtain ⟨answer, marks, hevaluates, happly⟩ := Engine.exists_apply_eq
    (⟨.standard, ⟨none⟩⟩ : Engine σ) Registry.onlyBuiltins_standard rule data
  have hunder : ∀ limit, Limited limit marks answer
      (Evaluates (Engine.context ⟨.standard, ⟨some limit⟩⟩ data) 0 (.ofValue rule)) :=
    fun limit => hevaluates.underLimit rfl limit
  rcases hunder limit with ⟨hshallow, hlimited⟩ | ⟨others, hcut, hlimited⟩
  · refine ⟨_, _, happly budget state, hlimited.run_eq (.ofBudget budget) state,
      fun _ => ⟨rfl, rfl⟩, fun hdeep => (hshallow.not_deep hdeep).elim, fun higher hle _ => ?_⟩
    rcases hunder higher with ⟨-, hhigher⟩ | ⟨_, hcut, -⟩
    · exact ⟨_, hhigher.run_eq (.ofBudget budget) state, rfl⟩
    · exact ((hshallow.mono hle).not_deep hcut.1).elim
  · refine ⟨_, _, happly budget state, hlimited.run_eq (.ofBudget budget) state,
      fun hshallow => (Shallow.not_deep hshallow hcut.1).elim, fun _ => ⟨rfl, hcut.2⟩,
      fun higher hle hother => (hother rfl).elim⟩

end JsonRules
