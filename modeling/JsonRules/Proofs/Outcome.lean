import JsonRules.Proofs.Guarantee

/-!
The log of a run tells its outcome.

A run writes no line of level `debug` until it is refused an operation, and a refusal ends it: such
a line closes the log, there is at most one, and it names the error in which the run ends
(`Evaluates.closes`).  No operator goes on after an error of its own or of an operand.
-/

namespace JsonRules

variable {σ : Type}

/-- The lines of the log with which an answer closes it. -/
def closingEvents : Except RuleError Value → List Event
  | .ok _ => []
  | .error e => e.events

/-- No line of the log is of level `debug`. -/
def Calm (events : List Event) : Prop := ∀ event ∈ events, event.level ≠ .debug

/-- The log is calm up to the lines with which the answer closes it. -/
def ClosedBy (answer : Except RuleError Value) (events : List Event) : Prop :=
  ∃ calm, Calm calm ∧ events = calm ++ closingEvents answer

theorem RuleError.OwnedBy.events_eq_nil {operator : String} {e : RuleError}
    (h : e.OwnedBy operator) : e.events = [] := by
  cases e with
  | notNumeric name value => rfl
  | invalidArgument name detail => rfl
  | _ => exact h.elim

theorem RuleError.length_events_le_one (e : RuleError) : e.events.length ≤ 1 := by
  cases e <;> simp [RuleError.events]

theorem length_closingEvents_le_one (answer : Except RuleError Value) :
    (closingEvents answer).length ≤ 1 := by
  cases answer with
  | ok value => exact Nat.zero_le 1
  | error e => exact e.length_events_le_one

theorem level_of_mem_closingEvents {answer : Except RuleError Value} {event : Event}
    (h : event ∈ closingEvents answer) : event.level = .debug := by
  cases answer with
  | ok value => cases h
  | error e => cases e <;> simp_all [closingEvents, RuleError.events, Event.level]

theorem unknownOperator_mem_closingEvents {answer : Except RuleError Value} {name : String} :
    .unknownOperator name ∈ closingEvents answer ↔ answer = .error (.unknownOperator name) := by
  cases answer with
  | ok value => simp [closingEvents]
  | error e => cases e <;> simp [closingEvents, RuleError.events, eq_comm]

theorem depthLimit_mem_closingEvents {answer : Except RuleError Value} {limit : Nat} :
    .depthLimit limit ∈ closingEvents answer ↔ answer = .error (.depthExceeded limit) := by
  cases answer with
  | ok value => simp [closingEvents]
  | error e => cases e <;> simp [closingEvents, RuleError.events, eq_comm]

namespace ClosedBy

variable {answer : Except RuleError Value} {events others : List Event}

theorem closing (answer : Except RuleError Value) : ClosedBy answer (closingEvents answer) :=
  ⟨[], List.forall_mem_nil _, rfl⟩

theorem prepend (hothers : Calm others) (h : ClosedBy answer events) :
    ClosedBy answer (others ++ events) := by
  obtain ⟨calm, hcalm, rfl⟩ := h
  exact ⟨others ++ calm, List.forall_mem_append.2 ⟨hothers, hcalm⟩, by rw [List.append_assoc]⟩

theorem cons {event : Event} (hevent : event.level ≠ .debug) (h : ClosedBy answer events) :
    ClosedBy answer (event :: events) := by
  have hone : Calm [event] := List.forall_mem_singleton.2 hevent
  exact h.prepend hone

theorem mem_iff (h : ClosedBy answer events) {event : Event} (hevent : event.level = .debug) :
    event ∈ events ↔ event ∈ closingEvents answer := by
  obtain ⟨calm, hcalm, rfl⟩ := h
  have hnot : event ∉ calm := fun hmem => hcalm event hmem hevent
  simp [hnot]

/-- A log is calm exactly if its answer has no line to close it with. -/
theorem calm_iff (h : ClosedBy answer events) : Calm events ↔ closingEvents answer = [] := by
  constructor
  · intro hcalm
    refine List.eq_nil_iff_forall_not_mem.2 fun event hevent => ?_
    have hdebug := level_of_mem_closingEvents hevent
    exact hcalm event ((h.mem_iff hdebug).2 hevent) hdebug
  · intro hnone event hevent hdebug
    have hmem := (h.mem_iff hdebug).1 hevent
    rw [hnone] at hmem
    cases hmem

theorem calm {value : Value} (h : ClosedBy (.ok value) events) : Calm events :=
  h.calm_iff.2 rfl

/-- Nothing follows a line of level `debug`. -/
theorem after_eq_nil (h : ClosedBy answer events) {before after : List Event} {event : Event}
    (hevents : events = before ++ event :: after) (hevent : event.level = .debug) :
    after = [] := by
  obtain ⟨calm, hcalm, hclosed⟩ := h
  have hlength := length_closingEvents_le_one answer
  rw [hevents] at hclosed
  rcases List.append_eq_append_iff.1 hclosed with ⟨shared, hcalm', hshared⟩ |
    ⟨shared, -, hclosing⟩
  · cases shared with
    | nil =>
        have hcount := congrArg List.length hshared
        simp only [List.length_cons, List.nil_append] at hcount
        exact List.length_eq_zero_iff.1 (by omega)
    | cons first rest =>
        obtain ⟨rfl, -⟩ := List.cons_eq_cons.1 hshared
        have hmem : event ∈ calm := by simp [hcalm']
        exact (hcalm event hmem hevent).elim
  · have hcount := congrArg List.length hclosing
    simp only [List.length_append, List.length_cons] at hcount
    exact List.length_eq_zero_iff.1 (by omega)

theorem length_filter_le_one (h : ClosedBy answer events) :
    (events.filter fun event => event.level = .debug).length ≤ 1 := by
  obtain ⟨calm, hcalm, rfl⟩ := h
  have hnone : calm.filter (fun event => event.level = .debug) = [] := by
    refine List.filter_eq_nil_iff.2 fun event hevent => ?_
    simpa using hcalm event hevent
  rw [List.filter_append, hnone, List.nil_append]
  exact Nat.le_trans (List.length_filter_le _ _) (length_closingEvents_le_one answer)

end ClosedBy

variable {context : Context σ}

mutual

/-- The answer to which a rule evaluates closes the log. -/
theorem Evaluates.closes {depth : Nat} {rule : Rule} {answer : Except RuleError Value}
    {marks : List Mark} :
    Evaluates context depth rule answer marks → ClosedBy answer (Mark.events marks)
  | .literal => .closing (.ok _)
  | .refused (e := e) _ _ => by
      rw [Mark.events_refusal]
      exact .closing (.error e)
  | .entered (b := b) _ hadmitted hfollows => by
      have hfits := b.script_fits (Registry.admission_eq_ok_iff.1 hadmitted).2.1
      have hinner := hfollows.closes hfits
      rw [Mark.events_around]
      exact hinner.cons (by simp [Event.level])

/-- The answer in which a script ends closes the log. -/
theorem Follows.closes {operator : String} {depth position : Nat} {operands : List Rule}
    {script : Script} {answer : Except RuleError Value} {marks : List Mark} :
    Follows context depth position operands script answer marks →
      script.Fits operator operands.length → ClosedBy answer (Mark.events marks)
  | .ok, _ => .closing (.ok _)
  | .error (e := e), hfits => by
      have howned := Script.fits_finish.1 hfits e rfl
      have hclosing := ClosedBy.closing (.error e)
      rwa [closingEvents, howned.events_eq_nil] at hclosing
  | .operand hfirst hnext, hfits => by
      have hcalm := hfirst.closes.calm
      have hothers := hnext.closes (hfits _)
      rw [Mark.events_append, Mark.events_within]
      exact hothers.prepend hcalm
  | .operandError hfirst, _ => by
      have hinner := hfirst.closes
      rw [Mark.events_within]
      exact hinner
  | .skip hnext, hfits => hnext.closes hfits
  | .lookup hnext, hfits => hnext.closes (Script.fits_lookup.1 hfits _)
  | .log hnext, hfits => (hnext.closes (Script.fits_log.1 hfits)).cons (by simp [Event.level])

end

/-- A mark of an error is the one at which a run fails, and only marks of going up follow. -/
theorem FailsAt.of_raised {place place' : List Nat} {e e' : RuleError}
    {marks before after : List Mark} (h : FailsAt place e marks)
    (hmarks : marks = before ++ ⟨place', .raised e'⟩ :: after) :
    e' = e ∧ OnlyDepths after := by
  obtain ⟨quiet, depths, hfails, hquiet, hdepths⟩ := h
  rw [hmarks] at hfails
  rcases List.append_eq_append_iff.1 hfails with ⟨shared, hquiet', hshared⟩ |
    ⟨shared, -, hshared⟩
  · cases shared with
    | nil =>
        obtain ⟨hmark, rfl⟩ := List.cons_eq_cons.1 hshared
        cases hmark
        exact ⟨rfl, hdepths⟩
    | cons first rest =>
        obtain ⟨rfl, -⟩ := List.cons_eq_cons.1 hshared
        have hnone := hquiet ⟨place', .raised e'⟩ (by simp [hquiet'])
        cases hnone
  · cases shared with
    | nil =>
        obtain ⟨hmark, rfl⟩ := List.cons_eq_cons.1 hshared
        cases hmark
        exact ⟨rfl, hdepths⟩
    | cons first rest =>
        obtain ⟨-, rfl⟩ := List.cons_eq_cons.1 hshared
        have hnone := hdepths.quiet ⟨place', .raised e'⟩ (by simp)
        cases hnone

theorem OnlyDepths.events_eq_nil {marks : List Mark} (h : OnlyDepths marks) :
    Mark.events marks = [] := by
  refine List.filterMap_eq_nil_iff.2 fun mark hmark => ?_
  obtain ⟨depth, hdepth⟩ := h mark hmark
  rw [hdepth]
  rfl

/-- The error that comes up in a run is the answer, and no event follows it. -/
theorem Evaluates.answer_of_raised {depth : Nat} {rule : Rule} {answer : Except RuleError Value}
    {marks before after : List Mark} {place : List Nat} {e : RuleError}
    (h : Evaluates context depth rule answer marks)
    (hmarks : marks = before ++ ⟨place, .raised e⟩ :: after) :
    answer = .error e ∧ Mark.events after = [] := by
  cases answer with
  | ok value =>
      have hnone := h.quiet rfl ⟨place, .raised e⟩ (by simp [hmarks])
      cases hnone
  | error e' =>
      obtain ⟨place', -, hfails⟩ := h.blame rfl
      obtain ⟨rfl, hdepths⟩ := hfails.of_raised hmarks
      exact ⟨rfl, hdepths.events_eq_nil⟩

/-- An answer without a line in the log is a value or an error about values or their number. -/
theorem Evaluates.closingEvents_eq_nil_iff {depth : Nat} {rule : Rule}
    {answer : Except RuleError Value} {marks : List Mark}
    (h : Evaluates context depth rule answer marks) :
    closingEvents answer = [] ↔
      (∃ value, answer = .ok value) ∨
      (∃ operator expected, answer = .error (.operandCount operator expected)) ∨
      (∃ operator value, answer = .error (.notNumeric operator value)) ∨
      ∃ operator detail, answer = .error (.invalidArgument operator detail) := by
  cases answer with
  | ok value => simp [closingEvents]
  | error e =>
      obtain ⟨place, hblame, -⟩ := h.blame rfl
      have hcause := hblame.ofDispatch_or_ownedBy
      cases e with
      | custom message => simp [RuleError.OfDispatch, RuleError.OwnedBy] at hcause
      | _ => simp [closingEvents, RuleError.events]

/-- What the log of a run of the standard operators tells.  There is at most one line of level
`debug`, and nothing follows it.  It names an unknown operator or a limit exactly if the run ends in
the error of that name or limit, and it is absent exactly for all other answers.  An error that
comes up anywhere is the answer of the whole run, and no line of the log follows it. -/
theorem Engine.log_of_apply (options : Options) (budget : Nat) (rule data : Value) (state : σ) :
    ∃ report, Engine.apply ⟨.standard, options⟩ budget rule data state = some report ∧
      (report.events.filter fun event => event.level = .debug).length ≤ 1 ∧
      (∀ before event after, report.events = before ++ event :: after → event.level = .debug →
        after = []) ∧
      (∀ name, .unknownOperator name ∈ report.events ↔
        report.answer = .error (.unknownOperator name)) ∧
      (∀ limit, .depthLimit limit ∈ report.events ↔
        report.answer = .error (.depthExceeded limit)) ∧
      ((∀ event ∈ report.events, event.level ≠ .debug) ↔
        (∃ value, report.answer = .ok value) ∨
        (∃ operator expected, report.answer = .error (.operandCount operator expected)) ∨
        (∃ operator value, report.answer = .error (.notNumeric operator value)) ∨
        ∃ operator detail, report.answer = .error (.invalidArgument operator detail)) ∧
      (∀ before place e after, report.marks = before ++ ⟨place, .raised e⟩ :: after →
        report.answer = .error e ∧ Mark.events after = []) ∧
      ∀ e, report.answer = .error e → ∃ place, ⟨place, .raised e⟩ ∈ report.marks := by
  obtain ⟨answer, marks, hevaluates, happly⟩ := Engine.exists_apply_eq
    (⟨.standard, options⟩ : Engine σ) Registry.onlyBuiltins_standard rule data
  have hcloses : ClosedBy answer (Mark.events marks) := hevaluates.closes
  refine ⟨_, happly budget state, hcloses.length_filter_le_one, ?_, ?_, ?_, ?_, ?_, ?_⟩
  · intro before event after hevents hevent
    exact hcloses.after_eq_nil hevents hevent
  · intro name
    exact (hcloses.mem_iff rfl).trans unknownOperator_mem_closingEvents
  · intro limit
    exact (hcloses.mem_iff rfl).trans depthLimit_mem_closingEvents
  · exact hcloses.calm_iff.trans hevaluates.closingEvents_eq_nil_iff
  · intro before place e after hmarks
    exact hevaluates.answer_of_raised hmarks
  · intro e herror
    obtain ⟨place, -, before, after, hmarks, -, -⟩ := hevaluates.blame herror
    exact ⟨place, by simp [hmarks]⟩

end JsonRules
