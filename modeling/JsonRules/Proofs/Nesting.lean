import JsonRules.Proofs.Admission
import JsonRules.Proofs.Operations
import JsonRules.Proofs.Script

/-!
Runs keep the nesting depth.

Whatever operators are registered and however a run ends, it leaves the depth at which it started,
and on the way it only goes from level to level below that depth, as far as the limit admits it, and
comes back (`Rule.keepsDepth_run`).  Host operators may evaluate rules as often as they like; what
they start keeps the depth as well, by induction on the budget.
-/

namespace JsonRules

variable {σ α β : Type}

/-- The depths passed through on rounds from a depth to the level below it and back, none of which
goes beyond the limit. -/
inductive Excursion (limit : Option Nat) : Nat → List Nat → Prop
  | nil {depth : Nat} : Excursion limit depth []
  | round {depth : Nat} {inner rest : List Nat}
      (hfree : ∀ max, limit = some max → depth < max)
      (hinner : Excursion limit (depth + 1) inner) (hrest : Excursion limit depth rest) :
      Excursion limit depth ((depth + 1) :: (inner ++ depth :: rest))

namespace Excursion

variable {limit : Option Nat} {depth : Nat} {depths others : List Nat}

theorem append (h : Excursion limit depth depths) (hothers : Excursion limit depth others) :
    Excursion limit depth (depths ++ others) := by
  induction h with
  | nil => exact hothers
  | round hfree hinner hrest _ ih =>
      have hround := Excursion.round hfree hinner (ih hothers)
      simpa using hround

/-- No depth on the way is above the start or beyond the limit. -/
theorem between (h : Excursion limit depth depths) :
    ∀ d ∈ depths, depth ≤ d ∧ ∀ max, limit = some max → d ≤ max := by
  induction h with
  | nil => exact List.forall_mem_nil _
  | @round depth inner rest hfree _ _ ihinner ihrest =>
      intro d hd
      rcases List.mem_cons.1 hd with rfl | hd
      · exact ⟨Nat.le_succ depth, hfree⟩
      · rcases List.mem_append.1 hd with hd | hd
        · obtain ⟨hstart, hlimit⟩ := ihinner d hd
          exact ⟨Nat.le_of_succ_le hstart, hlimit⟩
        · rcases List.mem_cons.1 hd with rfl | hd
          · exact ⟨Nat.le_refl d, fun max hmax => Nat.le_of_lt (hfree max hmax)⟩
          · exact ihrest d hd

end Excursion

namespace Report

/-- The report leaves the depth of its start, and the depths passed through are those of an
excursion. -/
structure KeepsDepth (limit : Option Nat) (depth : Nat) (report : Report σ α) : Prop where
  depth_eq : report.depth = depth
  excursion : Excursion limit depth report.depths

theorem keepsDepth_of_depths_eq_nil {limit : Option Nat} {depth : Nat} {report : Report σ α}
    (hdepth : report.depth = depth) (h : report.depths = []) :
    report.KeepsDepth limit depth :=
  ⟨hdepth, h ▸ .nil⟩

theorem depths_after (marks : List Mark) (report : Report σ α) :
    (report.after marks).depths =
      marks.filterMap (fun mark => mark.occurrence.depth?) ++ report.depths :=
  List.filterMap_append

theorem depths_mapMarks {f : Mark → Mark} (hf : ∀ mark, (f mark).occurrence = mark.occurrence)
    (report : Report σ α) : (report.mapMarks f).depths = report.depths := by
  simp only [depths, mapMarks, List.filterMap_map]
  congr 1
  funext mark
  simp [hf]

theorem depths_entered (name : String) (count depth : Nat) (report : Report σ α) :
    (report.entered name count depth).depths =
      depth :: (report.depths ++ [report.depth - 1]) := by
  simp [depths, entered, Mark.here, Occurrence.depth?]

theorem KeepsDepth.mapMarks {limit : Option Nat} {depth : Nat} {report : Report σ α}
    (h : report.KeepsDepth limit depth) {f : Mark → Mark}
    (hf : ∀ mark, (f mark).occurrence = mark.occurrence) :
    (report.mapMarks f).KeepsDepth limit depth :=
  ⟨h.depth_eq, by simpa [depths_mapMarks hf] using h.excursion⟩

end Report

/-- An operation that is refused passes through no depth. -/
theorem RuleError.depths_refusal (e : RuleError) :
    e.refusal.filterMap (fun mark => mark.occurrence.depth?) = [] := by
  cases e <;> rfl

namespace Run

/-- Every report of the run leaves the depth of its start and keeps between that depth and the
limit. -/
def KeepsDepth (limit : Option Nat) (run : Run σ α) : Prop :=
  ∀ depth state report, run depth state = some report → report.KeepsDepth limit depth

variable {limit : Option Nat}

theorem keepsDepth_stuck : (stuck : Run σ α).KeepsDepth limit := by
  intro depth state report h
  simp [stuck] at h

theorem keepsDepth_ofAnswer (answer : Except RuleError α) :
    (ofAnswer answer : Run σ α).KeepsDepth limit := by
  intro depth state report h
  cases h
  exact Report.keepsDepth_of_depths_eq_nil rfl rfl

theorem keepsDepth_orRaise (answer : Except RuleError α) :
    (orRaise answer : Run σ α).KeepsDepth limit := by
  cases answer with
  | ok a => exact keepsDepth_ofAnswer (.ok a)
  | error e =>
      intro depth state report h
      cases h
      exact Report.keepsDepth_of_depths_eq_nil rfl rfl

theorem keepsDepth_leaveMarks {occurrences : List Occurrence}
    (hquiet : ∀ occurrence ∈ occurrences, occurrence.depth? = none) :
    (leaveMarks occurrences : Run σ Unit).KeepsDepth limit := by
  intro depth state report h
  cases h
  refine Report.keepsDepth_of_depths_eq_nil rfl ?_
  simpa [Report.depths, List.filterMap_map, Mark.here] using hquiet

theorem keepsDepth_depth : (Run.depth : Run σ Nat).KeepsDepth limit := by
  intro depth state report h
  cases h
  exact Report.keepsDepth_of_depths_eq_nil rfl rfl

theorem keepsDepth_get : (Run.get : Run σ σ).KeepsDepth limit := by
  intro depth state report h
  cases h
  exact Report.keepsDepth_of_depths_eq_nil rfl rfl

theorem keepsDepth_set (state : σ) : (Run.set state : Run σ Unit).KeepsDepth limit := by
  intro depth state report h
  cases h
  exact Report.keepsDepth_of_depths_eq_nil rfl rfl

theorem KeepsDepth.andThen {run : Run σ α} {next : α → Run σ β} (hrun : run.KeepsDepth limit)
    (hnext : ∀ a, (next a).KeepsDepth limit) : (run.andThen next).KeepsDepth limit := by
  intro depth state report h
  rcases andThen_eq_some h with ⟨e, depth', state', marks, hfirst, rfl⟩ |
    ⟨a, depth', state', marks, last, hfirst, hlast, rfl⟩
  · have hkeeps := hrun depth state _ hfirst
    exact ⟨hkeeps.depth_eq, hkeeps.excursion⟩
  · have hkeeps := hrun depth state _ hfirst
    obtain rfl : depth' = depth := hkeeps.depth_eq
    have hlastKeeps := hnext a depth' state' last hlast
    refine ⟨hlastKeeps.depth_eq, ?_⟩
    rw [Report.depths_after]
    exact hkeeps.excursion.append hlastKeeps.excursion

theorem KeepsDepth.attempt {run : Run σ α} (h : run.KeepsDepth limit) :
    run.attempt.KeepsDepth limit := by
  intro depth state report hreport
  obtain ⟨first, hfirst, rfl⟩ := Option.map_eq_some_iff.1 hreport
  have hkeeps := h depth state first hfirst
  exact ⟨hkeeps.depth_eq, hkeeps.excursion⟩

theorem KeepsDepth.within {run : Run σ α} (h : run.KeepsDepth limit) (position : Nat) :
    (run.within position).KeepsDepth limit := by
  intro depth state report hreport
  obtain ⟨first, hfirst, rfl⟩ := Option.map_eq_some_iff.1 hreport
  exact (h depth state first hfirst).mapMarks fun _ => rfl

theorem KeepsDepth.moved {run : Run σ α} (h : run.KeepsDepth limit) :
    run.moved.KeepsDepth limit := by
  intro depth state report hreport
  obtain ⟨first, hfirst, rfl⟩ := Option.map_eq_some_iff.1 hreport
  exact (h depth state first hfirst).mapMarks fun _ => rfl

/-- A run at a nesting of its own leaves the depth outside alone. -/
theorem keepsDepth_apart (run : Run σ α) : run.apart.KeepsDepth limit := by
  intro depth state report hreport
  obtain ⟨first, -, rfl⟩ := Option.map_eq_some_iff.1 hreport
  refine Report.keepsDepth_of_depths_eq_nil rfl ?_
  simp [Report.depths, List.filterMap_map, Mark.here, Occurrence.depth?]

theorem keepsDepth_all {runs : List (Run σ α)} (h : ∀ run ∈ runs, run.KeepsDepth limit) :
    (all runs).KeepsDepth limit := by
  induction runs with
  | nil => exact keepsDepth_ofAnswer (.ok [])
  | cons run rest ih =>
      have hrest := ih fun other hother => h other (List.mem_cons_of_mem run hother)
      exact (h run List.mem_cons_self).andThen fun a =>
        hrest.andThen fun values => keepsDepth_ofAnswer (.ok (a :: values))

end Run

variable {limit : Option Nat}

/-- Following a script keeps the depth if the operands do. -/
theorem Script.keepsDepth_run (script : Script) (data : Value) {operands : List (Run σ Value)}
    (h : ∀ run ∈ operands, run.KeepsDepth limit) :
    (script.run data operands).KeepsDepth limit := by
  induction script generalizing operands with
  | finish answer => exact Run.keepsDepth_orRaise answer
  | stuck => exact Run.keepsDepth_stuck
  | operand next ih =>
      cases operands with
      | nil => exact Run.keepsDepth_stuck
      | cons first rest =>
          exact (h first List.mem_cons_self).andThen fun value =>
            ih value fun run hrun => h run (List.mem_cons_of_mem first hrun)
  | skip next ih => exact ih fun run hrun => h run (List.mem_of_mem_tail hrun)
  | lookup path next ih =>
      have hlookUp : (Control.lookUp data path : Run σ _).KeepsDepth limit :=
        (Run.keepsDepth_leaveMarks (by simp [Occurrence.depth?])).andThen fun _ =>
          Run.keepsDepth_ofAnswer _
      exact hlookUp.andThen fun found => ih found h
  | log value next ih =>
      have hlog : (Builtin.logValue value : Run σ _).KeepsDepth limit :=
        Run.keepsDepth_depth.andThen fun _ =>
          (Run.keepsDepth_leaveMarks (by simp [Occurrence.depth?])).andThen fun _ =>
            Run.keepsDepth_ofAnswer _
      exact hlog.andThen fun _ => ih h

/-- Whatever host operators can start keeps the depth. -/
structure Reentry.KeepsDepth (reentry : Reentry σ) : Prop where
  evaluate : ∀ (context : Context σ) (rule : Value),
    (reentry.evaluate context rule).KeepsDepth context.options.maxDepth
  call : ∀ (context : Context σ) (operator : Operator σ) (operands : List Value),
    (reentry.call context operator operands).KeepsDepth context.options.maxDepth

variable {reentry : Reentry σ}

/-- However often a host operator evaluates and whatever it makes of errors, it keeps the depth. -/
theorem Action.keepsDepth_run (hreentry : reentry.KeepsDepth) (context : Context σ)
    (action : Action σ) : (action.run reentry context).KeepsDepth context.options.maxDepth := by
  induction action with
  | finish answer => exact Run.keepsDepth_orRaise answer
  | evaluate rule next ih => exact (hreentry.evaluate context rule).attempt.andThen ih
  | evaluateOn data options rule next ih => exact (Run.keepsDepth_apart _).attempt.andThen ih
  | call name operands next ih =>
      unfold Action.run
      cases context.operators.get? name with
      | none => exact ih none
      | some operator =>
          exact (hreentry.call context operator operands).attempt.andThen fun answer =>
            ih (some answer)
  | depth next ih => exact Run.keepsDepth_depth.andThen ih
  | get next ih => exact Run.keepsDepth_get.andThen ih
  | set state next ih => exact (Run.keepsDepth_set state).andThen fun _ => ih

theorem Operator.keepsDepth_run (hreentry : reentry.KeepsDepth) (context : Context σ)
    (operator : Operator σ) {operands : List (Operand σ)}
    (h : ∀ operand ∈ operands, operand.run.KeepsDepth context.options.maxDepth) :
    (operator.run reentry context operands).KeepsDepth context.options.maxDepth := by
  have hruns : ∀ run ∈ operands.map Operand.run, run.KeepsDepth context.options.maxDepth := by
    simpa using h
  unfold Operator.run
  cases operator with
  | builtin b =>
      simp only [Builtin.run_eq_script]
      exact Script.keepsDepth_run _ _ hruns
  | host host =>
      cases hmode : host.signature.mode with
      | eager =>
          simp only [hmode]
          exact (Run.keepsDepth_all hruns).andThen fun values =>
            Action.keepsDepth_run hreentry context _
      | raw =>
          simp only [hmode]
          exact Action.keepsDepth_run hreentry context _

/-- An operation that is entered goes one level deeper, which the limit admits, and comes back. -/
theorem keepsDepth_dispatch (hreentry : reentry.KeepsDepth) (context : Context σ) (name : String)
    {operands : List (Operand σ)}
    (h : ∀ operand ∈ operands, operand.run.KeepsDepth context.options.maxDepth) :
    (dispatch reentry context name operands).KeepsDepth context.options.maxDepth := by
  intro depth state report hreport
  rw [dispatch_apply] at hreport
  cases hadmission : context.operators.admission context.options depth name operands.length with
  | error e =>
      simp only [hadmission, Option.some.injEq] at hreport
      subst hreport
      exact Report.keepsDepth_of_depths_eq_nil rfl (RuleError.depths_refusal e)
  | ok operator =>
      simp only [hadmission, Option.map_eq_some_iff] at hreport
      obtain ⟨inner, hinner, rfl⟩ := hreport
      obtain ⟨-, -, hfree⟩ := Registry.admission_eq_ok_iff.1 hadmission
      have hkeeps := operator.keepsDepth_run hreentry context h (depth + 1) state inner hinner
      refine ⟨by simp [Report.entered, hkeeps.depth_eq], ?_⟩
      rw [Report.depths_entered, hkeeps.depth_eq, Nat.add_sub_cancel]
      exact .round hfree hkeeps.excursion .nil

/-- Evaluating a rule keeps the depth, on every registry and under every limit. -/
theorem Rule.keepsDepth_run (hreentry : reentry.KeepsDepth) (context : Context σ) (rule : Rule) :
    (rule.run reentry context).KeepsDepth context.options.maxDepth := by
  induction rule using Rule.induct with
  | literal value => exact Run.keepsDepth_ofAnswer (.ok value)
  | operation rule name operands hrule ih =>
      rw [Rule.run_of_operation? hrule]
      refine keepsDepth_dispatch hreentry context name fun operand hoperand => ?_
      obtain ⟨inner, hinner, position, hrun⟩ := Rule.exists_run_of_mem_operands hoperand
      rw [hrun]
      exact (ih inner hinner).within position

/-- So does every operand that is handed to an operator. -/
theorem Rule.keepsDepth_operands (hreentry : reentry.KeepsDepth) (context : Context σ)
    (position : Nat) (rules : List Rule) :
    ∀ operand ∈ Rule.operands reentry context position rules,
      operand.run.KeepsDepth context.options.maxDepth := by
  intro operand hoperand
  obtain ⟨inner, -, place, hrun⟩ := Rule.exists_run_of_mem_operands hoperand
  rw [hrun]
  exact (Rule.keepsDepth_run hreentry context inner).within place

/-- What an operator makes of operands given as they are keeps the depth. -/
theorem Operator.keepsDepth_call (hreentry : reentry.KeepsDepth) (context : Context σ)
    (operator : Operator σ) (operands : List Value) :
    (operator.call reentry context operands).KeepsDepth context.options.maxDepth := by
  refine operator.keepsDepth_run hreentry context fun operand hoperand => ?_
  obtain ⟨value, -, rfl⟩ := List.mem_map.1 hoperand
  cases operator.signature.mode with
  | eager => exact Run.keepsDepth_ofAnswer (.ok value)
  | raw => exact hreentry.evaluate context value

/-- Whatever host operators can start with a budget keeps the depth. -/
theorem Reentry.keepsDepth_ofBudget (budget : Nat) :
    (Reentry.ofBudget budget : Reentry σ).KeepsDepth := by
  induction budget with
  | zero => exact ⟨fun _ _ => Run.keepsDepth_stuck, fun _ _ _ => Run.keepsDepth_stuck⟩
  | succ budget ih =>
      refine ⟨fun context rule => ?_, fun context operator operands => ?_⟩
      · exact (Rule.keepsDepth_run ih context _).moved
      · exact (operator.keepsDepth_call ih context operands).moved

end JsonRules
