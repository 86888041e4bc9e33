import JsonRules.Run

/-!
How runs go on.

`andThen` either stops with the error of its first run or goes on with its value.  The lemmas here
say so for a run at a given depth and state, in the direction from the parts to the whole and back.
-/

namespace JsonRules

variable {σ α β : Type}

namespace Report

/-- The report of a run that went on after another had left some marks. -/
def after (marks : List Mark) (report : Report σ α) : Report σ α :=
  { report with marks := marks ++ report.marks }

end Report

namespace Run

theorem andThen_of_error {run : Run σ α} {depth : Nat} {state : σ} {e : RuleError}
    {depth' : Nat} {state' : σ} {marks : List Mark}
    (h : run depth state = some ⟨.error e, depth', state', marks⟩) (next : α → Run σ β) :
    run.andThen next depth state = some ⟨.error e, depth', state', marks⟩ := by
  simp [andThen, h]

theorem andThen_of_ok {run : Run σ α} {depth : Nat} {state : σ} {a : α}
    {depth' : Nat} {state' : σ} {marks : List Mark}
    (h : run depth state = some ⟨.ok a, depth', state', marks⟩) (next : α → Run σ β) :
    run.andThen next depth state = (next a depth' state').map (Report.after marks) := by
  simp only [andThen, h]
  rfl

/-- A run that goes on depends on how its first part comes out and on nothing else. -/
theorem andThen_congr {run other : Run σ α} {depth : Nat} {state : σ}
    (h : run depth state = other depth state) (next : α → Run σ β) :
    run.andThen next depth state = other.andThen next depth state := by
  simp [andThen, h]

/-- Runs go on alike if they do so with the value that the first part comes to. -/
theorem andThen_congr_of_ok {run : Run σ α} {next other : α → Run σ β} {depth : Nat} {state : σ}
    (h : ∀ a depth' state' marks, run depth state = some ⟨.ok a, depth', state', marks⟩ →
      next a depth' state' = other a depth' state') :
    run.andThen next depth state = run.andThen other depth state := by
  rcases hrun : run depth state with _ | ⟨answer, depth', state', marks⟩
  · simp [andThen, hrun]
  · cases answer with
    | error e => rw [andThen_of_error hrun, andThen_of_error hrun]
    | ok a => rw [andThen_of_ok hrun, andThen_of_ok hrun, h a depth' state' marks hrun]

/-- Runs that go on alike with every value are the same. -/
theorem andThen_congr_right (run : Run σ α) {next other : α → Run σ β}
    (h : ∀ a, next a = other a) : run.andThen next = run.andThen other := by
  rw [funext h]

/-- A run that goes on ends in the error of its first part, or in the report of the second after the
marks of the first. -/
theorem andThen_eq_some {run : Run σ α} {next : α → Run σ β} {depth : Nat} {state : σ}
    {report : Report σ β} (h : run.andThen next depth state = some report) :
    (∃ e depth' state' marks, run depth state = some ⟨.error e, depth', state', marks⟩ ∧
      report = ⟨.error e, depth', state', marks⟩) ∨
    ∃ a depth' state' marks last, run depth state = some ⟨.ok a, depth', state', marks⟩ ∧
      next a depth' state' = some last ∧ report = last.after marks := by
  rcases hrun : run depth state with _ | ⟨answer, depth', state', marks⟩
  · simp [andThen, hrun] at h
  · cases answer with
    | error e =>
        rw [andThen_of_error hrun, Option.some.injEq] at h
        exact Or.inl ⟨e, depth', state', marks, rfl, h.symm⟩
    | ok a =>
        rw [andThen_of_ok hrun, Option.map_eq_some_iff] at h
        obtain ⟨last, hlast, rfl⟩ := h
        exact Or.inr ⟨a, depth', state', marks, last, rfl, hlast, rfl⟩

theorem within_apply {run : Run σ α} {depth : Nat} {state : σ} {report : Report σ α}
    (h : run depth state = some report) (position : Nat) :
    run.within position depth state = some (report.mapMarks (Mark.within position)) := by
  simp [within, h]

end Run

end JsonRules
