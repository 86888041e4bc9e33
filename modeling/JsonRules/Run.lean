import JsonRules.Event

/-!
Runs.

A run is what evaluating does: it starts at a nesting depth and in a state of the host, and comes to
an answer, the depth and the state it leaves, and the marks it made on the way.  Runs compose as a
monad in which an error ends the rest, and marks add up in order.  A run may also come to no answer
at all (`Run.stuck`).
-/

namespace JsonRules

/-- What a run comes to. -/
structure Report (σ α : Type) where
  answer : Except RuleError α
  depth : Nat
  state : σ
  marks : List Mark

namespace Report

variable {σ α : Type}

/-- The events in the order in which they were emitted. -/
def events (report : Report σ α) : List Event :=
  report.marks.filterMap fun mark => mark.occurrence.event?

def lookups (report : Report σ α) : List String :=
  report.marks.filterMap fun mark => mark.occurrence.lookup?

def depths (report : Report σ α) : List Nat :=
  report.marks.filterMap fun mark => mark.occurrence.depth?

/-- The report with its marks changed. -/
def mapMarks (f : Mark → Mark) (report : Report σ α) : Report σ α :=
  { report with marks := report.marks.map f }

end Report

/-- A run from a nesting depth and a state of the host. -/
def Run (σ α : Type) : Type := Nat → σ → Option (Report σ α)

namespace Run

variable {σ α β : Type}

/-- Comes to an answer at once. -/
def ofAnswer (answer : Except RuleError α) : Run σ α := fun depth state =>
  some ⟨answer, depth, state, []⟩

def ok (a : α) : Run σ α := ofAnswer (.ok a)

/-- Comes to no answer. -/
def stuck : Run σ α := fun _ _ => none

/-- Goes on with a value, unless an error ends the run. -/
def andThen (run : Run σ α) (next : α → Run σ β) : Run σ β := fun depth state =>
  match run depth state with
  | none => none
  | some ⟨.error e, depth, state, marks⟩ => some ⟨.error e, depth, state, marks⟩
  | some ⟨.ok a, depth, state, marks⟩ =>
    (next a depth state).map fun report => { report with marks := marks ++ report.marks }

instance : Monad (Run σ) where
  pure := ok
  bind := andThen

theorem bind_eq (run : Run σ α) (next : α → Run σ β) : run >>= next = run.andThen next := rfl

theorem pure_eq (a : α) : (pure a : Run σ α) = ok a := rfl

/-- A value at hand is passed on. -/
theorem ok_andThen (a : α) (next : α → Run σ β) : (ok a).andThen next = next a := by
  funext depth state
  cases h : next a depth state <;> simp [andThen, ok, ofAnswer, h]

/-- A run that is to pass its value on is the run itself. -/
theorem andThen_ok (run : Run σ α) : run.andThen ok = run := by
  funext depth state
  rcases h : run depth state with _ | ⟨answer, depth', state', marks⟩
  · simp [andThen, h]
  · cases answer <;> simp [andThen, ok, ofAnswer, h]

/-- What follows may be grouped either way. -/
theorem andThen_assoc {γ : Type} (run : Run σ α) (next : α → Run σ β) (last : β → Run σ γ) :
    (run.andThen next).andThen last = run.andThen fun a => (next a).andThen last := by
  funext depth state
  rcases h : run depth state with _ | ⟨answer, depth', state', marks⟩
  · simp [andThen, h]
  · cases answer with
    | error e => simp [andThen, h]
    | ok a =>
      rcases hnext : next a depth' state' with _ | ⟨answer, depth'', state'', marks'⟩
      · simp [andThen, h, hnext]
      · cases answer with
        | error e => simp [andThen, h, hnext]
        | ok b =>
          cases hlast : last b depth'' state'' <;> simp [andThen, h, hnext, hlast]

instance : LawfulMonad (Run σ) :=
  LawfulMonad.mk' (Run σ) andThen_ok ok_andThen andThen_assoc

/-- Leaves marks of the operation at hand. -/
def leaveMarks (occurrences : List Occurrence) : Run σ Unit := fun depth state =>
  some ⟨.ok (), depth, state, occurrences.map Mark.here⟩

def emit (event : Event) : Run σ Unit := leaveMarks [.event event]

/-- Ends the run with an error of the operation at hand. -/
def raise (error : RuleError) : Run σ α := fun depth state =>
  some ⟨.error error, depth, state, [.here (.raised error)]⟩

/-- Goes on with a value or raises an error. -/
def orRaise : Except RuleError α → Run σ α
  | .ok a => ok a
  | .error error => raise error

/-- Hands on the answer, error or not, as a value. -/
def attempt (run : Run σ α) : Run σ (Except RuleError α) := fun depth state =>
  (run depth state).map fun report => { report with answer := .ok report.answer }

/-- Does something at the end of a run, whatever its answer. -/
def andFinally (run : Run σ α) (last : Run σ Unit) : Run σ α := do
  let answer ← run.attempt
  last
  ofAnswer answer

def depth : Run σ Nat := fun depth state => some ⟨.ok depth, depth, state, []⟩

def setDepth (depth : Nat) : Run σ Unit := fun _ state =>
  some ⟨.ok (), depth, state, [.here (.depth depth)]⟩

def get : Run σ σ := fun depth state => some ⟨.ok state, depth, state, []⟩

def set (state : σ) : Run σ Unit := fun depth _ => some ⟨.ok (), depth, state, []⟩

/-- One level deeper, if the limit admits it. -/
def enter (limit : Option Nat) : Run σ Unit := do
  let depth ← depth
  match limit with
  | some max =>
    if max ≤ depth then
      emit (.depthLimit max)
      raise (.depthExceeded max)
    else setDepth (depth + 1)
  | none => setDepth (depth + 1)

/-- One level up.  The outermost level has none above it. -/
def leave : Run σ Unit := do
  let depth ← depth
  setDepth (depth - 1)

/-- A run of an operand, with its marks placed in the operation around it. -/
def within (position : Nat) (run : Run σ α) : Run σ α := fun depth state =>
  (run depth state).map (Report.mapMarks (Mark.within position))

/-- A run of a rule that is no part of the operation at hand but counts as its own doing. -/
def moved (run : Run σ α) : Run σ α := fun depth state =>
  (run depth state).map (Report.mapMarks Mark.moved)

/-- A run at a nesting of its own, of which only the events and the state of the host remain. -/
def apart (run : Run σ α) : Run σ α := fun depth state =>
  (run 0 state).map fun report =>
    { report with depth := depth, marks := report.events.map fun e => Mark.here (.event e) }

/-- Runs one after the other and gathers their values. -/
def all : List (Run σ α) → Run σ (List α)
  | [] => ok []
  | run :: rest => do
    let a ← run
    let values ← all rest
    return a :: values

end Run

end JsonRules
