import JsonRules.Operator.Sample
import JsonRules.Proofs.SharedRegistries
import JsonRules.Proofs.StatelessSessions

/-!
Isolation of engines, copies and checked rules.

An engine is made from a registry and then has a history of its own: its registrations, of which the
last one of each name counts (`Engine.foldl_obey`).  Nothing that is done to other engines and no
change of a registry gets into it, and a copy and a checked rule stay what they were when they were
made (`Session.Isolated`).
-/

namespace JsonRules

variable {σ : Type}

namespace Command

/-- What a command registers on the engine under an id. -/
def registration? (id : String) : Command σ → Option (String × Operator σ)
  | .register target name operator => if target = id then some (name, .host operator) else none
  | _ => none

def newOptions? (id : String) : Command σ → Option Options
  | .setOptions target options => if target = id then some options else none
  | _ => none

end Command

namespace Registry

def registerAll (registry : Registry σ) (history : List (String × Operator σ)) : Registry σ :=
  history.foldl (fun registry entry => registry.insert entry.1 entry.2) registry

theorem entries_registerAll (registry : Registry σ) (history : List (String × Operator σ)) :
    (registry.registerAll history).entries =
      history.foldl (fun entries entry => Keyed.insertSorted entry.1 entry.2 entries)
        registry.entries := by
  induction history generalizing registry with
  | nil => rfl
  | cons entry rest ih => exact ih (registry.insert entry.1 entry.2)

/-- The last registration of a name wins. -/
theorem get?_registerAll (registry : Registry σ) (history : List (String × Operator σ))
    (name : String) :
    (registry.registerAll history).get? name =
      (Keyed.get? name history.reverse).or (registry.get? name) := by
  rw [get?, entries_registerAll, Keyed.get?_foldl Keyed.get?_insertSorted, get?]

theorem eq_of_get?_eq {registry other : Registry σ}
    (h : ∀ name, registry.get? name = other.get? name) : registry = other := by
  obtain ⟨entries, hascending⟩ := registry
  obtain ⟨others, hothers⟩ := other
  obtain rfl : entries = others := hascending.ext hothers h
  rfl

/-- Earlier registrations of a name leave no trace. -/
theorem registerAll_ofPairs (registry : Registry σ) (history : List (String × Operator σ)) :
    registry.registerAll (Keyed.ofPairs history) = registry.registerAll history := by
  apply eq_of_get?_eq
  intro name
  rw [get?_registerAll, get?_registerAll, Keyed.get?_reverse_ofPairs]

end Registry

namespace Engine

/-- A new engine over a registry, on which each name of a history is registered once, with its last
operator there. -/
def ofHistory (operators : Registry σ) (options : Options)
    (history : List (String × Operator σ)) : Engine σ :=
  ⟨operators.registerAll (Keyed.ofPairs history), options⟩

theorem get?_ofHistory (operators : Registry σ) (options : Options)
    (history : List (String × Operator σ)) (name : String) :
    (ofHistory operators options history).operators.get? name =
      (Keyed.get? name history.reverse).or (operators.get? name) := by
  rw [ofHistory, Registry.registerAll_ofPairs, Registry.get?_registerAll]

/-- What commands make of the engine under an id: a new one over the same registry, with the same
history and the last options. -/
def replayed (id : String) (engine : Engine σ) (commands : List (Command σ)) : Engine σ :=
  ofHistory engine.operators
    (((commands.filterMap (Command.newOptions? id)).getLast?).getD engine.options)
    (commands.filterMap (Command.registration? id))

theorem foldl_obey (id : String) (engine : Engine σ) (commands : List (Command σ)) :
    commands.foldl (Engine.obey id) engine = engine.replayed id commands := by
  rw [replayed, ofHistory, Registry.registerAll_ofPairs]
  induction commands generalizing engine with
  | nil => rfl
  | cons command rest ih =>
      rw [List.foldl_cons, ih, List.filterMap_cons, List.filterMap_cons]
      cases command with
      | setOptions target options =>
          by_cases htarget : target = id
          · simp [Engine.obey, Command.newOptions?, Command.registration?, htarget,
              Engine.withOptions, List.getLast?_cons]
          · simp [Engine.obey, Command.newOptions?, Command.registration?, htarget]
      | register target name operator =>
          by_cases htarget : target = id
          · simp [Engine.obey, Command.newOptions?, Command.registration?, htarget,
              Engine.register, Registry.registerAll]
          · simp [Engine.obey, Command.newOptions?, Command.registration?, htarget]
      | _ => rfl

end Engine

namespace Session

/-- In the next session one name stands for another operator in one engine, and nothing else is
different. -/
structure Registers (session next : Session σ) (id name : String) (operator : Operator σ) :
    Prop where
  lookups : ∃ engine changed, session.engine? id = some engine ∧ next.engine? id = some changed ∧
    changed.options = engine.options ∧ ∀ other, changed.operators.get? other =
      if name = other then some operator else engine.operators.get? other
  engines : ∀ other, other ≠ id → next.engine? other = session.engine? other
  checked : next.checked = session.checked
  registries : next.registries = session.registries
  state : next.state = session.state

/-- The registry that an engine is made from: a stored one, or that of the standard operators. -/
def base? (session : Session σ) : Option String → Option (Registry σ)
  | none => some .standard
  | some source => Keyed.get? source session.registries

/-- No command writes an engine under the id. -/
def Spares (id : String) (commands : List (Command σ)) : Prop :=
  ∀ command ∈ commands, ¬ command.MakesEngine id ∧ ¬ command.ChangesEngine id

/-- No command checks a rule under the name. -/
def SparesChecked (name : String) (commands : List (Command σ)) : Prop :=
  ∀ command ∈ commands, ¬ command.MakesChecked name

/-- What holds of a session whose engines and checked rules are isolated, where commands are obeyed
with a budget. -/
structure Isolated (budget : Nat) (session : Session σ) : Prop where
  /-- A registration changes what one name stands for in one engine, and nothing else. -/
  registered : ∀ id name operator engine, session.engine? id = some engine →
    session.Registers (session.step budget (.register id name operator)).2 id name (.host operator)
  /-- Whatever is done elsewhere, an engine keeps its registry and its options. -/
  engineKept : ∀ commands id, Spares id commands →
    (session.after budget commands).engine? id = session.engine? id
  /-- Whatever is done elsewhere, a checked rule keeps its registry and its options. -/
  checkedKept : ∀ commands name, SparesChecked name commands →
    (session.after budget commands).checked? name = session.checked? name
  /-- An engine has the registry as it was when the engine was made, and its own options. -/
  made : ∀ id source options registry, session.base? source = some registry →
    ∀ commands, Spares id commands →
      (session.after budget (.newEngine id source options :: commands)).engine? id =
        some ⟨registry, options⟩
  /-- A copy has the registry and the options of its source as they were when it was made. -/
  copied : ∀ id source engine, session.engine? source = some engine →
    ∀ commands, Spares id commands →
      (session.after budget (.copyEngine id source :: commands)).engine? id = some engine
  /-- A checked rule has the registry and the options of its engine as they were when the engine
  passed it. -/
  passed : ∀ id name rule engine checked, session.engine? id = some engine →
    engine.check rule = .ok checked → ∀ commands, SparesChecked name commands →
      (session.after budget (.check id name rule :: commands)).checked? name =
        some ⟨rule, engine⟩
  /-- With stateless operators, each later run comes to what it would come to now. -/
  answers : session.Stateless → ∀ commands, (∀ command ∈ commands, command.Stateless) →
    (∀ id, Spares id commands → ∀ rule data,
      ((session.after budget commands).step budget (.apply id rule data)).1 =
        (session.step budget (.apply id rule data)).1) ∧
    ∀ name, SparesChecked name commands → ∀ data,
      ((session.after budget commands).step budget (.applyChecked name data)).1 =
        (session.step budget (.applyChecked name data)).1
  /-- An engine is what its own history makes of the registry that it started with, and the last
  registration of a name wins. -/
  history : ∀ commands id engine, session.engine? id = some engine →
    (∀ command ∈ commands, ¬ command.MakesEngine id) →
      (session.after budget commands).engine? id = some (engine.replayed id commands) ∧
      ∀ name, (engine.replayed id commands).operators.get? name =
        (Keyed.get? name (commands.filterMap (Command.registration? id)).reverse).or
          (engine.operators.get? name)

variable {budget : Nat} {session : Session σ}

theorem withEngine_of_engine? {id : String} {engine : Engine σ}
    (hengine : session.engine? id = some engine) (work : Engine σ → Reply σ × Session σ) :
    session.withEngine id work = work engine := by
  rw [engine?] at hengine
  rw [withEngine, hengine]

theorem engine?_step_newEngine {source : Option String} {registry : Registry σ}
    (hregistry : session.base? source = some registry) (id : String)
    (options : Options) :
    (session.step budget (.newEngine id source options)).2.engine? id =
      some ⟨registry, options⟩ := by
  cases source with
  | none =>
      obtain rfl : Registry.standard = registry := Option.some.inj hregistry
      exact (engine?_putEngine id id _).trans (if_pos rfl)
  | some source =>
      rw [base?] at hregistry
      rw [step, withRegistry, hregistry]
      exact (engine?_putEngine id id _).trans (if_pos rfl)

theorem registers_step {id : String} {engine : Engine σ}
    (hengine : session.engine? id = some engine) (name : String) (operator : HostOperator σ) :
    session.Registers (session.step budget (.register id name operator)).2 id name
      (.host operator) := by
  rw [step, withEngine_of_engine? hengine]
  refine ⟨⟨engine, engine.register name (.host operator), hengine, ?_, rfl, fun other => ?_⟩,
    fun other hother => ?_, rfl, rfl, rfl⟩
  · rw [engine?_putEngine, if_pos rfl]
  · exact Registry.get?_insert engine.operators name other (.host operator)
  · rw [engine?_putEngine, if_neg (Ne.symm hother)]

theorem reported_congr (session other : Session σ) (report : Option (Report σ Value)) :
    (other.reported report).1 = (session.reported report).1 := by
  cases report <;> rfl

/-- The reply to a run of an engine depends on the engine and the state of the host. -/
theorem reply_apply_congr {other : Session σ} {id : String}
    (hengine : other.engine? id = session.engine? id) (hstate : other.state = session.state)
    (rule data : Value) :
    (other.step budget (.apply id rule data)).1 =
      (session.step budget (.apply id rule data)).1 := by
  rw [step, step, withEngine, withEngine, ← engine?, ← engine?, hengine, hstate]
  cases session.engine? id with
  | none => rfl
  | some engine => exact reported_congr session other _

theorem reply_applyChecked_congr {other : Session σ} {name : String}
    (hchecked : other.checked? name = session.checked? name)
    (hstate : other.state = session.state) (data : Value) :
    (other.step budget (.applyChecked name data)).1 =
      (session.step budget (.applyChecked name data)).1 := by
  rw [step, step, withChecked, withChecked, ← checked?, ← checked?, hchecked, hstate]
  cases session.checked? name with
  | none => rfl
  | some checked => exact reported_congr session other _

/-- Engines, copies and checked rules are isolated from one another in every session.  Sharing their
registries until one is written to, and copying it then, makes no difference to any reply. -/
theorem isolated (budget : Nat) :
    (∀ session : Session σ, session.Isolated budget) ∧
      ∀ (state : σ) (commands : List (Command σ)),
        ((SharedSession.start state).runAll budget commands).1 =
          ((start state).runAll budget commands).1 := by
  refine ⟨fun session => ?_, fun state commands =>
    SharedSession.runAll_eq (SharedSession.sound_start state) budget commands⟩
  constructor
  case registered =>
    intro id name operator engine hengine
    exact registers_step hengine name operator
  case engineKept =>
    intro commands id h
    exact engine?_after_of_not_writes h
  case checkedKept =>
    intro commands name h
    exact checked?_after h
  case made =>
    intro id source options registry hregistry commands h
    rw [after_cons, engine?_after_of_not_writes h]
    exact engine?_step_newEngine hregistry id options
  case copied =>
    intro id source engine hengine commands h
    rw [after_cons, engine?_after_of_not_writes h, step, withEngine_of_engine? hengine,
      engine?_putEngine, if_pos rfl]
  case passed =>
    intro id name rule engine checked hengine hcheck commands h
    obtain ⟨rfl, -⟩ := Engine.check_eq_ok_iff.1 hcheck
    rw [after_cons, checked?_after h, step, withEngine_of_engine? hengine, hcheck]
    exact (checked?_putChecked name name _).trans (if_pos rfl)
  case answers =>
    intro hstateless commands hcommands
    obtain ⟨-, hstate⟩ := quiet_after hstateless hcommands
    refine ⟨fun id h rule data => ?_, fun name h data => ?_⟩
    · exact reply_apply_congr (engine?_after_of_not_writes h) hstate rule data
    · exact reply_applyChecked_congr (checked?_after h) hstate data
  case history =>
    intro commands id engine hengine h
    refine ⟨?_, fun name => Engine.get?_ofHistory _ _ _ name⟩
    rw [engine?_after h, hengine, Option.map_some, Engine.foldl_obey]

/-- A host operator that always gives the same count. -/
def answering (n : Nat) : HostOperator Nat :=
  (Sample.const (Sample.count n)).operator ⟨.any, .eager⟩

def askingRule : Value := .object [("answer", .array [])]

/-- An engine of which there are a checked rule and a copy. -/
def answeringSession : Session Nat :=
  (start 0).after 0 [.newEngine "logic" none .standard, .register "logic" "answer" (answering 42),
    .check "logic" "rule" askingRule, .copyEngine "copy" "logic"]

theorem stateless_answeringSession : answeringSession.Stateless := by
  refine (quiet_after (stateless_start 0) ?_).1
  simp only [List.forall_mem_cons]
  exact ⟨trivial, fun _ _ => trivial, trivial, trivial, List.forall_mem_nil _⟩

def replacement : List (Command Nat) := [.register "logic" "answer" (answering 0)]

/-- The checked rule still answers as before, and the engine does not. -/
theorem isolated_answeringSession :
    ((answeringSession.after 0 replacement).step 0 (.applyChecked "rule" .null)).1 =
      (answeringSession.step 0 (.applyChecked "rule" .null)).1 ∧
    (answeringSession.after 0 replacement).engine? "copy" = answeringSession.engine? "copy" ∧
    (∃ report, (answeringSession.step 0 (.applyChecked "rule" .null)).1 = .report report ∧
      report.answer = .ok (Sample.count 42)) ∧
    ∃ report, ((answeringSession.after 0 replacement).step 0
        (.apply "logic" askingRule .null)).1 = .report report ∧
      report.answer = .ok (Sample.count 0) := by
  have hisolated : answeringSession.Isolated 0 := (isolated 0).1 answeringSession
  have hstateless : ∀ command ∈ replacement, command.Stateless := by
    simp only [replacement, List.forall_mem_cons]
    exact ⟨fun _ _ => trivial, List.forall_mem_nil _⟩
  have hchecked : SparesChecked "rule" replacement := by
    simp [SparesChecked, replacement, Command.MakesChecked]
  have hcopy : Spares "copy" replacement := by
    simp [Spares, replacement, Command.MakesEngine, Command.ChangesEngine]
  obtain ⟨-, hrun⟩ := hisolated.answers stateless_answeringSession replacement hstateless
  exact ⟨hrun "rule" hchecked .null, hisolated.engineKept replacement "copy" hcopy, ⟨_, rfl, rfl⟩,
    ⟨_, rfl, rfl⟩⟩

end Session

end JsonRules
