import JsonRules.Session

/-!
What the commands of a session leave alone.

Engines change by being made anew, by registrations and by new options, each time under one id
(`Session.engine?_step`), and checked rules by being checked anew (`Session.checked?_step`).  All
other commands leave both tables as they are (`Session.keepsTables_step`).  What a run of commands
makes of an engine is what these make of it one after another (`Session.engine?_after`).
-/

namespace JsonRules

variable {σ : Type}

namespace Command

/-- Puts an engine under an id, whatever was there. -/
def MakesEngine (id : String) : Command σ → Prop
  | .newEngine target _ _ => target = id
  | .copyEngine target _ => target = id
  | _ => False

/-- Changes the engine under an id. -/
def ChangesEngine (id : String) : Command σ → Prop
  | .setOptions target _ => target = id
  | .register target _ _ => target = id
  | _ => False

/-- Puts a checked rule under a name, if the rule passes. -/
def MakesChecked (name : String) : Command σ → Prop
  | .check _ target _ => target = name
  | _ => False

/-- Never touches engines and checked rules. -/
def KeepsTables : Command σ → Prop
  | .newEngine .. => False
  | .copyEngine .. => False
  | .setOptions .. => False
  | .register .. => False
  | .check .. => False
  | _ => True

end Command

/-- What a command makes of the engine under an id, unless it puts another one there. -/
def Engine.obey (id : String) (engine : Engine σ) : Command σ → Engine σ
  | .setOptions target options => if target = id then engine.withOptions options else engine
  | .register target name operator =>
    if target = id then engine.register name (.host operator) else engine
  | _ => engine

theorem Engine.obey_of_not_changes {id : String} {command : Command σ}
    (h : ¬ command.ChangesEngine id) (engine : Engine σ) : engine.obey id command = engine := by
  cases command with
  | setOptions target options => exact if_neg h
  | register target name operator => exact if_neg h
  | _ => rfl

namespace Session

def engine? (session : Session σ) (id : String) : Option (Engine σ) :=
  Keyed.get? id session.engines

def checked? (session : Session σ) (name : String) : Option (CheckedRule σ) :=
  Keyed.get? name session.checked

def after (budget : Nat) (session : Session σ) (commands : List (Command σ)) : Session σ :=
  (session.runAll budget commands).2

variable {budget : Nat} {session : Session σ}

theorem after_cons (command : Command σ) (rest : List (Command σ)) :
    session.after budget (command :: rest) =
      (session.step budget command).2.after budget rest := rfl

theorem engine?_putEngine (target id : String) (engine : Engine σ) :
    (session.putEngine target engine).engine? id =
      if target = id then some engine else session.engine? id :=
  Keyed.get?_set target id engine session.engines

theorem checked?_putChecked (target name : String) (checked : CheckedRule σ) :
    (session.putChecked target checked).checked? name =
      if target = name then some checked else session.checked? name :=
  Keyed.get?_set target name checked session.checked

/-- A command that works on an engine and puts the result under an id changes that id only. -/
theorem engine?_withEngine_put (source target id : String) (reply : Engine σ → Reply σ)
    (f : Engine σ → Engine σ) :
    (session.withEngine source fun engine =>
        (reply engine, session.putEngine target (f engine))).2.engine? id =
      if target = id then ((session.engine? source).map f).or (session.engine? id)
      else session.engine? id := by
  unfold withEngine
  rw [← engine?]
  cases session.engine? source with
  | none => simp
  | some engine => simp [engine?_putEngine]

/-- A command that changes the engine under an id changes no other. -/
theorem engine?_withEngine_change (target id : String) (reply : Engine σ → Reply σ)
    (f : Engine σ → Engine σ) :
    (session.withEngine target fun engine =>
        (reply engine, session.putEngine target (f engine))).2.engine? id =
      (session.engine? id).map fun engine => if target = id then f engine else engine := by
  rw [engine?_withEngine_put]
  by_cases htarget : target = id
  · subst htarget
    cases session.engine? target <;> simp
  · simp [htarget]

theorem checked_withEngine_put (source target : String) (reply : Engine σ → Reply σ)
    (f : Engine σ → Engine σ) :
    (session.withEngine source fun engine =>
        (reply engine, session.putEngine target (f engine))).2.checked = session.checked := by
  unfold withEngine
  split <;> rfl

/-- Both sessions hold the same engines and the same checked rules. -/
structure KeepsTables (session next : Session σ) : Prop where
  engines : next.engines = session.engines
  checked : next.checked = session.checked

theorem keepsTables_withRegistry {id : String} {work : Registry σ → Reply σ × Session σ}
    (h : ∀ registry, session.KeepsTables (work registry).2) :
    session.KeepsTables (session.withRegistry id work).2 := by
  unfold withRegistry
  split
  · exact h _
  · exact ⟨rfl, rfl⟩

theorem keepsTables_withEngine {id : String} {work : Engine σ → Reply σ × Session σ}
    (h : ∀ engine, session.KeepsTables (work engine).2) :
    session.KeepsTables (session.withEngine id work).2 := by
  unfold withEngine
  split
  · exact h _
  · exact ⟨rfl, rfl⟩

theorem keepsTables_withChecked {id : String} {work : CheckedRule σ → Reply σ × Session σ}
    (h : ∀ checked, session.KeepsTables (work checked).2) :
    session.KeepsTables (session.withChecked id work).2 := by
  unfold withChecked
  split
  · exact h _
  · exact ⟨rfl, rfl⟩

theorem keepsTables_reported (report : Option (Report σ Value)) :
    session.KeepsTables (session.reported report).2 := by
  cases report <;> exact ⟨rfl, rfl⟩

/-- Commands on registries, runs and questions leave engines and checked rules as they are. -/
theorem keepsTables_step {command : Command σ} (h : command.KeepsTables) :
    session.KeepsTables (session.step budget command).2 := by
  cases command with
  | newEngine id source options => exact h.elim
  | copyEngine id source => exact h.elim
  | setOptions id options => exact h.elim
  | register id name operator => exact h.elim
  | check id name rule => exact h.elim
  | copyOperator id source name =>
      apply keepsTables_withRegistry
      intro registry
      cases registry.get? source <;> exact ⟨rfl, rfl⟩
  | newRegistry id content => exact ⟨rfl, rfl⟩
  | registerIn id name operator => exact keepsTables_withRegistry fun _ => ⟨rfl, rfl⟩
  | define id names => exact keepsTables_withRegistry fun _ => ⟨rfl, rfl⟩
  | removeFrom id name => exact keepsTables_withRegistry fun _ => ⟨rfl, rfl⟩
  | lookIn id name => exact keepsTables_withRegistry fun _ => ⟨rfl, rfl⟩
  | listRegistry id => exact keepsTables_withRegistry fun _ => ⟨rfl, rfl⟩
  | showEngine id => exact keepsTables_withEngine fun _ => ⟨rfl, rfl⟩
  | apply id rule data => exact keepsTables_withEngine fun _ => keepsTables_reported _
  | applyChecked id data => exact keepsTables_withChecked fun _ => keepsTables_reported _
  | ruleOf id => exact keepsTables_withChecked fun _ => ⟨rfl, rfl⟩
  | hostState => exact ⟨rfl, rfl⟩

/-- A command that makes no engine under an id at most changes the one that is there. -/
theorem engine?_step {command : Command σ} {id : String} (h : ¬ command.MakesEngine id) :
    (session.step budget command).2.engine? id =
      (session.engine? id).map fun engine => engine.obey id command := by
  have hkept : ∀ next : Session σ, next.engines = session.engines →
      (∀ engine : Engine σ, engine.obey id command = engine) →
        next.engine? id = (session.engine? id).map fun engine => engine.obey id command := by
    intro next hengines hobey
    simp only [hobey, Option.map_id', engine?, hengines]
  cases command with
  | setOptions target options => exact engine?_withEngine_change target id _ _
  | register target name operator => exact engine?_withEngine_change target id _ _
  | newEngine target source options =>
      have hput : ∀ engine : Engine σ,
          (session.putEngine target engine).engine? id = session.engine? id := fun engine =>
        (engine?_putEngine target id engine).trans (if_neg h)
      simp only [Engine.obey, Option.map_id']
      cases source with
      | none => exact hput _
      | some source =>
          rw [step, withRegistry]
          split
          · exact hput _
          · rfl
  | copyEngine target source =>
      simp only [Engine.obey, Option.map_id']
      exact (engine?_withEngine_put source target id _ fun engine => engine).trans (if_neg h)
  | check target name rule =>
      refine hkept _ ?_ fun _ => rfl
      rw [step, withEngine]
      split
      · split <;> rfl
      · rfl
  | _ =>
      refine hkept _ (keepsTables_step ?_).engines fun _ => rfl
      trivial

/-- A command that checks no rule under a name leaves the checked rule there as it is. -/
theorem checked?_step {command : Command σ} {name : String} (h : ¬ command.MakesChecked name) :
    (session.step budget command).2.checked? name = session.checked? name := by
  have hkept : ∀ next : Session σ, next.checked = session.checked →
      next.checked? name = session.checked? name := by
    intro next hchecked
    rw [checked?, hchecked, checked?]
  cases command with
  | newEngine target source options =>
      apply hkept
      cases source with
      | none => rfl
      | some source =>
          rw [step, withRegistry]
          split <;> rfl
  | copyEngine target source =>
      exact hkept _ (checked_withEngine_put source target _ fun engine => engine)
  | setOptions target options => exact hkept _ (checked_withEngine_put target target _ _)
  | register target other operator => exact hkept _ (checked_withEngine_put target target _ _)
  | check target other rule =>
      rw [step, withEngine]
      split
      · split
        · exact (checked?_putChecked other name _).trans (if_neg h)
        · rfl
      · rfl
  | _ =>
      refine hkept _ (keepsTables_step ?_).checked
      trivial

/-- What commands make of an engine, as long as none of them makes another under its id. -/
theorem engine?_after {commands : List (Command σ)} {id : String}
    (h : ∀ command ∈ commands, ¬ command.MakesEngine id) :
    (session.after budget commands).engine? id =
      (session.engine? id).map fun engine => commands.foldl (Engine.obey id) engine := by
  induction commands generalizing session with
  | nil => exact Option.map_id'.symm
  | cons command rest ih =>
      obtain ⟨hcommand, hrest⟩ := List.forall_mem_cons.1 h
      rw [after_cons, ih hrest, engine?_step hcommand, Option.map_map]
      rfl

/-- Commands that write no engine under an id leave the engine there as it is. -/
theorem engine?_after_of_not_writes {commands : List (Command σ)} {id : String}
    (h : ∀ command ∈ commands, ¬ command.MakesEngine id ∧ ¬ command.ChangesEngine id) :
    (session.after budget commands).engine? id = session.engine? id := by
  induction commands generalizing session with
  | nil => rfl
  | cons command rest ih =>
      obtain ⟨⟨hmakes, hchanges⟩, hrest⟩ := List.forall_mem_cons.1 h
      rw [after_cons, ih hrest, engine?_step hmakes]
      simp only [Engine.obey_of_not_changes hchanges, Option.map_id']

theorem checked?_after {commands : List (Command σ)} {name : String}
    (h : ∀ command ∈ commands, ¬ command.MakesChecked name) :
    (session.after budget commands).checked? name = session.checked? name := by
  induction commands generalizing session with
  | nil => rfl
  | cons command rest ih =>
      obtain ⟨hcommand, hrest⟩ := List.forall_mem_cons.1 h
      rw [after_cons, ih hrest, checked?_step hcommand]

end Session

end JsonRules
