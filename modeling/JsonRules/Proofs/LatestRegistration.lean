import JsonRules.Proofs.UniqueKeys
import JsonRules.Registry
import Mathlib.Data.Set.Card

/-!
Registries as records of what was registered last.

Calls register operators, remove names, or build a registry of definitions in place of the one so
far.  A name then stands for the operator of its latest registration, if nothing undid that later,
and whatever a registry says about its names agrees with this (`Registry.run_faithful`).
-/

namespace JsonRules

section Latest

variable {α : Type} {counts undoes : α → Prop}

/-- Of what was done one thing after another, something counts, and nothing undoes it later. -/
def Latest (counts undoes : α → Prop) (done : List α) : Prop :=
  ∃ earlier item later, done = earlier ++ item :: later ∧ counts item ∧
    ∀ next ∈ later, ¬ undoes next

theorem not_latest_nil : ¬ Latest counts undoes [] := by
  rintro ⟨earlier, item, later, hdone, -⟩
  simp at hdone

/-- One thing more counts itself, or leaves what counted before. -/
theorem latest_concat {done : List α} {next : α} :
    Latest counts undoes (done ++ [next]) ↔
      counts next ∨ (¬ undoes next ∧ Latest counts undoes done) := by
  constructor
  · rintro ⟨earlier, item, later, hdone, hitem, hlater⟩
    rcases List.eq_nil_or_concat' later with rfl | ⟨front, final, rfl⟩
    · obtain ⟨-, rfl⟩ := List.append_singleton_inj.1 hdone
      exact .inl hitem
    · have hsplit : done ++ [next] = (earlier ++ item :: front) ++ [final] := by
        rw [hdone, List.append_assoc, List.cons_append]
      obtain ⟨rfl, rfl⟩ := List.append_singleton_inj.1 hsplit
      obtain ⟨hfront, hfinal⟩ := List.forall_mem_append.1 hlater
      exact .inr ⟨hfinal next List.mem_cons_self, earlier, item, front, rfl, hitem, hfront⟩
  · rintro (hnext | ⟨hnext, earlier, item, later, rfl, hitem, hlater⟩)
    · exact ⟨done, next, [], rfl, hnext, List.forall_mem_nil _⟩
    · refine ⟨earlier, item, later ++ [next], by simp, hitem, ?_⟩
      exact List.forall_mem_append.2 ⟨hlater, List.forall_mem_singleton.2 hnext⟩

end Latest

variable {σ : Type}

namespace Registry

/-- A call that changes a registry or makes one. -/
inductive Call (σ : Type)
  /-- Registers an operator, of which there may be other owners. -/
  | register (name : String) (operator : Operator σ)
  | registerFunction (name : String) (act : View → List Value → Action σ)
  | registerDefinition (d : Definition σ)
  /-- Builds a registry of definitions in place of the one so far. -/
  | ofDefinitions (definitions : List (Definition σ))
  | remove (name : String)

namespace Call

/-- The name whose operator a call gives back. -/
def target? : Call σ → Option String
  | .register name _ => some name
  | .registerFunction name _ => some name
  | .registerDefinition _ => none
  | .ofDefinitions _ => none
  | .remove name => some name

/-- The call registers an operator under a name, and after it no other one there. -/
def Registers (name : String) (operator : Operator σ) : Call σ → Prop
  | .register other registered => other = name ∧ registered = operator
  | .registerFunction other act => other = name ∧ .host ⟨⟨.any, .eager⟩, act⟩ = operator
  | .registerDefinition d => name ∈ d.names ∧ d.operator = operator
  | .ofDefinitions definitions =>
    Latest (fun d => name ∈ d.names ∧ d.operator = operator) (fun d => name ∈ d.names) definitions
  | .remove _ => False

/-- The call undoes earlier registrations under a name: it registers an operator there again, it
removes the name, or it begins anew. -/
def Undoes (name : String) : Call σ → Prop
  | .register other _ => other = name
  | .registerFunction other _ => other = name
  | .registerDefinition d => name ∈ d.names
  | .ofDefinitions _ => True
  | .remove other => other = name

end Call

/-- What a call gives back, if anything, and the registry that it leaves. -/
def obey (registry : Registry σ) : Call σ → Option (Option (Operator σ)) × Registry σ
  | .register name operator => Prod.map some id (registry.register name operator)
  | .registerFunction name act => Prod.map some id (registry.registerFunction name act)
  | .registerDefinition d => (none, registry.registerDefinition d)
  | .ofDefinitions definitions => (none, ofDefinitions definitions)
  | .remove name => Prod.map some id (registry.remove name)

def run (registry : Registry σ) :
    List (Call σ) → List (Option (Option (Operator σ))) × Registry σ
  | [] => ([], registry)
  | call :: rest =>
    let (reply, registry) := registry.obey call
    let (replies, registry) := registry.run rest
    (reply :: replies, registry)

/-- After some calls, a name stands for the operator of its latest registration. -/
def StandsFor (calls : List (Call σ)) (name : String) (operator : Operator σ) : Prop :=
  Latest (Call.Registers name operator) (Call.Undoes name) calls

/-- After some calls, a name stands for something. -/
def Live (calls : List (Call σ)) (name : String) : Prop :=
  ∃ operator, StandsFor calls name operator

/-- What calls give back and the registry that they make of an empty one agree with the latest
registrations. -/
structure Faithful (calls : List (Call σ))
    (outcome : List (Option (Option (Operator σ))) × Registry σ) : Prop where
  get? : ∀ name operator, outcome.2.get? name = some operator ↔ StandsFor calls name operator
  get?_none : ∀ name, outcome.2.get? name = none ↔ ¬ Live calls name
  contains : ∀ name, outcome.2.contains name = true ↔ Live calls name
  /-- No name is listed twice. -/
  nodup : outcome.2.names.Nodup
  names : ∀ name, name ∈ outcome.2.names ↔ Live calls name
  size : outcome.2.size = {name | Live calls name}.ncard
  isEmpty : outcome.2.isEmpty = true ↔ ∀ name, ¬ Live calls name
  /-- A call gives back what its name stood for just before. -/
  replies : ∀ earlier call later, calls = earlier ++ call :: later →
    outcome.1[earlier.length]? = some (call.target?.map (empty.run earlier).2.get?)
  /-- The text shows the names that stand for something, each of them once and in order. -/
  describe : ∃ live : List String, live.Pairwise (· < ·) ∧ (∀ name, name ∈ live ↔ Live calls name) ∧
    outcome.2.describe =
      "OperatorRegistry \x7b operators: [" ++ ", ".intercalate (live.map Text.listed) ++ "] \x7d"

/-- A name means the last of the definitions that have it. -/
theorem get?_ofDefinitions {definitions : List (Definition σ)} {name : String}
    {operator : Operator σ} :
    (ofDefinitions definitions).get? name = some operator ↔
      Latest (fun d => name ∈ d.names ∧ d.operator = operator) (fun d => name ∈ d.names)
        definitions := by
  induction definitions using List.reverseRecOn with
  | nil => exact iff_of_false (by simp [ofDefinitions, get?_empty]) not_latest_nil
  | append_singleton definitions d ih =>
      rw [latest_concat, ← ih, ofDefinitions, List.foldl_append, List.foldl_cons, List.foldl_nil,
        ← ofDefinitions, get?_registerDefinition]
      by_cases hname : name ∈ d.names
      · simp [hname]
      · simp [hname]

/-- What a name stands for after a call. -/
theorem get?_obey {registry : Registry σ} {call : Call σ} {name : String} {operator : Operator σ} :
    (registry.obey call).2.get? name = some operator ↔
      call.Registers name operator ∨
        (¬ call.Undoes name ∧ registry.get? name = some operator) := by
  cases call with
  | register other registered =>
      simp only [obey, register, Prod.map_snd, id_eq, get?_insert, Call.Registers, Call.Undoes]
      by_cases hname : other = name <;> simp [hname]
  | registerFunction other act =>
      simp only [obey, registerFunction, register, Prod.map_snd, id_eq, get?_insert,
        Call.Registers, Call.Undoes]
      by_cases hname : other = name <;> simp [hname]
  | registerDefinition d =>
      simp only [obey, get?_registerDefinition, Call.Registers, Call.Undoes]
      by_cases hname : name ∈ d.names <;> simp [hname]
  | ofDefinitions definitions =>
      simp [obey, get?_ofDefinitions, Call.Registers, Call.Undoes]
  | remove other =>
      simp only [obey, remove, Prod.map_snd, id_eq, get?_erase, Call.Registers, Call.Undoes]
      by_cases hname : other = name <;> simp [hname]

theorem run_cons (registry : Registry σ) (call : Call σ) (rest : List (Call σ)) :
    registry.run (call :: rest) =
      ((registry.obey call).1 :: ((registry.obey call).2.run rest).1,
        ((registry.obey call).2.run rest).2) := rfl

theorem run_append (registry : Registry σ) (calls more : List (Call σ)) :
    registry.run (calls ++ more) =
      ((registry.run calls).1 ++ ((registry.run calls).2.run more).1,
        ((registry.run calls).2.run more).2) := by
  induction calls generalizing registry with
  | nil => rfl
  | cons call rest ih =>
      rw [List.cons_append, run_cons, ih, run_cons, List.cons_append]

theorem length_run (registry : Registry σ) (calls : List (Call σ)) :
    (registry.run calls).1.length = calls.length := by
  induction calls generalizing registry with
  | nil => rfl
  | cons call rest ih => exact congrArg (· + 1) (ih (registry.obey call).2)

/-- A call gives back what its name stood for. -/
theorem reply_obey (registry : Registry σ) (call : Call σ) :
    (registry.obey call).1 = call.target?.map registry.get? := by
  cases call <;> rfl

theorem get?_run (calls : List (Call σ)) (name : String) (operator : Operator σ) :
    (empty.run calls).2.get? name = some operator ↔ StandsFor calls name operator := by
  induction calls using List.reverseRecOn with
  | nil => exact iff_of_false (by simp [run, get?_empty]) not_latest_nil
  | append_singleton calls call ih =>
      rw [StandsFor, latest_concat, ← StandsFor, ← ih, run_append]
      exact get?_obey

theorem getElem?_run {earlier later : List (Call σ)} {call : Call σ} (registry : Registry σ) :
    (registry.run (earlier ++ call :: later)).1[earlier.length]? =
      some (call.target?.map (registry.run earlier).2.get?) := by
  rw [run_append, List.getElem?_append_right (Nat.le_of_eq (length_run registry earlier)),
    length_run, Nat.sub_self, ← reply_obey]
  rfl

theorem mem_names_iff {registry : Registry σ} {name : String} :
    name ∈ registry.names ↔ ∃ operator, registry.get? name = some operator := by
  rw [names, Keyed.mem_keys_iff, ← Option.ne_none_iff_exists', get?]

theorem size_eq_ncard (registry : Registry σ) :
    registry.size = {name | name ∈ registry.names}.ncard := by
  have hnodup : registry.names.Nodup := registry.ascending.distinct
  rw [← List.coe_toFinset, Set.ncard_coe_finset, List.toFinset_card_of_nodup hnodup, names,
    Keyed.keys, List.length_map, size]

theorem isEmpty_iff {registry : Registry σ} :
    registry.isEmpty = true ↔ ∀ name, name ∉ registry.names := by
  rw [isEmpty, List.isEmpty_iff, ← List.eq_nil_iff_forall_not_mem, names, Keyed.keys,
    List.map_eq_nil_iff]

theorem live_iff {calls : List (Call σ)} {name : String} :
    Live calls name ↔ ∃ operator, (empty.run calls).2.get? name = some operator :=
  exists_congr fun operator => (get?_run calls name operator).symm

theorem mem_names_run {calls : List (Call σ)} {name : String} :
    name ∈ (empty.run calls).2.names ↔ Live calls name :=
  mem_names_iff.trans live_iff.symm

/-- Whatever the calls, names stand for their latest registrations. -/
theorem run_faithful (calls : List (Call σ)) : Faithful calls (empty.run calls) where
  get? := get?_run calls
  get?_none name := by rw [live_iff, ← Option.ne_none_iff_exists', not_ne_iff]
  contains name := by rw [live_iff, Registry.contains, Option.isSome_iff_exists]
  nodup := (empty.run calls).2.ascending.distinct
  names name := mem_names_run
  size := by
    have hlive : {name | name ∈ (empty.run calls).2.names} = {name | Live calls name} :=
      Set.ext fun name => mem_names_run
    rw [size_eq_ncard, hlive]
  isEmpty := isEmpty_iff.trans (forall_congr' fun name => not_congr mem_names_run)
  replies := by
    rintro earlier call later rfl
    exact getElem?_run empty
  describe := by
    rw [describe_eq]
    exact ⟨_, (empty.run calls).2.ascending, fun name => mem_names_run, rfl⟩

example :
    ((empty : Registry Unit).run
      [.registerDefinition ⟨"say", ["tell", "say", "log"], .builtin .log⟩,
        .register "tell" (.builtin .missing), .remove "log"]).2.describe =
      "OperatorRegistry \x7b operators: [\"say\", \"tell\"] \x7d" := by
  rw [describe_eq]
  decide +kernel

end Registry

end JsonRules
