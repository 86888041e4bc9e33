import JsonRules.Operator.Builtin
import JsonRules.Proofs.Runs

/-!
Standard operators step by step.

A script is the tree of all that a standard operator may do: go to its operands from left to right,
evaluate the one at hand or pass over it, look a path up, write to the log, and end.  It knows
neither the operands nor the data, so what holds of every script holds of every operator at once.
`Builtin.run_eq_script` says that running an operator is following its script.
-/

namespace JsonRules

variable {σ : Type}

/-- What a standard operator does from some point on. -/
inductive Script
  | finish (answer : Except RuleError Value)
  | stuck
  /-- Evaluates the operand at hand and goes on to the one after it. -/
  | operand (next : Value → Script)
  /-- Passes over the operand at hand. -/
  | skip (next : Script)
  | lookup (path : String) (next : Option Value → Script)
  | log (value : Value) (next : Script)

namespace Script

/-- Follows a script on some data and the operands that are left. -/
def run (data : Value) : Script → List (Run σ Value) → Run σ Value
  | .finish answer, _ => Run.orRaise answer
  | .stuck, _ => Run.stuck
  | .operand _, [] => Run.stuck
  | .operand next, first :: rest => first.andThen fun value => (next value).run data rest
  | .skip next, operands => next.run data operands.tail
  | .lookup path next, operands =>
      (Control.lookUp data path).andThen fun found => (next found).run data operands
  | .log value next, operands =>
      (Builtin.logValue value).andThen fun _ => next.run data operands

/-- The end that a result of a function is. -/
def ofResult (result : Result Value) : Script :=
  match result.run with
  | none => .stuck
  | some answer => .finish answer

/-- Evaluates the operand at hand and ends with its value. -/
def ending : Script := .operand fun value => .finish (.ok value)

/-- Evaluates as many operands and goes on with their values. -/
def gather : Nat → (List Value → Script) → Script
  | 0, next => next []
  | count + 1, next => .operand fun value => gather count fun values => next (value :: values)

/-- Evaluates operands up to the first whose value passes a test. -/
def firstWhere (passes : Value → Bool) : Nat → Script
  | 0 => .finish (.ok .null)
  | 1 => ending
  | count + 2 => .operand fun value =>
      if passes value then .finish (.ok value) else firstWhere passes (count + 1)

/-- Evaluates conditions up to the first that counts as true, and then its branch. -/
def choose : Nat → Script
  | 0 => .finish (.ok .null)
  | 1 => ending
  | count + 2 => .operand fun value => if value.isTruthy then ending else .skip (choose count)

/-- Looks up the path that a key gives. -/
def resolve (key : Value) (otherwise : Script) : Script :=
  match Lookup.pathText Control.reference.name key with
  | .error e => .finish (.error e)
  | .ok path => .lookup path fun
    | some value => .finish (.ok value)
    | none => otherwise

/-- Evaluates a key and, if the data has nothing there, a default. -/
def followReference : Nat → Script
  | 0 => resolve .null (.finish (.ok .null))
  | 1 => .operand fun key => resolve key (.finish (.ok .null))
  | _ + 2 => .operand fun key => resolve key ending

/-- Whether what was found at a key counts as nothing. -/
def isNothing : Option Value → Bool
  | none => true
  | some .null => true
  | some (.string s) => s.isEmpty
  | some _ => false

/-- Looks up keys and goes on with those at which there is nothing. -/
def askAll : List Value → (List Value → Script) → Script
  | [], next => next []
  | key :: rest, next => .lookup key.toText fun found =>
      askAll rest fun missing => next (if isNothing found then key :: missing else missing)

end Script

/-- The script of a form of control for a number of operands. -/
def Control.script (count : Nat) : Control → Script
  | .reference => .followReference count
  | .conjunction => .firstWhere (fun value => !value.isTruthy) count
  | .disjunction => .firstWhere Value.isTruthy count
  | .choice => .choose count

/-- The missing keys unless enough of all keys are there. -/
def Lookup.unlessEnough (wanted : Binary64) (keys missing : List Value) : Result Value := do
  let present ← Result.ofOption (presentCount keys missing)
  return .array (if wanted.atMost (.ofNat present) then [] else missing)

namespace Builtin

/-- What an eager operator does with the values of its operands. -/
def conclusion (values : List Value) : Builtin → Script
  | .function f => .ofResult (f.apply values)
  | .missing => .askAll (Lookup.keysOf values) fun missing => .finish (.ok (.array missing))
  | .missingSome =>
      match (Lookup.quota Builtin.missingSome.name values).run with
      | none => .stuck
      | some (.error e) => .finish (.error e)
      | some (.ok (wanted, keys)) => .askAll keys fun missing =>
          .ofResult (Lookup.unlessEnough wanted keys missing)
  | .log =>
      match values with
      | value :: _ => .log value (.finish (.ok value))
      | [] => .stuck
  | .control _ => .stuck

/-- The script of a standard operator for a number of operands. -/
def script (count : Nat) : Builtin → Script
  | .control c => c.script count
  | b => .gather count fun values => b.conclusion values

end Builtin

/-- An eager operator gathers its operands before it does anything else. -/
theorem Builtin.script_of_eager {b : Builtin} (heager : b.signature.mode = .eager) (count : Nat) :
    b.script count = .gather count fun values => b.conclusion values := by
  cases b with
  | control c => cases heager
  | _ => rfl

namespace Script

theorem run_ofResult (result : Result Value) (data : Value) (operands : List (Run σ Value)) :
    (ofResult result).run data operands = Builtin.ofResult result := by
  unfold ofResult Builtin.ofResult
  cases result.run <;> rfl

theorem run_ending (data : Value) (operand : Run σ Value) (rest : List (Run σ Value)) :
    ending.run data (operand :: rest) = operand := Run.andThen_ok operand

/-- Gathering is evaluating all operands. -/
theorem run_gather (data : Value) (operands : List (Run σ Value)) (next : List Value → Script) :
    (gather operands.length next).run data operands =
      (Run.all operands).andThen fun values => (next values).run data [] := by
  induction operands generalizing next with
  | nil => exact (Run.ok_andThen [] _).symm
  | cons operand rest ih =>
      simp only [List.length_cons, gather, run, Run.all, Run.bind_eq, Run.andThen_assoc]
      refine Run.andThen_congr_right _ fun value => ?_
      rw [ih]
      refine Run.andThen_congr_right _ fun values => ?_
      rw [Run.pure_eq, Run.ok_andThen]

theorem run_firstWhere (data : Value) (passes : Value → Bool) (operands : List (Run σ Value)) :
    (firstWhere passes operands.length).run data operands =
      Control.firstWhere passes operands := by
  induction operands with
  | nil => rfl
  | cons operand rest ih =>
      cases rest with
      | nil => exact run_ending data operand []
      | cons other rest =>
          simp only [List.length_cons, firstWhere, run, Control.firstWhere, Run.bind_eq]
          refine Run.andThen_congr_right _ fun value => ?_
          split
          · rfl
          · exact ih

theorem run_choose (data : Value) : ∀ operands : List (Run σ Value),
    (choose operands.length).run data operands = Control.choose operands
  | [] => rfl
  | [otherwise] => run_ending data otherwise []
  | condition :: branch :: rest => by
      simp only [List.length_cons, choose, run, Control.choose, Run.bind_eq]
      refine Run.andThen_congr_right _ fun value => ?_
      split
      · exact run_ending data branch rest
      · exact run_choose data rest

/-- Resolving a key is looking up its path, and the rest of the script comes in only if there is
nothing at it. -/
theorem run_resolve (data key : Value) (otherwise : Script) (operands : List (Run σ Value)) :
    (resolve key otherwise).run data operands =
      (Run.orRaise (Lookup.pathText Control.reference.name key)).andThen fun path =>
        (Control.lookUp data path).andThen fun
          | some value => Run.ok value
          | none => otherwise.run data operands := by
  unfold resolve
  cases Lookup.pathText Control.reference.name key with
  | error e => rfl
  | ok path =>
      simp only [run, Run.orRaise, Run.ok_andThen]
      refine Run.andThen_congr_right _ fun found => ?_
      cases found <;> rfl

theorem run_followReference (data : Value) (operands : List (Run σ Value)) :
    (followReference operands.length).run data operands =
      Control.followReference data operands := by
  match operands with
  | [] =>
      simp only [List.length_nil, followReference, run_resolve, Control.followReference,
        List.head?_nil, Option.getD_none, Run.bind_eq, Run.ok_andThen]
      rfl
  | [key] =>
      simp only [List.length_cons, List.length_nil, followReference, run, run_resolve]
      rfl
  | key :: otherwise :: rest =>
      simp only [List.length_cons, followReference, run, run_resolve, run_ending]
      rfl

theorem markLookups_cons (key : Value) (rest : List Value) :
    (Builtin.markLookups (key :: rest) : Run σ Unit) =
      (Run.leaveMarks [.lookup key.toText]).andThen fun _ => Builtin.markLookups rest := rfl

theorem missingKeys_cons (data key : Value) (rest : List Value) :
    Lookup.missingKeys data (key :: rest) =
      if isNothing (Path.get? data key.toText) then key :: Lookup.missingKeys data rest
      else Lookup.missingKeys data rest := by
  have hmissing : Lookup.isMissing data key = isNothing (Path.get? data key.toText) := by
    unfold Lookup.isMissing isNothing
    rfl
  simp only [Lookup.missingKeys, List.filter_cons, hmissing]

/-- Asking for all keys is marking that they are looked up. -/
theorem run_askAll (data : Value) (keys : List Value) (next : List Value → Script)
    (operands : List (Run σ Value)) :
    (askAll keys next).run data operands =
      (Builtin.markLookups keys).andThen fun _ =>
        (next (Lookup.missingKeys data keys)).run data operands := by
  induction keys generalizing next with
  | nil =>
      change _ = (Run.ok ()).andThen _
      rw [Run.ok_andThen]
      rfl
  | cons key rest ih =>
      simp only [askAll, run, ih]
      rw [markLookups_cons, Run.andThen_assoc, Control.lookUp, Run.bind_eq, Run.andThen_assoc]
      refine Run.andThen_congr_right _ fun _ => ?_
      rw [Run.pure_eq, Run.ok_andThen]
      refine Run.andThen_congr_right _ fun _ => ?_
      rw [missingKeys_cons]

end Script

/-- A lookup leaves its mark and gives what the data has at the path. -/
theorem Control.lookUp_apply (data : Value) (path : String) (depth : Nat) (state : σ) :
    Control.lookUp data path depth state =
      some ⟨.ok (Path.get? data path), depth, state, [.here (.lookup path)]⟩ := rfl

/-- Logging writes a line at the depth of the operation at hand. -/
theorem Builtin.logValue_apply (value : Value) (depth : Nat) (state : σ) :
    Builtin.logValue value depth state =
      some ⟨.ok value, depth, state, [.here (.event (.log depth value.display))]⟩ := rfl

theorem Builtin.logValue_andThen_const (value : Value) :
    (Builtin.logValue value : Run σ Value).andThen (fun _ => Run.ok value) =
      Builtin.logValue value := by
  funext depth state
  rw [Run.andThen_of_ok (Builtin.logValue_apply value depth state), Builtin.logValue_apply]
  rfl

theorem Builtin.run_control (c : Control) (data : Value) (operands : List (Run σ Value)) :
    c.run data operands = (c.script operands.length).run data operands := by
  cases c with
  | reference => exact (Script.run_followReference data operands).symm
  | conjunction => exact (Script.run_firstWhere data _ operands).symm
  | disjunction => exact (Script.run_firstWhere data _ operands).symm
  | choice => exact (Script.run_choose data operands).symm

/-- Running a standard operator is following its script. -/
theorem Builtin.run_eq_script (b : Builtin) (data : Value) (operands : List (Run σ Value)) :
    b.run data operands = (b.script operands.length).run data operands := by
  cases b with
  | control c => exact Builtin.run_control c data operands
  | function f =>
      simp only [Builtin.run, Builtin.script, Script.run_gather, Builtin.conclusion,
        Script.run_ofResult]
      rfl
  | missing =>
      simp only [Builtin.run, Builtin.script, Script.run_gather, Builtin.conclusion,
        Script.run_askAll]
      rfl
  | missingSome =>
      simp only [Builtin.run, Builtin.script, Script.run_gather, Builtin.conclusion, Run.bind_eq]
      refine Run.andThen_congr_right _ fun values => ?_
      unfold Builtin.ofResult
      rcases (Lookup.quota Builtin.missingSome.name values).run with _ | (e | ⟨wanted, keys⟩)
      · rfl
      · rfl
      · simp only [Run.orRaise, Run.ok_andThen, Script.run_askAll, Script.run_ofResult]
        rfl
  | log =>
      simp only [Builtin.run, Builtin.script, Script.run_gather, Builtin.conclusion, Run.bind_eq]
      refine Run.andThen_congr_right _ fun values => ?_
      cases values with
      | nil => rfl
      | cons value rest =>
          change Builtin.logValue value =
            (Builtin.logValue value).andThen fun _ => Run.ok value
          rw [Builtin.logValue_andThen_const]

end JsonRules
