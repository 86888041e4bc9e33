import JsonRules.Operator.Sample
import JsonRules.Proofs.Script
import JsonRules.Proofs.Surroundings

/-!
Operands that are not evaluated.

A form of control evaluates some of its operands and leaves the others alone.  `Control.evaluated`
says which ones it evaluates: a conjunction all up to the first that counts as false, a disjunction
all up to the first that counts as true, a choice the conditions up to the first that counts as true
and its branch, and a reference the key, with the default only if the data has nothing there.  On
the others nothing depends: neither what the operation comes to (`Control.run_congr`) nor the
verdict on any rule in which it stands.
-/

namespace JsonRules

variable {σ α β : Type}

/-- The positions that come of the value of a run, and of the depth and the state it leaves.  None
come of an error. -/
def Run.onValue (run : Run σ α) (depth : Nat) (state : σ)
    (positions : α → Nat → σ → List Nat) : List Nat :=
  match run depth state with
  | some ⟨.ok a, depth, state, _⟩ => positions a depth state
  | _ => []

theorem Run.onValue_of_ok {run : Run σ α} {depth : Nat} {state : σ} {a : α} {depth' : Nat}
    {state' : σ} {marks : List Mark} (h : run depth state = some ⟨.ok a, depth', state', marks⟩)
    (positions : α → Nat → σ → List Nat) :
    run.onValue depth state positions = positions a depth' state' := by
  simp [onValue, h]

theorem Run.exists_of_mem_onValue {run : Run σ α} {depth : Nat} {state : σ}
    {positions : α → Nat → σ → List Nat} {position : Nat}
    (h : position ∈ run.onValue depth state positions) :
    ∃ a depth' state' marks, run depth state = some ⟨.ok a, depth', state', marks⟩ ∧
      position ∈ positions a depth' state' := by
  unfold onValue at h
  split at h
  · exact ⟨_, _, _, _, ‹_›, h⟩
  · cases h

namespace Control

/-- The positions of the operands up to the first whose value passes a test. -/
def evaluatedUntil (passes : Value → Bool) : List (Run σ Value) → Nat → σ → List Nat
  | [], _, _ => []
  | operand :: rest, depth, state =>
    0 :: operand.onValue depth state fun value depth state =>
      if passes value then [] else (evaluatedUntil passes rest depth state).map (· + 1)

/-- The positions of the conditions up to the first that counts as true, and that of its branch. -/
def evaluatedChoices : List (Run σ Value) → Nat → σ → List Nat
  | [], _, _ => []
  | [_], _, _ => [0]
  | condition :: _ :: rest, depth, state =>
    0 :: condition.onValue depth state fun value depth state =>
      if value.isTruthy then [1] else (evaluatedChoices rest depth state).map (· + 2)

/-- The position of the key, and that of the default if the data has nothing at the path. -/
def evaluatedReference (data : Value) : List (Run σ Value) → Nat → σ → List Nat
  | [], _, _ => []
  | [_], _, _ => [0]
  | key :: _ :: _, depth, state =>
    0 :: key.onValue depth state fun value _ _ =>
      match Lookup.pathText Control.reference.name value with
      | .error _ => []
      | .ok path => if (Path.get? data path).isSome then [] else [1]

/-- The positions of the operands that a form of control evaluates, in their order.  None is
evaluated after an error. -/
def evaluated (data : Value) (operands : List (Run σ Value)) (depth : Nat) (state : σ) :
    Control → List Nat
  | .reference => evaluatedReference data operands depth state
  | .conjunction => evaluatedUntil (fun value => !value.isTruthy) operands depth state
  | .disjunction => evaluatedUntil Value.isTruthy operands depth state
  | .choice => evaluatedChoices operands depth state

theorem firstWhere_cons (passes : Value → Bool) (operand : Run σ Value) {rest : List (Run σ Value)}
    (hrest : rest ≠ []) : firstWhere passes (operand :: rest) =
      operand.andThen fun value =>
        if passes value then Run.ok value else firstWhere passes rest := by
  cases rest with
  | nil => exact absurd rfl hrest
  | cons second rest => rfl

theorem firstWhere_congr (passes : Value → Bool) {operands others : List (Run σ Value)}
    (hlength : others.length = operands.length) {depth : Nat} {state : σ}
    (h : ∀ position ∈ evaluatedUntil passes operands depth state,
      others[position]? = operands[position]?) :
    firstWhere passes others depth state = firstWhere passes operands depth state := by
  induction operands generalizing others depth state with
  | nil =>
      rw [List.length_eq_zero_iff.1 hlength]
  | cons operand rest ih =>
      obtain ⟨other, more, rfl⟩ := List.exists_cons_of_length_eq_add_one hlength
      obtain ⟨hfirst, hmore⟩ := List.forall_mem_cons.1 h
      obtain rfl : other = operand := Option.some.inj hfirst
      rw [List.length_cons, List.length_cons, Nat.add_right_cancel_iff] at hlength
      by_cases hrest : rest = []
      · subst hrest
        rw [List.length_eq_zero_iff.1 hlength]
      · have hmoreNil : more ≠ [] := by
          intro hnil
          subst hnil
          exact hrest (List.length_eq_zero_iff.1 hlength.symm)
        rw [firstWhere_cons passes other hrest, firstWhere_cons passes other hmoreNil]
        refine Run.andThen_congr_of_ok fun value depth' state' marks hvalue => ?_
        rw [Run.onValue_of_ok hvalue] at hmore
        by_cases hpasses : passes value
        · rw [if_pos hpasses, if_pos hpasses]
        · rw [if_neg hpasses] at hmore ⊢
          rw [if_neg hpasses]
          exact ih hlength (by simpa using hmore)

theorem choose_congr : ∀ {operands others : List (Run σ Value)},
    others.length = operands.length → ∀ {depth : Nat} {state : σ},
      (∀ position ∈ evaluatedChoices operands depth state,
        others[position]? = operands[position]?) →
          choose others depth state = choose operands depth state
  | [], [], _, _, _, _ => rfl
  | [otherwise], [other], _, _, _, h => by
      obtain rfl : other = otherwise := Option.some.inj (h 0 List.mem_cons_self)
      rfl
  | condition :: branch :: rest, other :: another :: more, hlength, depth, state, h => by
      obtain ⟨hfirst, hmore⟩ := List.forall_mem_cons.1 h
      obtain rfl : other = condition := Option.some.inj hfirst
      refine Run.andThen_congr_of_ok fun value depth' state' marks hvalue => ?_
      rw [Run.onValue_of_ok hvalue] at hmore
      by_cases htrue : value.isTruthy
      · rw [if_pos htrue] at hmore ⊢
        rw [if_pos htrue]
        obtain rfl : another = branch := Option.some.inj (hmore 1 List.mem_cons_self)
        rfl
      · rw [if_neg htrue] at hmore ⊢
        rw [if_neg htrue]
        exact choose_congr (by simpa using hlength) (by simpa using hmore)

theorem followReference_cons (data : Value) (key otherwise : Run σ Value)
    (rest : List (Run σ Value)) :
    followReference data (key :: otherwise :: rest) = key.andThen fun value =>
      (Run.orRaise (Lookup.pathText Control.reference.name value)).andThen fun path =>
        (lookUp data path).andThen fun
          | some found => Run.ok found
          | none => otherwise := rfl

theorem followReference_congr (data : Value) {operands others : List (Run σ Value)}
    (hlength : others.length = operands.length) {depth : Nat} {state : σ}
    (h : ∀ position ∈ evaluatedReference data operands depth state,
      others[position]? = operands[position]?) :
    followReference data others depth state = followReference data operands depth state := by
  match operands, others, hlength with
  | [], [], _ => rfl
  | [key], [other], _ =>
      obtain rfl : other = key := Option.some.inj (h 0 List.mem_cons_self)
      rfl
  | key :: otherwise :: rest, other :: another :: more, _ =>
      obtain ⟨hfirst, hmore⟩ := List.forall_mem_cons.1 h
      obtain rfl : other = key := Option.some.inj hfirst
      rw [followReference_cons, followReference_cons]
      refine Run.andThen_congr_of_ok fun value depth' state' marks hvalue => ?_
      rw [Run.onValue_of_ok hvalue] at hmore
      cases hpath : Lookup.pathText Control.reference.name value with
      | error e => rfl
      | ok path =>
          simp only [Run.orRaise, Run.ok_andThen]
          rw [Run.andThen_of_ok (lookUp_apply data path depth' state'),
            Run.andThen_of_ok (lookUp_apply data path depth' state')]
          cases hfound : Path.get? data path with
          | some found => rfl
          | none =>
              simp only [hpath, hfound] at hmore
              obtain rfl : another = otherwise := Option.some.inj (hmore 1 List.mem_cons_self)
              rfl

/-- What a form of control comes to depends on the operands that it evaluates and on no others. -/
theorem run_congr (c : Control) (data : Value) {operands others : List (Run σ Value)}
    (hlength : others.length = operands.length) {depth : Nat} {state : σ}
    (h : ∀ position ∈ c.evaluated data operands depth state,
      others[position]? = operands[position]?) :
    c.run data others depth state = c.run data operands depth state := by
  cases c with
  | reference => exact followReference_congr data hlength h
  | conjunction => exact firstWhere_congr _ hlength h
  | disjunction => exact firstWhere_congr _ hlength h
  | choice => exact choose_congr hlength h

theorem firstWhere_set_stuck (passes : Value → Bool) {operands : List (Run σ Value)} {depth : Nat}
    {state : σ} {position : Nat} (h : position ∈ evaluatedUntil passes operands depth state) :
    firstWhere passes (operands.set position Run.stuck) depth state = none := by
  induction operands generalizing depth state position with
  | nil => cases h
  | cons operand rest ih =>
      rcases List.mem_cons.1 h with rfl | hmore
      · cases rest <;> rfl
      · obtain ⟨value, depth', state', marks, hvalue, hmem⟩ := Run.exists_of_mem_onValue hmore
        by_cases hpasses : passes value
        · rw [if_pos hpasses] at hmem
          cases hmem
        · rw [if_neg hpasses] at hmem
          obtain ⟨index, hindex, rfl⟩ := List.mem_map.1 hmem
          have hrest : rest.set index Run.stuck ≠ [] := by
            intro hnil
            rw [List.set_eq_nil_iff] at hnil
            subst hnil
            cases hindex
          rw [List.set_cons_succ, firstWhere_cons passes operand hrest, Run.andThen_of_ok hvalue,
            if_neg hpasses, ih hindex]
          rfl

theorem choose_set_stuck : ∀ {operands : List (Run σ Value)} {depth : Nat} {state : σ}
    {position : Nat}, position ∈ evaluatedChoices operands depth state →
      choose (operands.set position Run.stuck) depth state = none
  | [], _, _, _, h => by cases h
  | [otherwise], _, _, _, h => by
      rw [List.mem_singleton.1 h]
      rfl
  | condition :: branch :: rest, depth, state, position, h => by
      rcases List.mem_cons.1 h with rfl | hmore
      · rfl
      · obtain ⟨value, depth', state', marks, hvalue, hmem⟩ := Run.exists_of_mem_onValue hmore
        by_cases htrue : value.isTruthy
        · rw [if_pos htrue] at hmem
          rw [List.mem_singleton.1 hmem]
          refine (Run.andThen_of_ok hvalue _).trans ?_
          rw [if_pos htrue]
          rfl
        · rw [if_neg htrue] at hmem
          obtain ⟨index, hindex, rfl⟩ := List.mem_map.1 hmem
          refine (Run.andThen_of_ok hvalue _).trans ?_
          rw [if_neg htrue]
          rw [choose_set_stuck hindex]
          rfl

theorem followReference_set_stuck (data : Value) {operands : List (Run σ Value)} {depth : Nat}
    {state : σ} {position : Nat} (h : position ∈ evaluatedReference data operands depth state) :
    followReference data (operands.set position Run.stuck) depth state = none := by
  match operands with
  | [] => cases h
  | [key] =>
      rw [List.mem_singleton.1 h]
      rfl
  | key :: otherwise :: rest =>
      rcases List.mem_cons.1 h with rfl | hmore
      · rfl
      · obtain ⟨value, depth', state', marks, hvalue, hmem⟩ := Run.exists_of_mem_onValue hmore
        cases hpath : Lookup.pathText Control.reference.name value with
        | error e =>
            simp only [hpath] at hmem
            cases hmem
        | ok path =>
            cases hfound : Path.get? data path with
            | some found => simp [hpath, hfound] at hmem
            | none =>
                simp only [hpath, hfound] at hmem
                rw [List.mem_singleton.1 hmem, List.set_cons_succ, List.set_cons_zero,
                  followReference_cons, Run.andThen_of_ok hvalue, hpath, Run.orRaise,
                  Run.ok_andThen, Run.andThen_of_ok (lookUp_apply data path depth' state'), hfound]
                rfl

/-- An operand is evaluated if and only if the form of control cannot do without it: it comes to no
answer with an operand in this place that comes to none. -/
theorem mem_evaluated_iff (c : Control) {data : Value} {operands : List (Run σ Value)} {depth : Nat}
    {state : σ} {report : Report σ Value} (h : c.run data operands depth state = some report)
    (position : Nat) :
    position ∈ c.evaluated data operands depth state ↔
      c.run data (operands.set position Run.stuck) depth state = none := by
  constructor
  · intro hmem
    cases c with
    | reference => exact followReference_set_stuck data hmem
    | conjunction => exact firstWhere_set_stuck _ hmem
    | disjunction => exact firstWhere_set_stuck _ hmem
    | choice => exact choose_set_stuck hmem
  · intro hstuck
    by_contra hmem
    have hsame : ∀ index ∈ c.evaluated data operands depth state,
        (operands.set position Run.stuck)[index]? = operands[index]? := by
      intro index hindex
      apply List.getElem?_set_ne
      intro heq
      exact hmem (heq ▸ hindex)
    rw [run_congr c data List.length_set hsame, h] at hstuck
    cases hstuck

/-- The positions of the operands that an operation evaluates under a form of control, at a depth
and in a state: none if the operation is refused. -/
def evaluatedOperands (reentry : Reentry σ) (context : Context σ) (name : String)
    (operands : List Rule) (depth : Nat) (state : σ) (c : Control) : List Nat :=
  match context.operators.admission context.options depth name operands.length with
  | .error _ => []
  | .ok _ =>
    c.evaluated context.data (Rule.operandRuns reentry context 0 operands) (depth + 1) state

end Control

/-- Operations of a form of control come to the same if they have the same operands wherever one of
them is evaluated. -/
theorem Rule.run_congr_of_evaluated {reentry : Reentry σ} {context : Context σ} {name : String}
    {c : Control} (hget : context.operators.get? name = some (.builtin (.control c)))
    {rule other : Rule} {operands others : List Rule}
    (hrule : rule.operation? = some (name, operands))
    (hother : other.operation? = some (name, others)) (hlength : others.length = operands.length)
    {depth : Nat} {state : σ}
    (h : ∀ position ∈ c.evaluatedOperands reentry context name operands depth state,
      others[position]? = operands[position]?) :
    other.run reentry context depth state = rule.run reentry context depth state := by
  rw [run_of_operation? hrule, run_of_operation? hother, dispatch_apply, dispatch_apply,
    length_operands, length_operands, hlength]
  cases hadmission : context.operators.admission context.options depth name operands.length with
  | error e => rfl
  | ok operator =>
      obtain ⟨hfound, -⟩ := Registry.admission_eq_ok_iff.1 hadmission
      rw [hget, Option.some.injEq] at hfound
      subst hfound
      simp only [Control.evaluatedOperands, hadmission] at h
      have hruns : c.run context.data (operandRuns reentry context 0 others) (depth + 1) state =
          c.run context.data (operandRuns reentry context 0 operands) (depth + 1) state := by
        apply Control.run_congr c
        · simpa using hlength
        · intro position hposition
          rw [getElem?_operandRuns, getElem?_operandRuns, h position hposition]
      exact congrArg (Option.map (Report.entered name operands.length (depth + 1))) hruns

/-- Operands that a form of control does not evaluate may be replaced by any others.  Those that it
evaluates are given by `Control.evaluated`, and it can do without none of them.  If another
operation of the same name has the same operands there and as many in all, then it comes to the same
report, events included; and the check cannot tell the two operations apart, in whatever rules they
stand. -/
theorem Control.evaluate_eq_of_evaluated (c : Control) {context : Context σ} {name : String}
    (hget : context.operators.get? name = some (.builtin (.control c))) {node other : Value}
    {operands others : List Rule} (hnode : (Rule.ofValue node).operation? = some (name, operands))
    (hother : (Rule.ofValue other).operation? = some (name, others))
    (hlength : others.length = operands.length) :
    (∀ budget depth state,
      (∀ position ∈ c.evaluatedOperands (.ofBudget budget) context name operands depth state,
        others[position]? = operands[position]?) →
      evaluate budget context other depth state = evaluate budget context node depth state) ∧
    (∀ data (runs : List (Run σ Value)) depth state report,
      c.run data runs depth state = some report → ∀ position,
        position ∈ c.evaluated data runs depth state ↔
          c.run data (runs.set position Run.stuck) depth state = none) ∧
    ∀ options layers,
      Engine.verdict ⟨context.operators, options⟩ (other.surrounded layers) =
        Engine.verdict ⟨context.operators, options⟩ (node.surrounded layers) := by
  refine ⟨fun budget depth state h => ?_, fun data runs depth state report h => ?_,
    fun options layers => ?_⟩
  · exact Rule.run_congr_of_evaluated hget hnode hother hlength h
  · exact mem_evaluated_iff c h
  · obtain ⟨fields, rfl⟩ := Rule.exists_eq_object hnode
    obtain ⟨others, rfl⟩ := Rule.exists_eq_object hother
    exact Engine.verdict_surrounded _
      (Rule.CheckedLike.of_raw hget rfl hother hnode hlength.symm) layers

/-- A choice and an operator that counts its runs. -/
def countingContext : Context Nat :=
  ⟨.null, (Registry.empty.insert "if" (.builtin (.control .choice))).insert "tick"
    (.host (Sample.tick.operator ⟨.any, .eager⟩)), ⟨some 3⟩⟩

/-- Counts once, since the first condition counts as true. -/
def countedChoice (otherwise : Value) : Value :=
  .operation "if" [.operation "tick" [], .string "first", otherwise]

/-- Another count that does not take place may be replaced by an operation that nothing knows. -/
theorem evaluate_countedChoice :
    ∃ report, evaluate 1 countingContext (countedChoice (.operation "tick" [])) 0 7 = some report ∧
      report.answer = .ok (.string "first") ∧ report.state = 8 ∧
      evaluate 1 countingContext (countedChoice (.operation "frobnicate" [])) 0 7 = some report ∧
      Engine.verdict ⟨countingContext.operators, ⟨some 1⟩⟩
          ((countedChoice (.operation "frobnicate" [])).surrounded [.alone "tick"]) =
        Engine.verdict ⟨countingContext.operators, ⟨some 1⟩⟩
          ((countedChoice (.operation "tick" [])).surrounded [.alone "tick"]) := by
  have hchoice : countingContext.operators.get? "if" = some (.builtin (.control .choice)) := rfl
  obtain ⟨hsame, -, hverdict⟩ := Control.evaluate_eq_of_evaluated .choice hchoice
    (Rule.operation?_ofValue_listed "if" [.operation "tick" [], .string "first",
      .operation "tick" []])
    (Rule.operation?_ofValue_listed "if" [.operation "tick" [], .string "first",
      .operation "frobnicate" []]) rfl
  have hrun : ∃ report,
      evaluate 1 countingContext (countedChoice (.operation "tick" [])) 0 7 = some report ∧
        report.answer = .ok (.string "first") ∧ report.state = 8 := ⟨_, rfl, rfl, rfl⟩
  obtain ⟨report, hreport, hanswer, hstate⟩ := hrun
  have hevaluated : Control.choice.evaluatedOperands (.ofBudget 1) countingContext "if"
      ([.operation "tick" [], .string "first", .operation "tick" []].map Rule.ofValue) 0 7 =
        [0, 1] := rfl
  refine ⟨report, hreport, hanswer, hstate, ?_, hverdict _ _⟩
  refine (hsame 1 0 7 fun position hposition => ?_).trans hreport
  rw [hevaluated] at hposition
  rcases List.mem_cons.1 hposition with rfl | hposition
  · rfl
  · rw [List.mem_singleton.1 hposition]
    rfl

end JsonRules
