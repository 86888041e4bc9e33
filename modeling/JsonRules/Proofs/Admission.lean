import JsonRules.Evaluation
import JsonRules.Proofs.Runs
import JsonRules.Validation

/-!
Admission of operations.

An operation is admitted if its name has an operator, the operator accepts the number of operands
and a level is free.  `Registry.admission` says so in one place: `dispatch_apply` reads off it what
running an operation does, and `checkNode_eq_ok_iff` that checking an operation comes to the same,
although it asks in another order.
-/

namespace JsonRules

variable {σ : Type}

/-- The operator of an operation that stands below `depth` others, or the error for which the
operation is refused. -/
def Registry.admission (operators : Registry σ) (options : Options) (depth : Nat) (name : String)
    (count : Nat) : Except RuleError (Operator σ) :=
  match operators.get? name with
  | none => .error (.unknownOperator name)
  | some operator =>
      match operator.signature.arity.check name count with
      | .error e => .error e
      | .ok () =>
          match options.maxDepth with
          | none => .ok operator
          | some max => if max ≤ depth then .error (.depthExceeded max) else .ok operator

/-- The lines of the log for an error that keeps an operation from being entered. -/
def RuleError.events : RuleError → List Event
  | .unknownOperator name => [.unknownOperator name]
  | .depthExceeded limit => [.depthLimit limit]
  | _ => []

/-- The errors for which an operation is refused, whatever its operator. -/
def RuleError.OfDispatch : RuleError → Prop
  | .unknownOperator _ => True
  | .operandCount _ _ => True
  | .depthExceeded _ => True
  | _ => False

/-- The marks of an operation that is refused. -/
def RuleError.refusal (e : RuleError) : List Mark :=
  e.events.map (fun event => .here (.event event)) ++ [.here (.raised e)]

/-- What an operation comes to when it is entered at a nesting depth: the report of its operator
between the marks of going in and out. -/
def Report.entered {α : Type} (name : String) (count depth : Nat) (report : Report σ α) :
    Report σ α where
  answer := report.answer
  depth := report.depth - 1
  state := report.state
  marks := .here (.depth depth) :: .here (.event (.dispatch name count depth)) ::
    (report.marks ++ [.here (.depth (report.depth - 1))])

theorem Arity.check_eq_error {arity : Arity} {name : String} {count : Nat} {e : RuleError}
    (h : arity.check name count = .error e) :
    ∃ expected, arity.mismatch? count = some expected ∧ e = .operandCount name expected := by
  unfold Arity.check at h
  split at h
  · simp at h
  · rename_i expected hexpected
    exact ⟨expected, hexpected, by simpa using h.symm⟩

theorem Arity.check_eq_ok_iff {arity : Arity} (name : String) {count : Nat} :
    arity.check name count = .ok () ↔ arity.mismatch? count = none := by
  unfold Arity.check
  split <;> simp_all

/-- An operation is admitted if it has an operator that accepts its operands, and a level is
free. -/
theorem Registry.admission_eq_ok_iff {operators : Registry σ} {options : Options} {depth : Nat}
    {name : String} {count : Nat} {operator : Operator σ} :
    operators.admission options depth name count = .ok operator ↔
      operators.get? name = some operator ∧ operator.signature.arity.mismatch? count = none ∧
        ∀ max, options.maxDepth = some max → depth < max := by
  unfold Registry.admission
  cases operators.get? name with
  | none => simp
  | some found =>
      rw [← Arity.check_eq_ok_iff name]
      cases options.maxDepth with
      | none => cases hcheck : found.signature.arity.check name count <;> grind
      | some max =>
          by_cases hmax : max ≤ depth <;>
            cases hcheck : found.signature.arity.check name count <;> grind

/-- An operation is refused for one of three causes, and the first that applies is the error. -/
theorem Registry.admission_eq_error_iff {operators : Registry σ} {options : Options}
    {depth : Nat} {name : String} {count : Nat} {e : RuleError} :
    operators.admission options depth name count = .error e ↔
      (operators.get? name = none ∧ e = .unknownOperator name) ∨
      (∃ operator expected, operators.get? name = some operator ∧
        operator.signature.arity.mismatch? count = some expected ∧
        e = .operandCount name expected) ∨
      ∃ operator max, operators.get? name = some operator ∧
        operator.signature.arity.mismatch? count = none ∧ options.maxDepth = some max ∧
        max ≤ depth ∧ e = .depthExceeded max := by
  unfold Registry.admission
  cases operators.get? name with
  | none => simp [eq_comm]
  | some found =>
      simp only [Arity.check]
      cases hmismatch : found.signature.arity.mismatch? count with
      | some expected => simp [hmismatch, eq_comm]
      | none =>
          cases options.maxDepth with
          | none => simp [hmismatch]
          | some max => by_cases hmax : max ≤ depth <;> simp [hmismatch, hmax, eq_comm]

/-- Whether a level is free below `depth` operations. -/
def Options.level (options : Options) (depth : Nat) : Except RuleError Unit :=
  match options.maxDepth with
  | none => .ok ()
  | some max => if max ≤ depth then .error (.depthExceeded max) else .ok ()

theorem Options.level_eq_ok_iff {options : Options} {depth : Nat} :
    options.level depth = .ok () ↔ ∀ max, options.maxDepth = some max → depth < max := by
  unfold level
  cases options.maxDepth with
  | none => simp
  | some max =>
      by_cases hmax : max ≤ depth
      · simp [hmax]
      · simpa [hmax] using Nat.lt_of_not_le hmax

theorem Options.level_of_succ {options : Options} {depth : Nat}
    (h : options.level (depth + 1) = .ok ()) : options.level depth = .ok () := by
  rw [level_eq_ok_iff] at h ⊢
  intro max hmax
  exact Nat.lt_of_succ_lt (h max hmax)

/-- An operation with as many operands as its operator accepts is admitted if a level is free. -/
theorem Registry.admission_of_accepts {operators : Registry σ} {name : String} {count : Nat}
    {operator : Operator σ} (hget : operators.get? name = some operator)
    (haccepts : operator.signature.arity.mismatch? count = none) (options : Options) (depth : Nat) :
    operators.admission options depth name count = (options.level depth).map fun _ => operator := by
  have hcheck := (Arity.check_eq_ok_iff name).2 haccepts
  simp only [admission, hget, hcheck, Options.level]
  cases options.maxDepth with
  | none => rfl
  | some max => by_cases hmax : max ≤ depth <;> simp [hmax, Except.map]

/-- Without a limit, an operation is admitted if its operator accepts the operands. -/
theorem Registry.admission_of_unlimited_of_accepts {operators : Registry σ} {options : Options}
    (hunlimited : options.maxDepth = none) {name : String} {count : Nat} {operator : Operator σ}
    (hget : operators.get? name = some operator)
    (haccepts : operator.signature.arity.mismatch? count = none) (depth : Nat) :
    operators.admission options depth name count = .ok operator := by
  rw [admission_of_accepts hget haccepts, Options.level, hunlimited]
  rfl

theorem Registry.ofDispatch_of_admission {operators : Registry σ} {options : Options} {depth : Nat}
    {name : String} {count : Nat} {e : RuleError}
    (h : operators.admission options depth name count = .error e) : e.OfDispatch := by
  rcases admission_eq_error_iff.1 h with ⟨-, rfl⟩ | ⟨operator, expected, -, -, rfl⟩ |
    ⟨operator, max, -, -, -, -, rfl⟩
  · trivial
  · trivial
  · trivial

/-- Without a limit, the depth of an operation has no part in whether it is admitted. -/
theorem Registry.admission_of_unlimited (operators : Registry σ) {options : Options}
    (h : options.maxDepth = none) (depth depth' : Nat) (name : String) (count : Nat) :
    operators.admission options depth name count =
      operators.admission options depth' name count := by
  simp only [admission, h]

/-- Going one level deeper is refused if the limit is reached. -/
theorem Run.enter_some_apply (max depth : Nat) (state : σ) :
    Run.enter (some max) depth state =
      if max ≤ depth then
        some ⟨.error (.depthExceeded max), depth, state, (RuleError.depthExceeded max).refusal⟩
      else Run.setDepth (depth + 1) depth state := by
  by_cases hmax : max ≤ depth <;>
    simp [Run.enter, bind, Run.andThen, Run.depth, hmax, Run.emit, Run.leaveMarks, Run.raise,
      Run.setDepth, RuleError.refusal, RuleError.events]

/-- An operator runs between the marks of going in and out. -/
theorem setDepth_announced (reentry : Reentry σ) (context : Context σ) (name : String)
    (operands : List (Operand σ)) (operator : Operator σ) (depth : Nat) (state : σ) :
    (Run.setDepth (depth + 1)).andThen (fun _ =>
        (dispatch.announced reentry context name operands operator).andFinally Run.leave)
        depth state =
      (operator.run reentry context operands (depth + 1) state).map
        (Report.entered name operands.length (depth + 1)) := by
  simp only [Run.andThen, Run.setDepth, Run.andFinally, Run.attempt, dispatch.announced, bind,
    Run.depth, Run.emit, Run.leaveMarks, Run.leave, Run.ofAnswer]
  cases operator.run reentry context operands (depth + 1) state with
  | none => rfl
  | some report => simp [Report.entered]

/-- An operation is refused without a change of depth or state, or entered for as long as its
operator runs. -/
theorem dispatch_apply (reentry : Reentry σ) (context : Context σ) (name : String)
    (operands : List (Operand σ)) (depth : Nat) (state : σ) :
    dispatch reentry context name operands depth state =
      match context.operators.admission context.options depth name operands.length with
      | .error e => some ⟨.error e, depth, state, e.refusal⟩
      | .ok operator =>
          (operator.run reentry context operands (depth + 1) state).map
            (Report.entered name operands.length (depth + 1)) := by
  unfold dispatch Registry.admission
  cases hget : context.operators.get? name with
  | none => rfl
  | some operator =>
      cases hcheck : operator.signature.arity.check name operands.length with
      | error e =>
          obtain ⟨expected, -, rfl⟩ := Arity.check_eq_error hcheck
          simp only [hcheck]
          rfl
      | ok _ =>
          simp only [hcheck, Run.orRaise, Run.bind_eq, Run.ok_andThen]
          cases hlimit : context.options.maxDepth with
          | none =>
              exact (Run.andThen_congr rfl _).trans
                (setDepth_announced reentry context name operands operator depth state)
          | some max =>
              by_cases hmax : max ≤ depth
              · simp only [hmax, if_true]
                exact Run.andThen_of_error (by simp [Run.enter_some_apply, hmax]) _
              · simp only [hmax, if_false]
                exact (Run.andThen_congr (by simp [Run.enter_some_apply, hmax]) _).trans
                  (setDepth_announced reentry context name operands operator depth state)

/-- A standard operator with as many operands as it accepts runs if a level is free. -/
theorem dispatch_builtin {reentry : Reentry σ} {context : Context σ} {name : String} {b : Builtin}
    (hget : context.operators.get? name = some (.builtin b)) {operands : List (Operand σ)}
    (haccepts : b.signature.arity.mismatch? operands.length = none) (depth : Nat) (state : σ) :
    dispatch reentry context name operands depth state =
      match context.options.level depth with
      | .error e => some ⟨.error e, depth, state, e.refusal⟩
      | .ok () => (b.run context.data (operands.map Operand.run) (depth + 1) state).map
          (Report.entered name operands.length (depth + 1)) := by
  rw [dispatch_apply, Registry.admission_of_accepts hget haccepts]
  cases context.options.level depth <;> rfl

/-- Checking an operation by itself comes to the mode of its operator if the operation is admitted,
and to an error if it is not. -/
theorem checkNode_eq_ok_iff {operators : Registry σ} {options : Options} {depth : Nat}
    {name : String} {count : Nat} {mode : Mode} :
    operators.checkNode options depth name count = .ok mode ↔
      ∃ operator, operators.admission options depth name count = .ok operator ∧
        operator.signature.mode = mode := by
  unfold Registry.checkNode Registry.admission
  cases operators.get? name with
  | none => simp [throw, throwThe, MonadExceptOf.throw]
  | some operator =>
      cases options.maxDepth with
      | none =>
          cases hcheck : operator.signature.arity.check name count <;>
            simp [hcheck, bind, Except.bind, pure, Except.pure]
      | some max =>
          by_cases hmax : max ≤ depth <;>
            cases hcheck : operator.signature.arity.check name count <;>
            simp [hcheck, hmax, bind, Except.bind, pure, Except.pure, throw, throwThe,
              MonadExceptOf.throw]

end JsonRules
