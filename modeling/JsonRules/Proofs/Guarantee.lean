import JsonRules.Proofs.Blame

/-!
What the check guarantees.

A rule that passed the check of the standard operators may still run into an operation that is
refused, but only in an operand of a raw operator: the operations that the check visits are those
that all have eager operators around them, and it refuses them for the same causes and at the same
depth as the run does.
-/

namespace JsonRules

variable {σ : Type}

/-- The name of the operation at a place. -/
def Rule.nameAt? (rule : Rule) (place : List Nat) : Option String := do
  let node ← rule.at? place
  let (name, _) ← node.operation?
  return name

namespace Registry

/-- The mode of the operator of the operation at a place. -/
def modeAt? (operators : Registry σ) (rule : Rule) (place : List Nat) : Option Mode := do
  let name ← rule.nameAt? place
  let operator ← operators.get? name
  return operator.signature.mode

/-- All operations around a place have eager operators. -/
def EagerAround (operators : Registry σ) (rule : Rule) (place : List Nat) : Prop :=
  ∀ outer position inner, place = outer ++ position :: inner →
    operators.modeAt? rule outer = some .eager

/-- The operation at a place within a rule that stands at a depth is refused with an error. -/
def RefusesAt (operators : Registry σ) (options : Options) (depth : Nat) (rule : Rule)
    (place : List Nat) (e : RuleError) : Prop :=
  ∃ node name operands, rule.at? place = some node ∧ node.operation? = some (name, operands) ∧
    operators.admission options (depth + place.length) name operands.length = .error e

variable {operators : Registry σ} {options : Options} {rule operand : Rule} {name : String}
  {operands : List Rule} {operator : Operator σ} {position : Nat} {place : List Nat}

theorem modeAt?_nil (hrule : rule.operation? = some (name, operands))
    (hget : operators.get? name = some operator) :
    operators.modeAt? rule [] = some operator.signature.mode := by
  simp [modeAt?, Rule.nameAt?, hrule, hget]

theorem modeAt?_cons (hrule : rule.operation? = some (name, operands))
    (hoperand : operands[position]? = some operand) :
    operators.modeAt? rule (position :: place) = operators.modeAt? operand place := by
  simp [modeAt?, Rule.nameAt?, Rule.at?_cons hrule hoperand]

theorem eagerAround_nil (operators : Registry σ) (rule : Rule) :
    operators.EagerAround rule [] := by
  intro outer position inner h
  simp at h

theorem EagerAround.cons (h : operators.EagerAround operand place)
    (hrule : rule.operation? = some (name, operands))
    (hget : operators.get? name = some operator) (heager : operator.signature.mode = .eager)
    (hoperand : operands[position]? = some operand) :
    operators.EagerAround rule (position :: place) := by
  intro outer other inner hplace
  cases outer with
  | nil => rw [modeAt?_nil hrule hget, heager]
  | cons first rest =>
      obtain ⟨rfl, hrest⟩ := List.cons_eq_cons.1 hplace
      rw [modeAt?_cons hrule hoperand]
      exact h rest other inner hrest

/-- A name of the standard operators is raw where it is one of five. -/
theorem modeAt?_standard_eq_raw_iff :
    (standard : Registry σ).modeAt? rule place = some .raw ↔
      ∃ name ∈ rawNames, rule.nameAt? place = some name := by
  simp only [← raw_standard_iff (σ := σ)]
  cases hname : rule.nameAt? place with
  | none => simp [modeAt?, hname]
  | some name => simp [modeAt?, hname, Option.bind_eq_some_iff, and_comm]

end Registry

theorem RuleError.OwnedBy.not_ofDispatch {operator : String} {e : RuleError}
    (h : e.OwnedBy operator) : ¬e.OfDispatch := by
  cases e with
  | notNumeric name value => exact id
  | invalidArgument name detail => exact id
  | _ => exact h.elim

/-- An operation that passes the check is admitted, and so are the operands of an eager one. -/
theorem Rule.admission_of_check {operators : Registry σ} {options : Options} {depth : Nat}
    {rule : Rule} {name : String} {operands : List Rule}
    (hrule : rule.operation? = some (name, operands))
    (hcheck : rule.check operators options depth = .ok ()) :
    ∃ operator, operators.admission options depth name operands.length = .ok operator ∧
      (operator.signature.mode = .eager →
        ∀ operand ∈ operands, operand.check operators options (depth + 1) = .ok ()) := by
  rw [check_of_operation? hrule] at hcheck
  cases hnode : operators.checkNode options depth name operands.length with
  | error e => simp [hnode, Except.bind] at hcheck
  | ok mode =>
      obtain ⟨operator, hadmission, rfl⟩ := checkNode_eq_ok_iff.1 hnode
      refine ⟨operator, hadmission, fun heager => ?_⟩
      rw [hnode, heager] at hcheck
      exact checkAll_eq_ok_iff.1 hcheck

/-- A checked rule is the rule with the engine that it passes. -/
theorem Engine.check_eq_ok_iff {engine : Engine σ} {rule : Value} {checked : CheckedRule σ} :
    engine.check rule = .ok checked ↔
      ⟨rule, engine⟩ = checked ∧
        (Rule.ofValue rule).check engine.operators engine.options 0 = .ok () := by
  cases hrule : (Rule.ofValue rule).check engine.operators engine.options 0 <;>
    simp [check, hrule, bind, Except.bind, pure, Except.pure]

variable {context : Context σ} {depth : Nat} {rule : Rule} {place : List Nat} {e : RuleError}

/-- An operation to blame for an error of dispatching is one that is refused. -/
theorem Blame.refusesAt (h : Blame context depth rule place e) (he : e.OfDispatch) :
    context.operators.RefusesAt context.options depth rule place e := by
  induction h with
  | refused hrule hrefused => exact ⟨_, _, _, Rule.at?_nil _, hrule, hrefused⟩
  | own hrule hadmitted howned => exact (howned.not_ofDispatch he).elim
  | operand hrule hadmitted hoperand hblame ih =>
      obtain ⟨node, name, operands, hnode, hoperation, hadmission⟩ := ih he
      refine ⟨node, name, operands, (Rule.at?_cons hrule hoperand _).trans hnode, hoperation, ?_⟩
      rw [List.length_cons, ← Nat.add_assoc, Nat.add_right_comm]
      exact hadmission

/-- In a rule that passes the check, an operation to blame for an error of dispatching is in an
operand of a raw operator around which all are eager. -/
theorem Blame.exists_raw (h : Blame context depth rule place e) (he : e.OfDispatch)
    (hcheck : rule.check context.operators context.options depth = .ok ()) :
    ∃ outer position inner, place = outer ++ position :: inner ∧
      context.operators.EagerAround rule outer ∧
      context.operators.modeAt? rule outer = some .raw := by
  induction h with
  | refused hrule hrefused =>
      obtain ⟨operator, hadmission, -⟩ := Rule.admission_of_check hrule hcheck
      rw [hrefused] at hadmission
      cases hadmission
  | own hrule hadmitted howned => exact (howned.not_ofDispatch he).elim
  | operand hrule hadmitted hoperand hblame ih =>
      obtain ⟨operator, hadmission, hoperands⟩ := Rule.admission_of_check hrule hcheck
      have hget := (Registry.admission_eq_ok_iff.1 hadmission).1
      cases hmode : operator.signature.mode with
      | raw =>
          refine ⟨[], _, _, rfl, Registry.eagerAround_nil _ _, ?_⟩
          rw [Registry.modeAt?_nil hrule hget, hmode]
      | eager =>
          obtain ⟨outer, position, inner, hplace, heager, hraw⟩ :=
            ih he (hoperands hmode _ (List.mem_of_getElem? hoperand))
          refine ⟨_ :: outer, position, inner, by rw [hplace]; rfl,
            heager.cons hrule hget hmode hoperand, ?_⟩
          rw [Registry.modeAt?_cons hrule hoperand, hraw]

theorem Blame.ofDispatch_or_ownedBy (h : Blame context depth rule place e) :
    e.OfDispatch ∨ ∃ operator, e.OwnedBy operator := by
  induction h with
  | refused hrule hrefused => exact .inl (Registry.ofDispatch_of_admission hrefused)
  | own hrule hadmitted howned => exact .inr ⟨_, howned⟩
  | operand hrule hadmitted hoperand hblame ih => exact ih

/-- An error of dispatching that a rule evaluates to although it passes the check comes up once, in
an operand of a raw operator. -/
theorem Evaluates.refuses_below_raw {answer : Except RuleError Value} {marks : List Mark}
    (h : Evaluates context depth rule answer marks) (herror : answer = .error e)
    (he : e.OfDispatch)
    (hcheck : rule.check context.operators context.options depth = .ok ()) :
    ∃ outer position inner,
      Mark.errors marks = [(outer ++ position :: inner, e)] ∧
      context.operators.RefusesAt context.options depth rule (outer ++ position :: inner) e ∧
      context.operators.EagerAround rule outer ∧
      context.operators.modeAt? rule outer = some .raw := by
  obtain ⟨place, hblame, hfails⟩ := h.blame herror
  obtain ⟨outer, position, inner, rfl, heager, hraw⟩ := hblame.exists_raw he hcheck
  exact ⟨outer, position, inner, hfails.errors_eq, hblame.refusesAt he, heager, hraw⟩

/-- What a rule that passed the check of the standard operators comes to.  If it ends in an error of
dispatching, then that is the only error that comes up, and it comes up at an operation that is
refused and stands in an operand of a raw operator.  If no raw operator is met on the way down
through operands of eager ones, then the only errors are about values. -/
theorem CheckedRule.apply_of_check (options : Options) {rule : Value} {checked : CheckedRule σ}
    (hcheck : Engine.check ⟨.standard, options⟩ rule = .ok checked) (budget : Nat)
    (data : Value) (state : σ) :
    ∃ report, checked.apply budget data state = some report ∧
      (∀ e, report.answer = .error e → e.OfDispatch →
        ∃ outer position inner,
          Mark.errors report.marks = [(outer ++ position :: inner, e)] ∧
          (Registry.standard : Registry σ).RefusesAt options 0 (.ofValue rule)
            (outer ++ position :: inner) e ∧
          (Registry.standard : Registry σ).EagerAround (.ofValue rule) outer ∧
          ∃ name ∈ Registry.rawNames, (Rule.ofValue rule).nameAt? outer = some name) ∧
      ((∀ place, (Registry.standard : Registry σ).EagerAround (.ofValue rule) place →
          ∀ name ∈ Registry.rawNames, (Rule.ofValue rule).nameAt? place ≠ some name) →
        (∃ value, report.answer = .ok value) ∨
          (∃ operator value, report.answer = .error (.notNumeric operator value)) ∨
          ∃ operator detail, report.answer = .error (.invalidArgument operator detail)) := by
  obtain ⟨rfl, hpasses⟩ := Engine.check_eq_ok_iff.1 hcheck
  obtain ⟨answer, marks, hevaluates, happly⟩ := Engine.exists_apply_eq
    (⟨.standard, options⟩ : Engine σ) Registry.onlyBuiltins_standard rule data
  refine ⟨_, happly budget state, fun e herror he => ?_, fun hfree => ?_⟩
  · obtain ⟨outer, position, inner, herrors, hrefuses, heager, hraw⟩ :=
      hevaluates.refuses_below_raw herror he hpasses
    exact ⟨outer, position, inner, herrors, hrefuses, heager,
      Registry.modeAt?_standard_eq_raw_iff.1 hraw⟩
  · cases answer with
    | ok value => exact .inl ⟨value, rfl⟩
    | error e =>
        obtain ⟨place, hblame, -⟩ := hevaluates.blame rfl
        rcases hblame.ofDispatch_or_ownedBy with he | ⟨operator, howned⟩
        · obtain ⟨outer, _, _, -, -, heager, hraw⟩ :=
            hevaluates.refuses_below_raw rfl he hpasses
          obtain ⟨name, hname, hat⟩ := Registry.modeAt?_standard_eq_raw_iff.1 hraw
          exact (hfree outer heager name hname hat).elim
        · cases e with
          | notNumeric name value => exact .inr (.inl ⟨name, value, rfl⟩)
          | invalidArgument name detail => exact .inr (.inr ⟨name, detail, rfl⟩)
          | _ => exact howned.elim

/-- An operation that is refused when it is reached, deep in an operand of a raw operator. -/
def guardedRule : Value :=
  .object [("and", .array [.bool true, .object [("!", .object [("frobnicate", .bool true)])]])]

theorem apply_guardedRule :
    ∃ report, CheckedRule.apply (σ := Unit) ⟨guardedRule, ⟨.standard, ⟨some 3⟩⟩⟩ 0 .null () =
        some report ∧
      report.answer = .error (.unknownOperator "frobnicate") ∧
      ∃ outer position inner,
        Mark.errors report.marks =
          [(outer ++ position :: inner, .unknownOperator "frobnicate")] ∧
        ∃ name ∈ Registry.rawNames, (Rule.ofValue guardedRule).nameAt? outer = some name := by
  have hcheck : Engine.check (σ := Unit) ⟨.standard, ⟨some 3⟩⟩ guardedRule =
      .ok ⟨guardedRule, ⟨.standard, ⟨some 3⟩⟩⟩ := rfl
  have hanswer : (CheckedRule.apply (σ := Unit) ⟨guardedRule, ⟨.standard, ⟨some 3⟩⟩⟩ 0 .null
      ()).map Report.answer = some (.error (.unknownOperator "frobnicate")) := rfl
  obtain ⟨report, happly, hdispatch, -⟩ := CheckedRule.apply_of_check ⟨some 3⟩ hcheck 0 .null ()
  rw [happly] at hanswer
  have herror := Option.some.inj hanswer
  obtain ⟨outer, position, inner, herrors, -, -, hraw⟩ := hdispatch _ herror trivial
  exact ⟨report, happly, herror, outer, position, inner, herrors, hraw⟩

end JsonRules
