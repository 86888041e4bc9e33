import JsonRules.Proofs.Guarantee
import JsonRules.Proofs.Nodes

/-!
Rejected rules.

The check rejects a rule at the first operation, from the outside in and from left to right, that
fails a check of its own: `Rule.Rejects` goes from the rule down to it.  As long as all operators on
the way are eager, a run goes the same way, so it ends there or before (`Evaluates.of_rejects`).
At the operation itself the check and the run ask the same questions, but the check asks about the
nesting before it asks about the number of operands.  The two errors are therefore the same unless
the operation has both faults, and then they differ (`Engine.apply_of_check_eq_error`).
-/

namespace JsonRules

variable {σ : Type}

/-- The first is the error of a wrong number of operands, and the second one of nesting too deep. -/
def RuleError.Overrides (other e : RuleError) : Prop :=
  ∃ limit name expected, e = .depthExceeded limit ∧ other = .operandCount name expected

theorem Options.exists_limit_of_level_eq_error {options : Options} {depth : Nat} {e : RuleError}
    (h : options.level depth = .error e) : ∃ limit, e = .depthExceeded limit := by
  unfold level at h
  split at h
  · cases h
  · rename_i limit _
    split at h
    · exact ⟨limit, (Except.error.inj h).symm⟩
    · cases h

namespace Registry

variable {operators : Registry σ} {options : Options} {depth : Nat} {name : String} {count : Nat}

/-- The check of an operation asks about its nesting first, and then about its operands. -/
theorem checkNode_of_get? {operator : Operator σ} (hget : operators.get? name = some operator) :
    operators.checkNode options depth name count =
      (options.level depth).bind fun _ =>
        (operator.signature.arity.check name count).map fun _ => operator.signature.mode := by
  simp only [checkNode, hget, Options.level]
  cases options.maxDepth with
  | none => rfl
  | some max => by_cases hmax : max ≤ depth <;> simp [hmax, bind, Except.bind] <;> rfl

/-- A run asks about the operands first. -/
theorem admission_of_get? {operator : Operator σ} (hget : operators.get? name = some operator) :
    operators.admission options depth name count =
      (operator.signature.arity.check name count).bind fun _ =>
        (options.level depth).map fun _ => operator := by
  simp only [admission, hget, Options.level]
  cases operator.signature.arity.check name count with
  | error e => rfl
  | ok _ =>
      cases options.maxDepth with
      | none => rfl
      | some max => by_cases hmax : max ≤ depth <;> simp [hmax, Except.bind, Except.map]

/-- An operation that fails its own check is refused with the same error, unless it is nested too
deep and has a wrong number of operands. -/
theorem admission_of_checkNode_eq_error {e : RuleError}
    (h : operators.checkNode options depth name count = .error e) :
    ∃ other, operators.admission options depth name count = .error other ∧
      (other = e ∨ other.Overrides e) := by
  cases hget : operators.get? name with
  | none =>
      have hunknown : e = .unknownOperator name := by
        simpa [checkNode, hget, throw, throwThe, MonadExceptOf.throw, eq_comm] using h
      exact ⟨e, admission_eq_error_iff.2 (.inl ⟨hget, hunknown⟩), .inl rfl⟩
  | some operator =>
      rw [checkNode_of_get? hget] at h
      rw [admission_of_get? hget]
      cases hlevel : options.level depth with
      | ok _ =>
          cases hcheck : operator.signature.arity.check name count with
          | ok _ => simp [hcheck, hlevel, Except.bind, Except.map] at h
          | error other =>
              have hsame : other = e := by simpa [hcheck, hlevel, Except.bind, Except.map] using h
              exact ⟨other, rfl, .inl hsame⟩
      | error other =>
          have hsame : other = e := by simpa [hlevel, Except.bind] using h
          subst hsame
          cases hcheck : operator.signature.arity.check name count with
          | ok _ => exact ⟨other, rfl, .inl rfl⟩
          | error wrong =>
              obtain ⟨limit, rfl⟩ := Options.exists_limit_of_level_eq_error hlevel
              obtain ⟨expected, -, rfl⟩ := Arity.check_eq_error hcheck
              exact ⟨_, rfl, .inr ⟨limit, name, expected, rfl, rfl⟩⟩

theorem refusesAt_nil {rule : Rule} {operands : List Rule} {e : RuleError}
    (hrule : rule.operation? = some (name, operands)) :
    operators.RefusesAt options depth rule [] e ↔
      operators.admission options depth name operands.length = .error e := by
  constructor
  · rintro ⟨node, other, others, hnode, hoperation, hrefused⟩
    cases (Rule.at?_nil rule).symm.trans hnode
    cases hrule.symm.trans hoperation
    exact hrefused
  · intro hrefused
    exact ⟨rule, name, operands, Rule.at?_nil rule, hrule, hrefused⟩

theorem refusesAt_cons {rule operand : Rule} {operands : List Rule} {position : Nat}
    {place : List Nat} {e : RuleError} (hrule : rule.operation? = some (name, operands))
    (hoperand : operands[position]? = some operand) :
    operators.RefusesAt options depth rule (position :: place) e ↔
      operators.RefusesAt options (depth + 1) operand place e := by
  have hdepth : depth + (position :: place).length = depth + 1 + place.length := by
    rw [List.length_cons]
    omega
  simp only [RefusesAt, Rule.at?_cons hrule hoperand, hdepth]

/-- No raw operator is met on the way down through operands of eager ones. -/
def EagerThroughout (operators : Registry σ) (rule : Rule) : Prop :=
  ∀ place, operators.EagerAround rule place → operators.modeAt? rule place ≠ some .raw

theorem EagerThroughout.operand {rule operand : Rule} {operands : List Rule}
    {operator : Operator σ} {position : Nat} (h : operators.EagerThroughout rule)
    (hrule : rule.operation? = some (name, operands))
    (hget : operators.get? name = some operator) (heager : operator.signature.mode = .eager)
    (hoperand : operands[position]? = some operand) : operators.EagerThroughout operand := by
  intro place hplace hraw
  apply h (position :: place) (hplace.cons hrule hget heager hoperand)
  rw [modeAt?_cons hrule hoperand, hraw]

end Registry

namespace Rule

/-- The check rejects a rule that stands at a depth with the error that the operation at a place
fails with.  The operations around it are eager, and the operands before it pass. -/
inductive Rejects (operators : Registry σ) (options : Options) :
    Nat → Rule → List Nat → RuleError → Prop
  | here {depth : Nat} {rule : Rule} {name : String} {operands : List Rule} {e : RuleError}
      (hrule : rule.operation? = some (name, operands))
      (hnode : operators.checkNode options depth name operands.length = .error e) :
      Rejects operators options depth rule [] e
  | operand {depth : Nat} {rule operand : Rule} {name : String} {before after : List Rule}
      {place : List Nat} {e : RuleError}
      (hrule : rule.operation? = some (name, before ++ operand :: after))
      (hnode : operators.checkNode options depth name (before ++ operand :: after).length =
        .ok .eager)
      (hbefore : ∀ other ∈ before, other.check operators options (depth + 1) = .ok ())
      (hoperand : Rejects operators options (depth + 1) operand place e) :
      Rejects operators options depth rule (before.length :: place) e

variable {operators : Registry σ} {options : Options} {depth : Nat} {rule : Rule} {e : RuleError}

/-- Rules are rejected together with the error of the first that does not pass. -/
theorem exists_of_checkAll_eq_error {rules : List Rule}
    (h : checkAll operators options depth rules = .error e) :
    ∃ before rule after, rules = before ++ rule :: after ∧
      (∀ other ∈ before, other.check operators options depth = .ok ()) ∧
      rule.check operators options depth = .error e := by
  induction rules with
  | nil => cases h
  | cons first rest ih =>
      rw [checkAll] at h
      cases hfirst : first.check operators options depth with
      | error other =>
          rw [hfirst] at h
          obtain rfl : other = e := Except.error.inj h
          exact ⟨[], first, rest, rfl, List.forall_mem_nil _, hfirst⟩
      | ok _ =>
          rw [hfirst] at h
          obtain ⟨before, rule, after, rfl, hbefore, hrule⟩ := ih h
          exact ⟨first :: before, rule, after, rfl, List.forall_mem_cons.2 ⟨hfirst, hbefore⟩, hrule⟩

/-- A rule that does not pass is rejected at one of its operations. -/
theorem exists_rejects_of_check_eq_error (h : rule.check operators options depth = .error e) :
    ∃ place, Rejects operators options depth rule place e := by
  induction rule using Rule.induct generalizing depth with
  | literal value => cases h
  | operation rule name operands hrule ih =>
      rw [check_of_operation? hrule] at h
      cases hnode : operators.checkNode options depth name operands.length with
      | error other =>
          rw [hnode] at h
          cases h
          exact ⟨[], .here hrule hnode⟩
      | ok mode =>
          rw [hnode] at h
          cases mode with
          | raw => cases h
          | eager =>
              obtain ⟨before, operand, after, rfl, hbefore, hoperand⟩ :=
                exists_of_checkAll_eq_error h
              obtain ⟨place, hplace⟩ := ih operand (by simp) hoperand
              exact ⟨_, .operand hrule hnode hbefore hplace⟩

end Rule

/-- A run is done at the first place before it comes to the second: where the ways to them part, the
first is in an operand further to the left. -/
def Precedes (place other : List Nat) : Prop :=
  ∃ outer first second inner inner',
    place = outer ++ first :: inner ∧ other = outer ++ second :: inner' ∧ first < second

theorem Precedes.cons {place other : List Nat} (h : Precedes place other) (position : Nat) :
    Precedes (position :: place) (position :: other) := by
  obtain ⟨outer, first, second, inner, inner', rfl, rfl, hlt⟩ := h
  exact ⟨position :: outer, first, second, inner, inner', rfl, rfl, hlt⟩

theorem precedes_of_lt {first second : Nat} (h : first < second) (place other : List Nat) :
    Precedes (first :: place) (second :: other) :=
  ⟨[], first, second, place, other, rfl, rfl, h⟩

variable {context : Context σ} {depth position : Nat} {answer : Except RuleError Value}
  {marks : List Mark}

/-- An error that an operand at a position comes to is the answer, and comes up in the operand. -/
def HandedOn (position : Nat) (reached : Except RuleError Value) (inner : List Mark)
    (answer : Except RuleError Value) (marks : List Mark) : Prop :=
  ∀ e, reached = .error e → answer = .error e ∧
    ∀ place, FailsAt place e inner → FailsAt (position :: place) e marks

theorem HandedOn.append {reached : Except RuleError Value} {inner others : List Mark}
    (h : HandedOn position reached inner answer marks) (hothers : Quiet others) :
    HandedOn position reached inner answer (others ++ marks) := by
  intro e he
  obtain ⟨hanswer, hfails⟩ := h e he
  exact ⟨hanswer, fun place hplace => (hfails place hplace).append hothers⟩

theorem handedOn_within (position : Nat) (reached : Except RuleError Value) (inner : List Mark) :
    HandedOn position reached inner reached (inner.map (Mark.within position)) :=
  fun _ he => ⟨he, fun _ hfails => hfails.within position⟩

theorem HandedOn.around {reached : Except RuleError Value} {inner : List Mark}
    (h : HandedOn position reached inner answer marks) (name : String) (count depth : Nat) :
    HandedOn position reached inner answer (Mark.around name count depth marks) := by
  intro e he
  obtain ⟨hanswer, hfails⟩ := h e he
  exact ⟨hanswer, fun place hplace => (hfails place hplace).around name count depth⟩

/-- Gathering operands comes to each of them, unless it ends with the error of one before it. -/
theorem Follows.gather_reaches {before after : List Rule} {operand : Rule}
    {next : List Value → Script}
    (h : Follows context depth position (before ++ operand :: after)
      (.gather (before ++ operand :: after).length next) answer marks) :
    (∃ reached inner, Evaluates context depth operand reached inner ∧
      HandedOn (position + before.length) reached inner answer marks) ∨
    ∃ front other back e inner, before = front ++ other :: back ∧
      Evaluates context depth other (.error e) inner ∧
      HandedOn (position + front.length) (.error e) inner answer marks := by
  induction before generalizing position next marks with
  | nil =>
      cases h with
      | operand hfirst _ => exact .inl ⟨_, _, hfirst, fun e he => by cases he⟩
      | operandError hfirst => exact .inl ⟨_, _, hfirst, handedOn_within _ _ _⟩
  | cons first rest ih =>
      cases h with
      | operandError hfirst =>
          exact .inr ⟨[], first, rest, _, _, rfl, hfirst, handedOn_within _ _ _⟩
      | operand hfirst hnext =>
          have hquiet := (hfirst.quiet rfl).within position
          have hlater : ∀ count, position + (count + 1) = position + 1 + count := by omega
          rcases ih hnext with ⟨reached, inner, hoperand, hhanded⟩ |
            ⟨front, other, back, e, inner, rfl, hother, hhanded⟩
          · refine .inl ⟨reached, inner, hoperand, ?_⟩
            rw [List.length_cons, hlater]
            exact hhanded.append hquiet
          · refine .inr ⟨first :: front, other, back, e, inner, rfl, hother, ?_⟩
            rw [List.length_cons, hlater]
            exact hhanded.append hquiet

/-- Where no raw operator is met, a rule that passes the check ends in no error but one that an
operator raises about an operand. -/
theorem Evaluates.exists_ownedBy {rule : Rule} {e : RuleError}
    (heager : context.operators.EagerThroughout rule)
    (hcheck : rule.check context.operators context.options depth = .ok ())
    (h : Evaluates context depth rule (.error e) marks) :
    ∃ place operator, e.OwnedBy operator ∧ FailsAt place e marks := by
  obtain ⟨place, hblame, hfails⟩ := h.blame rfl
  rcases hblame.ofDispatch_or_ownedBy with he | ⟨operator, howned⟩
  · obtain ⟨outer, -, -, -, -, houter, hraw⟩ := h.refuses_below_raw rfl he hcheck
    exact (heager outer houter hraw).elim
  · exact ⟨place, operator, howned, hfails⟩

/-- The run of a rejected rule in which no raw operator is met.  It ends with the refusal of the
operation at which the rule is rejected, or an operator raises an error about an operand before that
operation is reached. -/
theorem Evaluates.of_rejects {rule : Rule} {place : List Nat} {e refusal : RuleError}
    (hevaluates : Evaluates context depth rule answer marks)
    (h : Rule.Rejects context.operators context.options depth rule place e)
    (hrefuses : context.operators.RefusesAt context.options depth rule place refusal)
    (heager : context.operators.EagerThroughout rule) :
    (answer = .error refusal ∧ FailsAt place refusal marks) ∨
    ∃ earlier other operator, Precedes earlier place ∧ other.OwnedBy operator ∧
      answer = .error other ∧ FailsAt earlier other marks := by
  induction h generalizing answer marks with
  | here hrule hnode =>
      have hrefused := (Registry.refusesAt_nil hrule).1 hrefuses
      obtain ⟨rfl, rfl⟩ := hevaluates.eq_of_refused hrule hrefused
      exact .inl ⟨rfl, .refusal refusal⟩
  | @operand depth rule operand name before after place e hrule hnode hbefore hoperand ih =>
      obtain ⟨operator, hadmission, hmode⟩ := checkNode_eq_ok_iff.1 hnode
      have hget := (Registry.admission_eq_ok_iff.1 hadmission).1
      have hat : (before ++ operand :: after)[before.length]? = some operand := by simp
      obtain ⟨b, inner, rfl, hfollows, rfl⟩ := hevaluates.exists_follows hrule hadmission
      rw [Builtin.script_of_eager hmode] at hfollows
      rcases hfollows.gather_reaches with ⟨reached, others, hreached, hhanded⟩ |
        ⟨front, first, back, other, others, rfl, hfirst, hhanded⟩
      · have hhanded := hhanded.around name (before ++ operand :: after).length depth
        rw [Nat.zero_add] at hhanded
        have hoperandEager := heager.operand hrule hget hmode hat
        have hoperandRefuses := (Registry.refusesAt_cons hrule hat).1 hrefuses
        rcases ih hreached hoperandRefuses hoperandEager with ⟨rfl, hfails⟩ |
          ⟨earlier, other, owner, hprecedes, howned, rfl, hfails⟩
        · obtain ⟨hanswer, hplace⟩ := hhanded refusal rfl
          exact .inl ⟨hanswer, hplace place hfails⟩
        · obtain ⟨hanswer, hplace⟩ := hhanded other rfl
          exact .inr ⟨_, other, owner, hprecedes.cons _, howned, hanswer, hplace earlier hfails⟩
      · have hhanded :=
          hhanded.around name (front ++ first :: back ++ operand :: after).length depth
        rw [Nat.zero_add] at hhanded
        have hfirstAt : (front ++ first :: back ++ operand :: after)[front.length]? = some first :=
          by simp
        have hlt : front.length < (front ++ first :: back).length := by simp
        obtain ⟨earlier, owner, howned, hfails⟩ :=
          hfirst.exists_ownedBy (heager.operand hrule hget hmode hfirstAt) (hbefore first (by simp))
        obtain ⟨hanswer, hplace⟩ := hhanded other rfl
        exact .inr ⟨_, other, owner, precedes_of_lt hlt earlier place, howned, hanswer,
          hplace earlier hfails⟩

/-- The operation at which a rule is rejected is refused in a run as well. -/
theorem Rule.Rejects.exists_refusesAt {operators : Registry σ} {options : Options} {rule : Rule}
    {place : List Nat} {e : RuleError} (h : Rejects operators options depth rule place e) :
    ∃ refusal, operators.RefusesAt options depth rule place refusal ∧
      (refusal = e ∨ refusal.Overrides e) := by
  induction h with
  | here hrule hnode =>
      obtain ⟨refusal, hrefused, hrefusal⟩ := Registry.admission_of_checkNode_eq_error hnode
      exact ⟨refusal, (Registry.refusesAt_nil hrule).2 hrefused, hrefusal⟩
  | operand hrule hnode hbefore hoperand ih =>
      obtain ⟨refusal, hrefuses, hrefusal⟩ := ih
      exact ⟨refusal, (Registry.refusesAt_cons hrule (by simp)).2 hrefuses, hrefusal⟩

theorem Engine.check_eq_error_iff {engine : Engine σ} {rule : Value} {e : RuleError} :
    engine.check rule = .error e ↔
      (Rule.ofValue rule).check engine.operators engine.options 0 = .error e := by
  cases hrule : (Rule.ofValue rule).check engine.operators engine.options 0 <;>
    simp [check, hrule, bind, Except.bind, pure, Except.pure]

/-- The name of an operation of a rule is among its names. -/
theorem Rule.mem_names_of_nameAt? {rule : Rule} {place : List Nat} {name : String}
    (h : rule.nameAt? place = some name) : name ∈ rule.names := by
  simp only [nameAt?, bind, pure, Option.bind_eq_some_iff, Option.some.injEq] at h
  obtain ⟨node, hnode, ⟨found, operands⟩, hoperation, hname⟩ := h
  subst hname
  have hmem : ⟨place, found, operands.length⟩ ∈ rule.nodes :=
    mem_nodes_iff.2 ⟨node, operands, hnode, hoperation, rfl⟩
  exact List.mem_map.2 ⟨_, hmem, rfl⟩

/-- What a rule comes to that the check of the standard operators rejects, if no raw operator is met
on the way down through operands of eager ones.  The check rejects it at an operation, and the run
refuses that operation with the same error, unless it is nested too deep and has a wrong number of
operands: then the check blames the nesting and the run the operands.  The run ends with this
refusal, or with an error that an operator raises about an operand before it comes there. -/
theorem Engine.apply_of_check_eq_error (options : Options) {rule : Value} {e : RuleError}
    (hcheck : Engine.check (σ := σ) ⟨.standard, options⟩ rule = .error e)
    (hfree : ∀ place, (Registry.standard : Registry σ).EagerAround (.ofValue rule) place →
      ∀ name ∈ Registry.rawNames, (Rule.ofValue rule).nameAt? place ≠ some name)
    (budget : Nat) (data : Value) (state : σ) :
    ∃ place refusal report,
      (⟨.standard, options⟩ : Engine σ).apply budget rule data state = some report ∧
      Rule.Rejects (.standard : Registry σ) options 0 (.ofValue rule) place e ∧
      (.standard : Registry σ).RefusesAt options 0 (.ofValue rule) place refusal ∧
      (refusal = e ∨ refusal.Overrides e) ∧
      ((report.answer = .error refusal ∧ Mark.errors report.marks = [(place, refusal)]) ∨
        ∃ earlier other, Precedes earlier place ∧ report.answer = .error other ∧
          Mark.errors report.marks = [(earlier, other)] ∧
          ((∃ operator value, other = .notNumeric operator value) ∨
            ∃ operator detail, other = .invalidArgument operator detail)) := by
  have heager : (Registry.standard : Registry σ).EagerThroughout (.ofValue rule) := by
    intro place hplace hraw
    obtain ⟨name, hname, hat⟩ := Registry.modeAt?_standard_eq_raw_iff.1 hraw
    exact hfree place hplace name hname hat
  obtain ⟨place, hrejects⟩ := Rule.exists_rejects_of_check_eq_error (check_eq_error_iff.1 hcheck)
  obtain ⟨refusal, hrefuses, hrefusal⟩ := hrejects.exists_refusesAt
  obtain ⟨answer, marks, hevaluates, happly⟩ := Engine.exists_apply_eq
    (⟨.standard, options⟩ : Engine σ) Registry.onlyBuiltins_standard rule data
  refine ⟨place, refusal, _, happly budget state, hrejects, hrefuses, hrefusal, ?_⟩
  rcases hevaluates.of_rejects hrejects hrefuses heager with ⟨hanswer, hfails⟩ |
    ⟨earlier, other, operator, hprecedes, howned, hanswer, hfails⟩
  · exact .inl ⟨hanswer, hfails.errors_eq⟩
  · refine .inr ⟨earlier, other, hprecedes, hanswer, hfails.errors_eq, ?_⟩
    cases other with
    | notNumeric name value => exact .inl ⟨name, value, rfl⟩
    | invalidArgument name detail => exact .inr ⟨name, detail, rfl⟩
    | _ => exact howned.elim

/-- An operand that is no number, before an operator that does not exist. -/
def doublyWrongRule : Value :=
  .object [("-", .array [.object [("*", .array [.string "x"])], .object [("frobnicate", .null)]])]

/-- The check comes to the unknown operator, and the run ends in the operand before it. -/
theorem apply_doublyWrongRule :
    Engine.check (σ := Unit) ⟨.standard, ⟨none⟩⟩ doublyWrongRule =
      .error (.unknownOperator "frobnicate") ∧
    ∃ report earlier place,
      Engine.apply (σ := Unit) ⟨.standard, ⟨none⟩⟩ 0 doublyWrongRule .null () = some report ∧
      report.answer = .error (.notNumeric "*" (.string "x")) ∧ Precedes earlier place ∧
      Mark.errors report.marks = [(earlier, .notNumeric "*" (.string "x"))] := by
  have hcheck : Engine.check (σ := Unit) ⟨.standard, ⟨none⟩⟩ doublyWrongRule =
      .error (.unknownOperator "frobnicate") := rfl
  have hnames : ∀ name ∈ Registry.rawNames, name ∉ (Rule.ofValue doublyWrongRule).names := by
    decide
  obtain ⟨place, refusal, report, happly, -, -, hrefusal, hends⟩ :=
    Engine.apply_of_check_eq_error ⟨none⟩ hcheck
      (fun place _ name hname hat => hnames name hname (Rule.mem_names_of_nameAt? hat)) 0 .null ()
  have hrun : (Engine.apply (σ := Unit) ⟨.standard, ⟨none⟩⟩ 0 doublyWrongRule .null ()).map
      Report.answer = some (.error (.notNumeric "*" (.string "x"))) := rfl
  rw [happly] at hrun
  have hanswer : report.answer = .error (.notNumeric "*" (.string "x")) := Option.some.inj hrun
  rcases hends with ⟨hrefused, -⟩ | ⟨earlier, other, hprecedes, hother, herrors, -⟩
  · rw [hanswer] at hrefused
    cases hrefused
    rcases hrefusal with hsame | ⟨limit, name, expected, hlimit, -⟩
    · cases hsame
    · cases hlimit
  · rw [hanswer] at hother
    cases hother
    exact ⟨hcheck, report, earlier, place, happly, hanswer, hprecedes, herrors⟩

/-- An operation that is nested too deep and has too many operands. -/
def deepAndCrowdedRule : Value :=
  .object [("+", .array [.number (.ofInt 1), .object [("!", .array [.bool true, .bool false])]])]

/-- The check and the run do not blame the same: no raw operator is met, the error of the check is
one of nesting, and that of the run is one of the number of operands. -/
theorem check_ne_apply_deepAndCrowdedRule :
    (∀ place, (Registry.standard : Registry Unit).EagerAround (.ofValue deepAndCrowdedRule) place →
      ∀ name ∈ Registry.rawNames, (Rule.ofValue deepAndCrowdedRule).nameAt? place ≠ some name) ∧
    Engine.check (σ := Unit) ⟨.standard, ⟨some 1⟩⟩ deepAndCrowdedRule =
      .error (.depthExceeded 1) ∧
    (Engine.apply (σ := Unit) ⟨.standard, ⟨some 1⟩⟩ 0 deepAndCrowdedRule .null ()).map
      Report.answer = some (.error (.operandCount "!" (.exactly 1))) := by
  have hnames : ∀ name ∈ Registry.rawNames, name ∉ (Rule.ofValue deepAndCrowdedRule).names := by
    decide
  exact ⟨fun place _ name hname hat => hnames name hname (Rule.mem_names_of_nameAt? hat), rfl, rfl⟩

end JsonRules
