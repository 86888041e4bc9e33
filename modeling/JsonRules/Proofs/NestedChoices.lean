import JsonRules.Proofs.Laziness
import JsonRules.Proofs.OpenRules

/-!
Chains of conditions as nested choices.

A choice with many conditions comes to the same answer as choices of one condition each, of which
each one is the branch for all other cases of the one around it.  An operand of the chain stands a
level deeper in the nested choices for every two operands before it, and what happens within the
operands is the same in both, apart from these levels (`Mark.nested`).
-/

namespace JsonRules

variable {σ : Type}

/-- The event at a depth greater by some levels. -/
def Event.deeper (levels : Nat) : Event → Event
  | .dispatch operator operands depth => .dispatch operator operands (depth + levels)
  | .log depth text => .log (depth + levels) text
  | event => event

def Occurrence.deeper (levels : Nat) : Occurrence → Occurrence
  | .event e => .event (e.deeper levels)
  | .depth d => .depth (d + levels)
  | occurrence => occurrence

namespace Mark

/-- The mark of a run that started some levels deeper. -/
def deeper (levels : Nat) (mark : Mark) : Mark :=
  { mark with occurrence := mark.occurrence.deeper levels }

theorem map_deeper_refusal (levels : Nat) (e : RuleError) :
    e.refusal.map (deeper levels) = e.refusal := by
  cases e <;> rfl

theorem map_deeper_within (levels position : Nat) (marks : List Mark) :
    (marks.map (within position)).map (deeper levels) =
      (marks.map (deeper levels)).map (within position) := by
  simp only [List.map_map]
  rfl

theorem map_deeper_around (levels : Nat) (name : String) (count depth : Nat) (marks : List Mark) :
    (around name count depth marks).map (deeper levels) =
      around name count (depth + levels) (marks.map (deeper levels)) := by
  simp [around, deeper, here, Occurrence.deeper, Event.deeper, Nat.add_right_comm]

end Mark

variable {context : Context σ}

mutual

/-- Without a limit, a rule comes to the same some levels deeper, and so do all operations in it. -/
theorem Evaluates.deeper (hunlimited : context.options.maxDepth = none) (levels : Nat) {depth : Nat}
    {rule : Rule} {answer : Except RuleError Value} {marks : List Mark} :
    Evaluates context depth rule answer marks →
      Evaluates context (depth + levels) rule answer (marks.map (Mark.deeper levels))
  | .literal => .literal
  | .refused hrule hrefused => by
      rw [Registry.admission_of_unlimited _ hunlimited depth (depth + levels)] at hrefused
      rw [Mark.map_deeper_refusal]
      exact .refused hrule hrefused
  | .entered hrule hadmitted hfollows => by
      have hdeeper := hfollows.deeper hunlimited levels
      rw [Nat.add_right_comm] at hdeeper
      rw [Registry.admission_of_unlimited _ hunlimited depth (depth + levels)] at hadmitted
      rw [Mark.map_deeper_around]
      exact .entered hrule hadmitted hdeeper

theorem Follows.deeper (hunlimited : context.options.maxDepth = none) (levels : Nat)
    {depth position : Nat} {operands : List Rule} {script : Script}
    {answer : Except RuleError Value} {marks : List Mark} :
    Follows context depth position operands script answer marks →
      Follows context (depth + levels) position operands script answer
        (marks.map (Mark.deeper levels))
  | .ok => .ok
  | .error => .error
  | .operand hfirst hnext => by
      rw [List.map_append, Mark.map_deeper_within]
      exact .operand (hfirst.deeper hunlimited levels) (hnext.deeper hunlimited levels)
  | .operandError hfirst => by
      rw [Mark.map_deeper_within]
      exact .operandError (hfirst.deeper hunlimited levels)
  | .skip hnext => .skip (hnext.deeper hunlimited levels)
  | .lookup hnext => .lookup (hnext.deeper hunlimited levels)
  | .log hnext => .log (hnext.deeper hunlimited levels)

end

section

variable {depth position : Nat} {answer : Except RuleError Value} {marks : List Mark}

theorem Script.follows_ending_iff {first : Rule} {rest : List Rule} :
    Follows context depth position (first :: rest) ending answer marks ↔
      ∃ inner, Evaluates context depth first answer inner ∧
        marks = inner.map (Mark.within position) := by
  constructor
  · intro h
    cases h with
    | operand hfirst hnext =>
        cases hnext
        exact ⟨_, hfirst, List.append_nil _⟩
    | operandError hfirst => exact ⟨_, hfirst, rfl⟩
  · rintro ⟨inner, hfirst, rfl⟩
    cases answer with
    | ok value =>
        rw [← List.append_nil (inner.map (Mark.within position))]
        exact .operand hfirst .ok
    | error e => exact .operandError hfirst

/-- A choice of two operands or more ends with an error of the condition, or with the branch, or
goes on with the operands after the two. -/
theorem Script.follows_choose_iff {condition branch : Rule} {rest : List Rule} {count : Nat} :
    Follows context depth position (condition :: branch :: rest) (choose (count + 2)) answer marks ↔
      (∃ e inner, Evaluates context depth condition (.error e) inner ∧ answer = .error e ∧
        marks = inner.map (Mark.within position)) ∨
      (∃ value inner last, Evaluates context depth condition (.ok value) inner ∧
        value.isTruthy = true ∧ Evaluates context depth branch answer last ∧
        marks = inner.map (Mark.within position) ++ last.map (Mark.within (position + 1))) ∨
      ∃ value inner others, Evaluates context depth condition (.ok value) inner ∧
        value.isTruthy = false ∧
        Follows context depth (position + 2) rest (choose count) answer others ∧
        marks = inner.map (Mark.within position) ++ others := by
  constructor
  · intro h
    cases h with
    | @operand _ _ _ _ _ value _ inner others hcondition hnext =>
        beta_reduce at hnext
        cases htrue : value.isTruthy with
        | true =>
            rw [htrue, if_pos rfl, follows_ending_iff] at hnext
            obtain ⟨last, hbranch, rfl⟩ := hnext
            exact .inr (.inl ⟨value, inner, last, hcondition, htrue, hbranch, rfl⟩)
        | false =>
            rw [htrue, if_neg Bool.false_ne_true] at hnext
            cases hnext with
            | skip hrest => exact .inr (.inr ⟨value, inner, _, hcondition, htrue, hrest, rfl⟩)
    | operandError hcondition => exact .inl ⟨_, _, hcondition, rfl, rfl⟩
  · rintro (⟨e, inner, hcondition, rfl, rfl⟩ |
      ⟨value, inner, last, hcondition, htrue, hbranch, rfl⟩ |
      ⟨value, inner, others, hcondition, hfalse, hrest, rfl⟩)
    · exact .operandError hcondition
    · refine .operand hcondition ?_
      rw [if_pos htrue, follows_ending_iff]
      exact ⟨last, hbranch, rfl⟩
    · refine .operand hcondition ?_
      rw [hfalse, if_neg Bool.false_ne_true]
      exact .skip hrest

end

def Value.choice (operands : List Value) : Value := .operation Control.choice.name operands

/-- Choices of one condition each, of which each one is the branch for all other cases of the one
around it. -/
def Value.nestedChoice : List Value → Value
  | condition :: branch :: rest => .choice [condition, branch, nestedChoice rest]
  | operands => .choice operands

namespace Mark

/-- The mark of an operation within choices that are nested this deep. -/
def below (levels : Nat) (mark : Mark) : Mark :=
  { mark with place := List.replicate levels 2 ++ mark.place }

/-- The marks of operations other than the nested choices themselves. -/
def offSpine (marks : List Mark) : List Mark :=
  marks.filter fun mark => mark.place.any fun position => position != 2

/-- The mark in nested choices that corresponds to one in the operands of a chain. -/
def nested (mark : Mark) : Mark :=
  match mark.place with
  | [] => mark
  | position :: rest =>
    below (position / 2) ((Mark.mk rest mark.occurrence).within (position % 2) |>.deeper
      (position / 2))

theorem offSpine_append (marks others : List Mark) :
    offSpine (marks ++ others) = offSpine marks ++ offSpine others :=
  List.filter_append marks others

/-- The choices around an operand are on the spine. -/
theorem offSpine_around (levels : Nat) (name : String) (count depth : Nat) (marks : List Mark) :
    offSpine ((around name count depth marks).map (below levels)) =
      offSpine (marks.map (below levels)) := by
  simp [offSpine, around, below, here]

/-- Operands of the chain and their counterparts in the nested choices. -/
theorem offSpine_below_within {parity : Nat} (hparity : parity < 2) (levels : Nat)
    (marks : List Mark) :
    offSpine (((marks.map (deeper levels)).map (within parity)).map (below levels)) =
      (marks.map (within (2 * levels + parity))).map nested := by
  have hhalf : (2 * levels + parity) / 2 = levels := by omega
  have hrest : (2 * levels + parity) % 2 = parity := by omega
  have hne : parity ≠ 2 := Nat.ne_of_lt hparity
  rw [offSpine, List.filter_eq_self.2]
  · simp only [List.map_map]
    refine List.map_congr_left fun mark _ => ?_
    simp only [Function.comp_apply, nested, within, hhalf, hrest]
    rfl
  · intro mark hmark
    simp only [List.map_map, List.mem_map, Function.comp_apply] at hmark
    obtain ⟨first, -, rfl⟩ := hmark
    simp [below, within, hne]

theorem map_below_zero (marks : List Mark) : marks.map (below 0) = marks :=
  List.map_id marks

/-- A mark that has a counterpart off the spine is not of the chain itself. -/
theorem place_ne_nil_of_map_nested {marks others : List Mark}
    (h : offSpine others = marks.map nested) : ∀ mark ∈ marks, mark.place ≠ [] := by
  intro mark hmark hplace
  have hnested : nested mark ∈ offSpine others := h ▸ List.mem_map_of_mem hmark
  simp [offSpine, nested, hplace] at hnested

theorem filter_around (name : String) (count depth : Nat) {marks : List Mark}
    (h : ∀ mark ∈ marks, mark.place ≠ []) :
    (around name count depth marks).filter (fun mark => mark.place ≠ []) = marks := by
  simpa [around, here] using h

theorem map_below_within (levels : Nat) (marks : List Mark) :
    (marks.map (within 2)).map (below levels) = marks.map (below (levels + 1)) := by
  rw [List.map_map]
  refine List.map_congr_left fun mark _ => ?_
  simp [below, within, List.replicate_succ']

end Mark

section

variable (hunlimited : context.options.maxDepth = none)
  (hchoice : context.operators.get? Control.choice.name = some (.builtin (.control .choice)))

include hunlimited hchoice

theorem Registry.admission_choice (depth count : Nat) :
    context.operators.admission context.options depth Control.choice.name count =
      .ok (.builtin (.control .choice)) :=
  admission_of_unlimited_of_accepts hunlimited hchoice rfl depth

theorem Rule.evaluates_choice_iff {depth : Nat} {operands : List Value}
    {answer : Except RuleError Value} {marks : List Mark} :
    Evaluates context depth (.ofValue (.choice operands)) answer marks ↔
      ∃ inner, Follows context (depth + 1) 0 (operands.map .ofValue)
          (Script.choose operands.length) answer inner ∧
        marks = Mark.around Control.choice.name operands.length depth inner := by
  have hrule : (ofValue (.choice operands)).operation? =
      some (Control.choice.name, operands.map ofValue) := operation?_ofValue_operation _ operands
  have hadmission := Registry.admission_choice hunlimited hchoice depth
    (operands.map ofValue).length
  constructor
  · intro h
    obtain ⟨b, inner, hoperator, hfollows, rfl⟩ := h.exists_follows hrule hadmission
    cases hoperator
    rw [List.length_map] at hfollows ⊢
    exact ⟨inner, hfollows, rfl⟩
  · rintro ⟨inner, hfollows, rfl⟩
    have h := Evaluates.entered hrule hadmission (by rwa [List.length_map])
    rwa [List.length_map] at h

/-- What the script of a choice does with the operands of a chain from some pair on, the choices
that are nested as many levels deep do with theirs. -/
theorem Follows.nest : ∀ {rules : List Value} {depth levels : Nat}
    {answer : Except RuleError Value} {marks : List Mark},
    Follows context (depth + 1) (2 * levels) (rules.map .ofValue) (Script.choose rules.length)
        answer marks →
      ∃ others, Evaluates context (depth + levels) (.ofValue (.nestedChoice rules)) answer others ∧
        Mark.offSpine (others.map (Mark.below levels)) = marks.map Mark.nested
  | [], depth, levels, answer, marks, h => by
      cases h
      exact ⟨_, (Rule.evaluates_choice_iff hunlimited hchoice).2 ⟨[], .ok, rfl⟩,
        Mark.offSpine_around levels _ _ _ []⟩
  | [otherwise], depth, levels, answer, marks, h => by
      obtain ⟨inner, hotherwise, rfl⟩ := Script.follows_ending_iff.1 h
      have hdeeper := hotherwise.deeper hunlimited levels
      rw [Nat.add_right_comm] at hdeeper
      refine ⟨_, (Rule.evaluates_choice_iff hunlimited hchoice).2
        ⟨_, Script.follows_ending_iff.2 ⟨_, hdeeper, rfl⟩, rfl⟩, ?_⟩
      rw [Mark.offSpine_around, Mark.offSpine_below_within Nat.zero_lt_two, Nat.add_zero]
  | condition :: branch :: rest, depth, levels, answer, marks, h => by
      have hdeeper {rule : Rule} {answer : Except RuleError Value} {marks : List Mark}
          (h : Evaluates context (depth + 1) rule answer marks) :
          Evaluates context (depth + levels + 1) rule answer (marks.map (Mark.deeper levels)) := by
        have hmoved := h.deeper hunlimited levels
        rwa [Nat.add_right_comm] at hmoved
      rcases Script.follows_choose_iff.1 h with ⟨e, inner, hcondition, rfl, rfl⟩ |
        ⟨value, inner, last, hcondition, htrue, hbranch, rfl⟩ |
        ⟨value, inner, more, hcondition, hfalse, hrest, rfl⟩
      · refine ⟨_, (Rule.evaluates_choice_iff hunlimited hchoice).2
          ⟨_, Script.follows_choose_iff.2 (.inl ⟨e, _, hdeeper hcondition, rfl, rfl⟩), rfl⟩, ?_⟩
        rw [Mark.offSpine_around, Mark.offSpine_below_within Nat.zero_lt_two, Nat.add_zero]
      · refine ⟨_, (Rule.evaluates_choice_iff hunlimited hchoice).2
          ⟨_, Script.follows_choose_iff.2 (.inr (.inl
            ⟨value, _, _, hdeeper hcondition, htrue, hdeeper hbranch, rfl⟩)), rfl⟩, ?_⟩
        rw [Mark.offSpine_around, List.map_append, Mark.offSpine_append, List.map_append,
          Mark.offSpine_below_within Nat.zero_lt_two, Mark.offSpine_below_within Nat.one_lt_two,
          Nat.add_zero]
      · rw [← Nat.mul_succ] at hrest
        obtain ⟨others, htail, hothers⟩ := Follows.nest hrest
        have hending : Follows context (depth + levels + 1) 2 [.ofValue (.nestedChoice rest)]
            Script.ending answer (others.map (Mark.within 2)) :=
          Script.follows_ending_iff.2 ⟨others, htail, rfl⟩
        refine ⟨_, (Rule.evaluates_choice_iff hunlimited hchoice).2
          ⟨_, Script.follows_choose_iff.2 (.inr (.inr
            ⟨value, _, _, hdeeper hcondition, hfalse, hending, rfl⟩)), rfl⟩, ?_⟩
        rw [Mark.offSpine_around, List.map_append, Mark.offSpine_append, List.map_append,
          Mark.offSpine_below_within Nat.zero_lt_two, Nat.add_zero, Mark.map_below_within, hothers]

theorem Control.evaluatedOperands_choice (reentry : Reentry σ) (operands : List Rule) (depth : Nat)
    (state : σ) :
    choice.evaluatedOperands reentry context choice.name operands depth state =
      evaluatedChoices (Rule.operandRuns reentry context 0 operands) (depth + 1) state := by
  rw [evaluatedOperands, Registry.admission_choice hunlimited hchoice]
  rfl

end

/-- The positions, in a chain, of the operands that are evaluated in the nested choices.  The tail
of nested choices is not an operand of the chain, and the operands evaluated within it take its
place. -/
def Control.evaluatedNested (reentry : Reentry σ) (context : Context σ) (state : σ) :
    List Value → Nat → List Nat
  | condition :: branch :: rest, depth =>
    (choice.evaluatedOperands reentry context choice.name
        ([condition, branch, .nestedChoice rest].map Rule.ofValue) depth state).flatMap fun
      | 2 => (evaluatedNested reentry context state rest (depth + 1)).map (· + 2)
      | position => [position]
  | operands, depth =>
    choice.evaluatedOperands reentry context choice.name (operands.map Rule.ofValue) depth state

section

variable (honly : context.operators.OnlyBuiltins) (hunlimited : context.options.maxDepth = none)

include honly hunlimited

/-- How a choice goes on after its first condition does not depend on the depth. -/
theorem Control.exists_evaluatedChoices_eq (reentry : Reentry σ) (state : σ) (condition : Rule) :
    ∃ answer : Except RuleError Value, ∀ (branch : Rule) (rest : List Rule) (position depth : Nat),
      evaluatedChoices (Rule.operandRuns reentry context position (condition :: branch :: rest))
          depth state =
        0 :: match answer with
          | .error _ => []
          | .ok value =>
            if value.isTruthy then [1]
            else (evaluatedChoices (Rule.operandRuns reentry context (position + 2) rest) depth
              state).map (· + 2) := by
  obtain ⟨answer, marks, h⟩ := condition.exists_evaluates honly 0
  refine ⟨answer, fun branch rest position depth => ?_⟩
  have hdeeper := h.deeper hunlimited depth
  rw [Nat.zero_add] at hdeeper
  have hrun := Run.within_apply (hdeeper.run_eq reentry state) position
  cases answer with
  | error e => simp [evaluatedChoices, Run.onValue, hrun, Report.mapMarks]
  | ok value => simp [evaluatedChoices, Run.onValue, hrun, Report.mapMarks]

theorem Control.evaluatedChoices_eq (reentry : Reentry σ) (state : σ) : ∀ (operands : List Rule)
    (position depth position' depth' : Nat),
    evaluatedChoices (Rule.operandRuns reentry context position operands) depth state =
      evaluatedChoices (Rule.operandRuns reentry context position' operands) depth' state
  | [], _, _, _, _ => rfl
  | [_], _, _, _, _ => rfl
  | condition :: branch :: rest, position, depth, position', depth' => by
      obtain ⟨answer, hanswer⟩ :=
        exists_evaluatedChoices_eq honly hunlimited reentry state condition
      rw [hanswer, hanswer,
        evaluatedChoices_eq reentry state rest (position + 2) depth (position' + 2) depth']

/-- The nested choices evaluate the operands of the chain that the chain evaluates. -/
theorem Control.evaluatedNested_eq
    (hchoice : context.operators.get? Control.choice.name = some (.builtin (.control .choice)))
    (reentry : Reentry σ) (state : σ) : ∀ (operands : List Value) (depth depth' : Nat),
    evaluatedNested reentry context state operands depth =
      choice.evaluatedOperands reentry context choice.name (operands.map Rule.ofValue) depth' state
  | [], depth, depth' =>
      (evaluatedOperands_choice hunlimited hchoice reentry [] depth state).trans
        (evaluatedOperands_choice hunlimited hchoice reentry [] depth' state).symm
  | [otherwise], depth, depth' =>
      (evaluatedOperands_choice hunlimited hchoice reentry [.ofValue otherwise] depth state).trans
        (evaluatedOperands_choice hunlimited hchoice reentry [.ofValue otherwise] depth' state).symm
  | condition :: branch :: rest, depth, depth' => by
      have hrest := evaluatedNested_eq hchoice reentry state rest (depth + 1) depth'
      rw [evaluatedOperands_choice hunlimited hchoice,
        evaluatedChoices_eq honly hunlimited reentry state _ 0 (depth' + 1) 2 (depth' + 1)] at hrest
      obtain ⟨answer, hanswer⟩ :=
        exists_evaluatedChoices_eq honly hunlimited reentry state (.ofValue condition)
      simp only [evaluatedNested, evaluatedOperands_choice hunlimited hchoice, List.map_cons,
        List.map_nil, hanswer, hrest]
      cases answer with
      | error e => rfl
      | ok value =>
          cases htrue : value.isTruthy with
          | true => simp [htrue]
          | false => simp [htrue, evaluatedChoices]

end

namespace Engine

section

variable {engine : Engine σ} (honly : engine.operators.OnlyBuiltins)
  (hunlimited : engine.options.maxDepth = none)
  (hchoice : engine.operators.get? Control.choice.name = some (.builtin (.control .choice)))

include honly hunlimited hchoice

/-- A chain and its nested choices come to the same answer, and to the same marks but for those of
the choices. -/
theorem apply_nestedChoice (budget : Nat) (data : Value) (state : σ) (operands : List Value) :
    ∃ chain nested, engine.apply budget (.choice operands) data state = some chain ∧
      engine.apply budget (.nestedChoice operands) data state = some nested ∧
      nested.answer = chain.answer ∧ nested.state = chain.state ∧
      Mark.offSpine nested.marks =
        (chain.marks.filter fun mark => mark.place ≠ []).map Mark.nested := by
  obtain ⟨answer, marks, hchain, happly⟩ := engine.exists_apply_eq honly (.choice operands) data
  obtain ⟨inner, hfollows, rfl⟩ := (Rule.evaluates_choice_iff hunlimited hchoice).1 hchain
  have hstart : Follows (engine.context data) (0 + 1) (2 * 0) (operands.map .ofValue)
      (Script.choose operands.length) answer inner := hfollows
  obtain ⟨others, hevaluates, hothers⟩ := hstart.nest hunlimited hchoice
  refine ⟨_, _, happly budget state, hevaluates.run_eq (.ofBudget budget) state, rfl, rfl, ?_⟩
  rw [Mark.map_below_zero] at hothers
  rw [Mark.filter_around _ _ _ (Mark.place_ne_nil_of_map_nested hothers), hothers]

/-- The last branch of a choice may be the choice among the operands after the first two. -/
theorem sameAnswer_choice (budget : Nat) (data : Value) (state : σ) (condition branch : Value)
    (rest : List Value) :
    engine.SameAnswer budget data state (.choice (condition :: branch :: rest))
      (.choice [condition, branch, .choice rest]) := by
  obtain ⟨chain, nested, hchain, hnested, hanswer, -, -⟩ := apply_nestedChoice honly hunlimited
    hchoice budget data state (condition :: branch :: rest)
  obtain ⟨tail, nestedTail, htail, hnestedTail, htailAnswer, -, -⟩ := apply_nestedChoice honly
    hunlimited hchoice budget data state rest
  have hrest : engine.SameAnswer budget data state (.choice rest) (.nestedChoice rest) :=
    ⟨tail, nestedTail, htail, hnestedTail, htailAnswer.symm⟩
  obtain ⟨report, other, hreport, hother, hsame⟩ :=
    hrest.fill honly hunlimited (.here Control.choice.name [condition, branch] [])
  obtain rfl : nested = other := Option.some.inj (hnested.symm.trans hother)
  exact ⟨chain, report, hchain, hreport, hanswer.symm.trans hsame.symm⟩

end

/-- Chains of conditions are nested choices, on the standard operators and without a limit.  The
operands after the first two may stand in a choice of their own; and nested all the way down, a
chain of any length comes to the same answer, with the same operands evaluated in the same order and
with the same marks within them, at the places to which they are moved. -/
theorem choice_nested (budget : Nat) (data : Value) (state : σ) :
    (∀ condition branch rest, standard.SameAnswer budget data state
      (.choice (condition :: branch :: rest)) (.choice [condition, branch, .choice rest])) ∧
    ∀ operands,
      (∃ chain nested, standard.apply budget (.choice operands) data state = some chain ∧
        standard.apply budget (.nestedChoice operands) data state = some nested ∧
        nested.answer = chain.answer ∧ nested.state = chain.state ∧
        Mark.offSpine nested.marks =
          (chain.marks.filter fun mark => mark.place ≠ []).map Mark.nested) ∧
      Control.evaluatedNested (.ofBudget budget) (standard.context data) state operands 0 =
        Control.choice.evaluatedOperands (.ofBudget budget) (standard.context data)
          Control.choice.name (operands.map Rule.ofValue) 0 state := by
  have honly : (standard : Engine σ).operators.OnlyBuiltins := Registry.onlyBuiltins_standard
  have hunlimited : (standard : Engine σ).options.maxDepth = none := rfl
  have hmem : Builtin.control .choice ∈ Builtin.standard := by simp [Builtin.standard]
  have hchoice : (standard : Engine σ).operators.get? Control.choice.name =
      some (.builtin (.control .choice)) := by
    change Registry.standard.get? (Builtin.control .choice).name = _
    exact Registry.get?_standard_name hmem
  refine ⟨fun condition branch rest => ?_, fun operands => ⟨?_, ?_⟩⟩
  · exact sameAnswer_choice honly hunlimited hchoice budget data state condition branch rest
  · exact apply_nestedChoice honly hunlimited hchoice budget data state operands
  · have hcontext : (standard.context data : Context σ).operators.OnlyBuiltins := honly
    exact Control.evaluatedNested_eq hcontext hunlimited hchoice (.ofBudget budget) state operands
      0 0

end Engine

end JsonRules
