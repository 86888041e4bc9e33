import JsonRules.Proofs.Derivation
import Mathlib.Data.List.Forall2

/-!
Rules with an open place.

What an operation comes to depends on what its operands come to and not on how they are written
(`Rule.AnswersLike.of_operands`).  So rules of one answer may stand for each other anywhere within a
rule (`Engine.sameAnswer_fill`), and logging the value of an operand changes no answer.
-/

namespace JsonRules

variable {σ : Type} {context : Context σ}

/-- To whatever the one rule comes at some depth, the other comes at every depth. -/
def Rule.AnswersLike (context : Context σ) (rule other : Rule) : Prop :=
  ∀ depth answer marks, Evaluates context depth rule answer marks →
    ∀ depth', ∃ marks', Evaluates context depth' other answer marks'

theorem Follows.of_answersLike {operands others : List Rule}
    (hoperands : List.Forall₂ (Rule.AnswersLike context) operands others) (depth' : Nat)
    {depth position : Nat} {script : Script} {answer : Except RuleError Value}
    {marks : List Mark} :
    Follows context depth position operands script answer marks →
      ∃ marks', Follows context depth' position others script answer marks'
  | .ok => ⟨_, .ok⟩
  | .error => ⟨_, .error⟩
  | .operand hfirst hnext => by
      cases hoperands with
      | cons halike hrest =>
          obtain ⟨_, hfirst'⟩ := halike _ _ _ hfirst depth'
          obtain ⟨_, hnext'⟩ := hnext.of_answersLike hrest depth'
          exact ⟨_, .operand hfirst' hnext'⟩
  | .operandError hfirst => by
      cases hoperands with
      | cons halike hrest =>
          obtain ⟨_, hfirst'⟩ := halike _ _ _ hfirst depth'
          exact ⟨_, .operandError hfirst'⟩
  | .skip hnext => by
      cases hoperands with
      | cons halike hrest =>
          obtain ⟨_, hnext'⟩ := hnext.of_answersLike hrest depth'
          exact ⟨_, .skip hnext'⟩
  | .lookup hnext => by
      obtain ⟨_, hnext'⟩ := hnext.of_answersLike hoperands depth'
      exact ⟨_, .lookup hnext'⟩
  | .log hnext => by
      obtain ⟨_, hnext'⟩ := hnext.of_answersLike hoperands depth'
      exact ⟨_, .log hnext'⟩

namespace Rule

theorem AnswersLike.of_operands (hunlimited : context.options.maxDepth = none)
    {rule other : Rule} {name : String} {operands others : List Rule}
    (hrule : rule.operation? = some (name, operands))
    (hother : other.operation? = some (name, others))
    (hoperands : List.Forall₂ (AnswersLike context) operands others) :
    rule.AnswersLike context other := by
  intro depth answer marks h depth'
  have hadmission : context.operators.admission context.options depth name operands.length =
      context.operators.admission context.options depth' name others.length := by
    rw [hoperands.length_eq]
    exact Registry.admission_of_unlimited _ hunlimited depth depth' name _
  cases h with
  | literal => cases hrule
  | refused hsame hrefused =>
      rw [hrule] at hsame
      cases hsame
      exact ⟨_, .refused hother (hadmission ▸ hrefused)⟩
  | entered hsame hadmitted hfollows =>
      rw [hrule] at hsame
      cases hsame
      obtain ⟨_, hfollows'⟩ := hfollows.of_answersLike hoperands (depth' + 1)
      rw [hoperands.length_eq] at hfollows'
      exact ⟨_, .entered hother (hadmission ▸ hadmitted) hfollows'⟩

/-- Without a limit, a rule comes to the same answer at every depth. -/
theorem answersLike_self (hunlimited : context.options.maxDepth = none) (rule : Rule) :
    rule.AnswersLike context rule := by
  induction rule using Rule.induct with
  | literal value =>
      intro depth answer marks h depth'
      cases h with
      | literal => exact ⟨_, .literal⟩
      | refused hrule hrefused => cases hrule
      | entered hrule hadmitted hfollows => cases hrule
  | operation rule name operands hrule ih =>
      exact .of_operands hunlimited hrule hrule (List.forall₂_same.2 ih)

end Rule

/-- Without a limit, a rule has one answer, whatever the depths. -/
theorem Evaluates.answer_unique (hunlimited : context.options.maxDepth = none) (state : σ)
    {rule : Rule} {depth depth' : Nat} {answer answer' : Except RuleError Value}
    {marks marks' : List Mark} (h : Evaluates context depth rule answer marks)
    (h' : Evaluates context depth' rule answer' marks') : answer = answer' := by
  obtain ⟨others, hmoved⟩ := rule.answersLike_self hunlimited _ _ _ h depth'
  have hrun := hmoved.run_eq (.ofBudget 0) state
  rw [h'.run_eq (.ofBudget 0) state] at hrun
  cases hrun
  rfl

/-- A rule with one open place among the listed operands of an operation, which may stand anywhere
within the rule. -/
inductive OpenRule
  /-- The open place is a listed operand. -/
  | here (name : String) (before after : List Value)
  /-- The open place is within a listed operand. -/
  | within (name : String) (before : List Value) (inner : OpenRule) (after : List Value)
  /-- The open place is within an only operand that is written without a list. -/
  | alone (name : String) (inner : OpenRule)

namespace OpenRule

/-- The rule with the open place filled. -/
def fill (filling : Value) : OpenRule → Value
  | .here name before after => .object [(name, .array (before ++ filling :: after))]
  | .within name before inner after =>
    .object [(name, .array (before ++ inner.fill filling :: after))]
  | .alone name inner => .object [(name, inner.fill filling)]

theorem exists_fill_eq_object (opened : OpenRule) (filling : Value) :
    ∃ fields, opened.fill filling = .object fields := by
  cases opened with
  | here name before after => exact ⟨_, rfl⟩
  | within name before inner after => exact ⟨_, rfl⟩
  | alone name inner => exact ⟨_, rfl⟩

/-- Every listed operand within a rule fills an open place. -/
theorem exists_fill_eq {rule : Value} {outer : List Nat} {name : String} {operands : List Rule}
    {position : Nat} {inner : Rule}
    (hlisted : (Rule.ofValue rule).at? outer = some (.operation name operands))
    (hinner : operands[position]? = some inner) :
    ∃ opened : OpenRule, opened.fill inner.toValue = rule := by
  induction outer generalizing rule with
  | nil =>
      rw [Rule.at?_nil, Option.some.injEq] at hlisted
      obtain ⟨items, rfl, rfl⟩ := Rule.eq_object_of_ofValue_eq hlisted
      rw [List.getElem?_map, Option.map_eq_some_iff] at hinner
      obtain ⟨item, hitem, rfl⟩ := hinner
      obtain ⟨before, after, rfl⟩ := List.append_of_mem (List.mem_of_getElem? hitem)
      refine ⟨.here name before after, ?_⟩
      rw [fill, Rule.toValue_ofValue]
  | cons place rest ih =>
      cases hrule : (Rule.ofValue rule).operation? with
      | none => simp [Rule.at?, hrule] at hlisted
      | some operation =>
          obtain ⟨operand, hoperand, hrest⟩ := Rule.exists_at?_of_cons hrule hlisted
          rcases Rule.eq_object_of_operation? hrule with ⟨items, rfl, hitems⟩ |
            ⟨argument, rfl, hargument⟩
          · rw [hitems, List.getElem?_map, Option.map_eq_some_iff] at hoperand
            obtain ⟨item, hitem, rfl⟩ := hoperand
            obtain ⟨opened, rfl⟩ := ih hrest
            obtain ⟨before, after, rfl⟩ := List.append_of_mem (List.mem_of_getElem? hitem)
            exact ⟨.within operation.1 before opened after, rfl⟩
          · have hargument' : operand = .ofValue argument := by
              rw [hargument] at hoperand
              exact List.mem_singleton.1 (List.mem_of_getElem? hoperand)
            rw [hargument'] at hrest
            obtain ⟨opened, rfl⟩ := ih hrest
            exact ⟨.alone operation.1 opened, rfl⟩

theorem answersLike_listed (hunlimited : context.options.maxDepth = none) (name : String)
    (before after : List Value) {r₁ r₂ : Value}
    (h : (Rule.ofValue r₁).AnswersLike context (.ofValue r₂)) :
    (Rule.ofValue (.object [(name, .array (before ++ r₁ :: after))])).AnswersLike context
      (.ofValue (.object [(name, .array (before ++ r₂ :: after))])) := by
  have hsame (values : List Value) :
      List.Forall₂ (Rule.AnswersLike context) (values.map Rule.ofValue)
        (values.map Rule.ofValue) :=
    List.forall₂_same.2 fun rule _ => rule.answersLike_self hunlimited
  apply Rule.AnswersLike.of_operands hunlimited (Rule.operation?_ofValue_listed name _)
    (Rule.operation?_ofValue_listed name _)
  rw [List.map_append, List.map_append]
  exact List.rel_append (hsame before) (.cons h (hsame after))

/-- Filled with rules that answer alike, an open rule answers alike. -/
theorem answersLike_fill (hunlimited : context.options.maxDepth = none) (opened : OpenRule)
    {r₁ r₂ : Value} (h : (Rule.ofValue r₁).AnswersLike context (.ofValue r₂)) :
    (Rule.ofValue (opened.fill r₁)).AnswersLike context (.ofValue (opened.fill r₂)) := by
  induction opened with
  | here name before after => exact answersLike_listed hunlimited name before after h
  | within name before inner after ih => exact answersLike_listed hunlimited name before after ih
  | alone name inner ih =>
      obtain ⟨fields, hfirst⟩ := inner.exists_fill_eq_object r₁
      obtain ⟨others, hsecond⟩ := inner.exists_fill_eq_object r₂
      rw [hfirst, hsecond] at ih
      rw [fill, fill, hfirst, hsecond]
      exact .of_operands hunlimited (Rule.operation?_ofValue_alone name fields)
        (Rule.operation?_ofValue_alone name others) (.cons ih .nil)

end OpenRule

/-- A rule whose value is written to the log. -/
def Value.logged (rule : Value) : Value := .object [(Builtin.log.name, .array [rule])]

/-- Logging the value of a rule does not change the answer. -/
theorem Rule.answersLike_logged (hunlimited : context.options.maxDepth = none)
    (hlog : context.operators.get? Builtin.log.name = some (.builtin .log)) (rule : Value) :
    (Rule.ofValue rule).AnswersLike context (.ofValue rule.logged) := by
  intro depth answer marks h depth'
  have hadmitted : context.operators.admission context.options depth' Builtin.log.name 1 =
      .ok (.builtin .log) :=
    Registry.admission_of_unlimited_of_accepts hunlimited hlog rfl depth'
  obtain ⟨_, hrule⟩ := (Rule.ofValue rule).answersLike_self hunlimited _ _ _ h (depth' + 1)
  have hfollows : ∃ marks', Follows context (depth' + 1) 0 [.ofValue rule] (Builtin.log.script 1)
      answer marks' := by
    cases answer with
    | ok value => exact ⟨_, .operand hrule (.log .ok)⟩
    | error e => exact ⟨_, .operandError hrule⟩
  obtain ⟨_, hfollows⟩ := hfollows
  exact ⟨_, .entered (operation?_ofValue_listed _ [rule]) hadmitted hfollows⟩

namespace Engine

/-- Two rules come to the same answer. -/
def SameAnswer (engine : Engine σ) (budget : Nat) (data : Value) (state : σ) (r₁ r₂ : Value) :
    Prop :=
  ∃ report other, engine.apply budget r₁ data state = some report ∧
    engine.apply budget r₂ data state = some other ∧ report.answer = other.answer

/-- Where nothing is limited and no host operator is registered, rules that answer alike are those
that come to the same answer. -/
theorem sameAnswer_iff {engine : Engine σ} (honly : engine.operators.OnlyBuiltins)
    (hunlimited : engine.options.maxDepth = none) (budget : Nat) (data : Value) (state : σ)
    (r₁ r₂ : Value) :
    engine.SameAnswer budget data state r₁ r₂ ↔
      (Rule.ofValue r₁).AnswersLike (engine.context data) (.ofValue r₂) := by
  obtain ⟨answer₁, marks₁, h₁, happly₁⟩ := engine.exists_apply_eq honly r₁ data
  obtain ⟨answer₂, marks₂, h₂, happly₂⟩ := engine.exists_apply_eq honly r₂ data
  constructor
  · rintro ⟨report, other, hreport, hother, hsame⟩ depth answer marks h depth'
    rw [happly₁] at hreport
    rw [happly₂] at hother
    cases hreport
    cases hother
    have hanswer : answer = answer₂ := (h.answer_unique hunlimited state h₁).trans hsame
    rw [hanswer]
    exact Rule.answersLike_self hunlimited _ _ _ _ h₂ depth'
  · intro h
    obtain ⟨_, hlike⟩ := h _ _ _ h₁ 0
    have hanswer : answer₁ = answer₂ := hlike.answer_unique hunlimited state h₂
    exact ⟨_, _, happly₁ budget state, happly₂ budget state, hanswer⟩

section

variable {engine : Engine σ} (honly : engine.operators.OnlyBuiltins)
  (hunlimited : engine.options.maxDepth = none) {budget : Nat} {data : Value} {state : σ}
include honly hunlimited

/-- Rules of one answer may stand for each other in any open place. -/
theorem SameAnswer.fill {r₁ r₂ : Value} (h : engine.SameAnswer budget data state r₁ r₂)
    (opened : OpenRule) :
    engine.SameAnswer budget data state (opened.fill r₁) (opened.fill r₂) := by
  rw [sameAnswer_iff honly hunlimited] at h ⊢
  exact opened.answersLike_fill hunlimited h

/-- Logging its value keeps the answer of a rule. -/
theorem sameAnswer_logged
    (hlog : engine.operators.get? Builtin.log.name = some (.builtin .log)) (rule : Value) :
    engine.SameAnswer budget data state rule rule.logged := by
  rw [sameAnswer_iff honly hunlimited]
  exact Rule.answersLike_logged hunlimited hlog rule

end

/-- Rules that come to the same answer on some data may stand for each other among the listed
operands of any operation in a rule, and the rule comes to the same answer; so it does where an
operand is replaced by one that logs its value. -/
theorem sameAnswer_fill (opened : OpenRule) (budget : Nat) (data : Value) (state : σ) :
    (∀ r₁ r₂, standard.SameAnswer budget data state r₁ r₂ →
        standard.SameAnswer budget data state (opened.fill r₁) (opened.fill r₂)) ∧
      ∀ rule, standard.SameAnswer budget data state (opened.fill rule)
        (opened.fill rule.logged) := by
  have honly : (standard : Engine σ).operators.OnlyBuiltins := Registry.onlyBuiltins_standard
  have hunlimited : (standard : Engine σ).options.maxDepth = none := rfl
  have hlog : (standard : Engine σ).operators.get? Builtin.log.name = some (.builtin .log) :=
    Registry.get?_standard_name (by simp [Builtin.standard])
  constructor
  · intro r₁ r₂ h
    exact h.fill honly hunlimited opened
  · intro rule
    exact (sameAnswer_logged honly hunlimited hlog rule).fill honly hunlimited opened

/-- A condition that is open within a negation. -/
def openCondition : OpenRule :=
  .within "if" [] (.alone "!" (.here "and" [.bool true] [])) [.string "off", .string "on"]

/-- A negated constant and a conjunction of one operand may stand for each other in it. -/
theorem sameAnswer_openCondition :
    SameAnswer (σ := Unit) standard 0 .null () (.object [("!", .bool false)])
        (.object [("and", .array [.bool true])]) ∧
      SameAnswer (σ := Unit) standard 0 .null ()
        (openCondition.fill (.object [("!", .bool false)]))
        (openCondition.fill (.object [("and", .array [.bool true])])) := by
  have hsame : SameAnswer (σ := Unit) standard 0 .null () (.object [("!", .bool false)])
      (.object [("and", .array [.bool true])]) := ⟨_, _, rfl, rfl, rfl⟩
  obtain ⟨hfill, -⟩ := sameAnswer_fill openCondition 0 .null ()
  exact ⟨hsame, hfill _ _ hsame⟩

end Engine

end JsonRules
