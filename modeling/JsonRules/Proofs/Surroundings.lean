import JsonRules.Engine
import JsonRules.Proofs.Admission
import JsonRules.Proofs.Operations
import Mathlib.Data.List.Forall2

/-!
Rules in their surroundings, and the verdict on them.

A rule may stand as an operand in layers of operations.  The check of an operation depends on its
name, on the number of its operands and on how these are checked (`Rule.CheckedLike.of_operands`),
so rules that are checked alike get the same verdict within the same layers
(`Engine.verdict_surrounded`).
-/

namespace JsonRules

variable {σ : Type}

def Value.operation (name : String) (operands : List Value) : Value :=
  .object [(name, .array operands)]

theorem Rule.operation?_ofValue_operation (name : String) (operands : List Value) :
    (ofValue (.operation name operands)).operation? = some (name, operands.map ofValue) :=
  operation?_ofValue_listed name operands

/-- What the check of an engine comes to: the rule passes, or there is an error. -/
def Engine.verdict (engine : Engine σ) (rule : Value) : Except RuleError Unit :=
  (engine.check rule).map fun _ => ()

theorem Engine.verdict_eq (engine : Engine σ) (rule : Value) :
    engine.verdict rule = (Rule.ofValue rule).check engine.operators engine.options 0 := by
  rw [verdict, check]
  cases (Rule.ofValue rule).check engine.operators engine.options 0 <;> rfl

/-- At every depth the check comes to the same for both rules. -/
def Rule.CheckedLike (operators : Registry σ) (options : Options) (rule other : Rule) : Prop :=
  ∀ depth, rule.check operators options depth = other.check operators options depth

section

variable {operators : Registry σ} {options : Options}

theorem Rule.checkAll_of_checkedLike {rules others : List Rule}
    (h : List.Forall₂ (CheckedLike operators options) rules others) (depth : Nat) :
    checkAll operators options depth rules = checkAll operators options depth others := by
  induction h with
  | nil => rfl
  | cons hrule _ ih => rw [checkAll, checkAll, hrule depth, ih]

/-- Operations of one name are checked alike if their operands are, one by one. -/
theorem Rule.CheckedLike.of_operands {rule other : Rule} {name : String}
    {operands others : List Rule} (hrule : rule.operation? = some (name, operands))
    (hother : other.operation? = some (name, others))
    (h : List.Forall₂ (CheckedLike operators options) operands others) :
    CheckedLike operators options rule other := by
  intro depth
  rw [check_of_operation? hrule, check_of_operation? hother, h.length_eq,
    checkAll_of_checkedLike h (depth + 1)]

/-- Operations of a raw operator are checked alike whatever their operands, if there are as many of
them. -/
theorem Rule.CheckedLike.of_raw {rule other : Rule} {name : String} {operands others : List Rule}
    {operator : Operator σ} (hget : operators.get? name = some operator)
    (hraw : operator.signature.mode = .raw) (hrule : rule.operation? = some (name, operands))
    (hother : other.operation? = some (name, others)) (hlength : others.length = operands.length) :
    CheckedLike operators options rule other := by
  have hmode : ∀ depth mode,
      operators.checkNode options depth name operands.length = .ok mode → mode = .raw := by
    intro depth mode hnode
    obtain ⟨found, hadmitted, rfl⟩ := checkNode_eq_ok_iff.1 hnode
    rw [(Registry.admission_eq_ok_iff.1 hadmitted).1, Option.some.injEq] at hget
    rw [hget, hraw]
  intro depth
  rw [check_of_operation? hrule, check_of_operation? hother, hlength]
  cases hnode : operators.checkNode options depth name operands.length with
  | error e => rfl
  | ok mode =>
      rw [hmode depth mode hnode]
      rfl

end

/-- An operation around one of its operands. -/
inductive Layer
  /-- The operand stands in a list, after and before others. -/
  | listed (name : String) (before after : List Value)
  /-- The operand is the only one and is written without a list. -/
  | alone (name : String)

/-- The operation with the operand put in. -/
def Layer.around (operand : Value) : Layer → Value
  | .listed name before after => .operation name (before ++ operand :: after)
  | .alone name => .object [(name, operand)]

/-- A rule in layers of operations, of which the first is the outermost. -/
def Value.surrounded (rule : Value) (layers : List Layer) : Value :=
  layers.foldr (fun layer inner => layer.around inner) rule

theorem Layer.exists_around_eq_object (layer : Layer) (operand : Value) :
    ∃ fields, layer.around operand = .object fields := by
  cases layer with
  | listed name before after => exact ⟨_, rfl⟩
  | alone name => exact ⟨_, rfl⟩

theorem Rule.exists_eq_object {value : Value} {operation : String × List Rule}
    (h : (ofValue value).operation? = some operation) : ∃ fields, value = .object fields := by
  rcases eq_object_of_operation? h with ⟨items, rfl, -⟩ | ⟨argument, rfl, -⟩
  · exact ⟨_, rfl⟩
  · exact ⟨_, rfl⟩

/-- Objects that are checked alike are so as an operand of the same operation. -/
theorem Rule.CheckedLike.around {operators : Registry σ} {options : Options}
    {fields others : List (String × Value)}
    (h : CheckedLike operators options (ofValue (.object fields)) (ofValue (.object others)))
    (layer : Layer) :
    CheckedLike operators options (ofValue (layer.around (.object fields)))
      (ofValue (layer.around (.object others))) := by
  have hsame (rules : List Rule) :
      List.Forall₂ (CheckedLike operators options) rules rules :=
    List.forall₂_same.2 fun _ _ _ => rfl
  cases layer with
  | listed name before after =>
      apply of_operands (operation?_ofValue_operation name _) (operation?_ofValue_operation name _)
      rw [List.map_append, List.map_append]
      exact List.rel_append (hsame _) (.cons h (hsame _))
  | alone name =>
      exact of_operands (operation?_ofValue_alone name fields)
        (operation?_ofValue_alone name others) (.cons h .nil)

/-- Objects that are checked alike get the same verdict in the same surroundings. -/
theorem Engine.verdict_surrounded (engine : Engine σ) {fields others : List (String × Value)}
    (h : Rule.CheckedLike engine.operators engine.options (.ofValue (.object fields))
      (.ofValue (.object others))) (layers : List Layer) :
    engine.verdict (Value.surrounded (.object fields) layers) =
      engine.verdict (Value.surrounded (.object others) layers) := by
  have hlayers : Rule.CheckedLike engine.operators engine.options
      (.ofValue (Value.surrounded (.object fields) layers))
      (.ofValue (Value.surrounded (.object others) layers)) := by
    induction layers with
    | nil => exact h
    | cons layer rest ih =>
        have hobject (inner : List (String × Value)) :
            ∃ outer, Value.surrounded (.object inner) rest = .object outer := by
          cases rest with
          | nil => exact ⟨inner, rfl⟩
          | cons next more => exact next.exists_around_eq_object _
        obtain ⟨first, hfirst⟩ := hobject fields
        obtain ⟨second, hsecond⟩ := hobject others
        rw [hfirst, hsecond] at ih
        simp only [Value.surrounded, List.foldr_cons] at hfirst hsecond ⊢
        rw [hfirst, hsecond]
        exact ih.around layer
  rw [verdict_eq, verdict_eq]
  exact hlayers 0

end JsonRules
