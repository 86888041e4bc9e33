import JsonRules.Evaluation
import JsonRules.Validation

/-!
Operations of a rule.

An operation is written with a list of operands or with a single operand, and `Rule.operation?` sees
no difference.  `Rule.at?` goes from a rule to the rules within it, by positions of operands.
Evaluating and checking an operation depend on what `Rule.operation?` gives and on nothing else
(`Rule.run_of_operation?`, `Rule.check_of_operation?`).
-/

namespace JsonRules

variable {σ : Type}

namespace Rule

/-- The name and the operands of an operation, however it is written. -/
def operation? : Rule → Option (String × List Rule)
  | .literal _ => none
  | .operation name operands => some (name, operands)
  | .shorthand name operand => some (name, [operand])

theorem ofValues_eq_map (values : List Value) : ofValues values = values.map ofValue := by
  induction values with
  | nil => rfl
  | cons value rest ih => rw [ofValues, ih, List.map_cons]

theorem operation?_ofValue_listed (name : String) (items : List Value) :
    (ofValue (.object [(name, .array items)])).operation? = some (name, items.map ofValue) := by
  rw [ofValue, operation?, ofValues_eq_map]

/-- An operation is spelled with a list of operands, or with its only operand as it is. -/
theorem eq_object_of_operation? {value : Value} {name : String} {operands : List Rule}
    (h : (ofValue value).operation? = some (name, operands)) :
    (∃ items, value = .object [(name, .array items)] ∧ operands = items.map ofValue) ∨
      ∃ argument, value = .object [(name, argument)] ∧ operands = [ofValue argument] := by
  unfold ofValue at h
  split at h
  · cases h
    exact .inl ⟨_, rfl, ofValues_eq_map _⟩
  · cases h
    exact .inr ⟨_, rfl, rfl⟩
  · cases h

theorem eq_object_of_ofValue_eq {value : Value} {name : String} {operands : List Rule}
    (h : ofValue value = .operation name operands) :
    ∃ items, value = .object [(name, .array items)] ∧ operands = items.map ofValue := by
  unfold ofValue at h
  split at h
  · cases h
    exact ⟨_, rfl, ofValues_eq_map _⟩
  · cases h
  · cases h

/-- An object as the only operand is written without a list. -/
theorem operation?_ofValue_alone (name : String) (fields : List (String × Value)) :
    (ofValue (.object [(name, .object fields)])).operation? =
      some (name, [ofValue (.object fields)]) := by
  rw [ofValue, operation?]
  simp

/-- The rule at a place, which is found by going to the operands of these positions one after
another. -/
def at? (rule : Rule) : List Nat → Option Rule
  | [] => some rule
  | position :: rest => do
      let (_, operands) ← rule.operation?
      let operand ← operands[position]?
      operand.at? rest

@[simp] theorem at?_nil (rule : Rule) : rule.at? [] = some rule := by
  cases rule <;> rfl

theorem at?_cons {rule operand : Rule} {name : String} {operands : List Rule} {position : Nat}
    (hrule : rule.operation? = some (name, operands))
    (hoperand : operands[position]? = some operand) (rest : List Nat) :
    rule.at? (position :: rest) = operand.at? rest := by
  simp [at?, hrule, hoperand]

/-- What is found within an operation is found within one of its operands. -/
theorem exists_at?_of_cons {rule inner : Rule} {name : String} {operands : List Rule}
    {position : Nat} {rest : List Nat} (hrule : rule.operation? = some (name, operands))
    (h : rule.at? (position :: rest) = some inner) :
    ∃ operand, operands[position]? = some operand ∧ operand.at? rest = some inner := by
  simpa [at?, hrule, Option.bind_eq_some_iff] using h

/-- Induction on rules: what holds of the operands of an operation, however it is written, is to
hold of the operation. -/
theorem induct {motive : Rule → Prop} (literal : ∀ value, motive (.literal value))
    (operation : ∀ rule name operands, rule.operation? = some (name, operands) →
      (∀ operand ∈ operands, motive operand) → motive rule) (rule : Rule) : motive rule := by
  refine @Rule.rec motive (fun operands => ∀ operand ∈ operands, motive operand) literal
    (fun name operands hoperands => operation _ name operands rfl hoperands)
    (fun name operand hoperand => operation _ name [operand] rfl ?_) ?_ ?_ rule
  · simpa using hoperand
  · simp
  · intro operand rest hoperand hrest
    simpa using ⟨hoperand, hrest⟩

/-- The runs of operands from a position on, with their marks placed in the operation around
them. -/
def operandRuns (reentry : Reentry σ) (context : Context σ) (position : Nat)
    (operands : List Rule) : List (Run σ Value) :=
  (Rule.operands reentry context position operands).map Operand.run

@[simp] theorem operandRuns_nil (reentry : Reentry σ) (context : Context σ) (position : Nat) :
    operandRuns reentry context position [] = [] := by
  rw [operandRuns, Rule.operands, List.map_nil]

@[simp] theorem operandRuns_cons (reentry : Reentry σ) (context : Context σ) (position : Nat)
    (operand : Rule) (rest : List Rule) :
    operandRuns reentry context position (operand :: rest) =
      (operand.run reentry context).within position ::
        operandRuns reentry context (position + 1) rest := rfl

@[simp] theorem length_operands (reentry : Reentry σ) (context : Context σ) (position : Nat)
    (operands : List Rule) :
    (Rule.operands reentry context position operands).length = operands.length := by
  induction operands generalizing position with
  | nil => rfl
  | cons operand rest ih => simp [Rule.operands, ih]

@[simp] theorem length_operandRuns (reentry : Reentry σ) (context : Context σ) (position : Nat)
    (operands : List Rule) :
    (operandRuns reentry context position operands).length = operands.length := by
  rw [operandRuns, List.length_map, length_operands]

theorem getElem?_operandRuns (reentry : Reentry σ) (context : Context σ) (position : Nat)
    (operands : List Rule) (index : Nat) :
    (operandRuns reentry context position operands)[index]? =
      operands[index]?.map fun rule => (rule.run reentry context).within (position + index) := by
  induction operands generalizing position index with
  | nil => rfl
  | cons operand rest ih =>
      cases index with
      | zero => rfl
      | succ index =>
          rw [operandRuns_cons, List.getElem?_cons_succ, List.getElem?_cons_succ, ih,
            Nat.add_right_comm, Nat.add_assoc]

/-- Each operand that is handed to an operator runs one of the rules, in its place. -/
theorem exists_run_of_mem_operands {reentry : Reentry σ} {context : Context σ} {position : Nat}
    {rules : List Rule} {operand : Operand σ}
    (h : operand ∈ Rule.operands reentry context position rules) :
    ∃ rule ∈ rules, ∃ place, operand.run = (rule.run reentry context).within place := by
  induction rules generalizing position with
  | nil => simp [Rule.operands] at h
  | cons first rest ih =>
      rw [Rule.operands, List.mem_cons] at h
      rcases h with rfl | h
      · exact ⟨first, List.mem_cons_self, position, rfl⟩
      · obtain ⟨rule, hrule, place, hrun⟩ := ih h
        exact ⟨rule, List.mem_cons_of_mem first hrule, place, hrun⟩

/-- An operation is run by handing its operands to the dispatcher. -/
theorem run_of_operation? {rule : Rule} {name : String} {operands : List Rule}
    (hrule : rule.operation? = some (name, operands)) (reentry : Reentry σ)
    (context : Context σ) :
    rule.run reentry context =
      dispatch reentry context name (Rule.operands reentry context 0 operands) := by
  cases rule with
  | literal value => simp [operation?] at hrule
  | operation name' operands' =>
      simp only [operation?, Option.some.injEq, Prod.mk.injEq] at hrule
      obtain ⟨rfl, rfl⟩ := hrule
      rfl
  | shorthand name' operand =>
      simp only [operation?, Option.some.injEq, Prod.mk.injEq] at hrule
      obtain ⟨rfl, rfl⟩ := hrule
      rfl

/-- An operation is checked by itself and, below an eager operator, by its operands. -/
theorem check_of_operation? {rule : Rule} {name : String} {operands : List Rule}
    (hrule : rule.operation? = some (name, operands)) (operators : Registry σ)
    (options : Options) (depth : Nat) :
    rule.check operators options depth =
      (operators.checkNode options depth name operands.length).bind fun
        | .raw => .ok ()
        | .eager => Rule.checkAll operators options (depth + 1) operands := by
  cases rule with
  | literal value => simp [operation?] at hrule
  | operation name' operands' =>
      simp only [operation?, Option.some.injEq, Prod.mk.injEq] at hrule
      obtain ⟨rfl, rfl⟩ := hrule
      rw [Rule.check]
      rfl
  | shorthand name' operand =>
      simp only [operation?, Option.some.injEq, Prod.mk.injEq] at hrule
      obtain ⟨rfl, rfl⟩ := hrule
      rw [Rule.check]
      change (operators.checkNode options depth name' 1).bind _ = _
      congr 1
      funext mode
      cases mode with
      | raw => rfl
      | eager =>
          cases hoperand : operand.check operators options (depth + 1) <;>
            simp [Rule.checkAll, hoperand, bind, Except.bind]

/-- Rules pass together if each of them passes. -/
theorem checkAll_eq_ok_iff {operators : Registry σ} {options : Options} {depth : Nat}
    {rules : List Rule} :
    Rule.checkAll operators options depth rules = .ok () ↔
      ∀ rule ∈ rules, rule.check operators options depth = .ok () := by
  induction rules with
  | nil => simp [Rule.checkAll]
  | cons rule rest ih =>
      rw [Rule.checkAll]
      cases hrule : rule.check operators options depth with
      | error e => simp [hrule, bind, Except.bind]
      | ok _ => simp [hrule, bind, Except.bind, ih]

end Rule

end JsonRules
