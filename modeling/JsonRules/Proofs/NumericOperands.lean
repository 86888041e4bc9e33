import JsonRules.Proofs.JoinedSums
import JsonRules.Proofs.OperatorFit

/-!
Operands that must be numbers.

Ten operators read all their operands as numbers and make something of the readings
(`Function.concludesWith_of_numericKind?`).  They fail alike, at the first operand that has no
reading (`readings_eq`), and what stands before it has no part in that.  Operators that read each
operand when its turn comes may as well read all operands first (`combine_eq`).
-/

namespace JsonRules

namespace Numeric

/-- The first value without a numeric reading. -/
def unreadable? (values : List Value) : Option Value :=
  values.find? fun value => value.toNumber?.isNone

theorem unreadable?_eq_none_iff {values : List Value} :
    unreadable? values = none ↔ AllRead values := by
  simp [unreadable?, AllRead]

theorem mem_of_unreadable? {values : List Value} {value : Value}
    (h : unreadable? values = some value) : value ∈ values :=
  List.mem_of_find?_eq_some h

theorem toNumber?_of_unreadable? {values : List Value} {value : Value}
    (h : unreadable? values = some value) : value.toNumber? = none := by
  have hnone := List.find?_some (p := fun value : Value => value.toNumber?.isNone) h
  exact Option.isNone_iff_eq_none.1 hnone

theorem unreadable?_cons_of_none {value : Value} (h : value.toNumber? = none)
    (rest : List Value) : unreadable? (value :: rest) = some value := by
  simp [unreadable?, h]

theorem unreadable?_cons_of_some {value : Value} {x : Binary64} (h : value.toNumber? = some x)
    (rest : List Value) : unreadable? (value :: rest) = unreadable? rest := by
  simp [unreadable?, h]

theorem reading_of_none {value : Value} (h : value.toNumber? = none) (operator : String) :
    reading operator value = .error (.notNumeric operator value) := by
  simp [reading, h]

theorem reading_of_some {value : Value} {x : Binary64} (h : value.toNumber? = some x)
    (operator : String) : reading operator value = .ok x := by
  simp [reading, h]

/-- The readings of values, unless one of them has none: then the first such value is to blame. -/
theorem readings_eq (operator : String) (values : List Value) :
    readings operator values =
      match unreadable? values with
      | none => .ok (readingsOf values)
      | some value => .error (.notNumeric operator value) := by
  induction values with
  | nil => rfl
  | cons value rest ih =>
      cases hvalue : value.toNumber? with
      | none => rw [readings, reading_of_none hvalue, unreadable?_cons_of_none hvalue]
      | some x =>
          rw [readings, reading_of_some hvalue, unreadable?_cons_of_some hvalue, ih, readingsOf,
            readingsOf, List.filterMap_cons_some hvalue]
          cases unreadable? rest <;> rfl

theorem readings_of_allRead {values : List Value} (h : AllRead values) (operator : String) :
    readings operator values = .ok (readingsOf values) := by
  rw [readings_eq, unreadable?_eq_none_iff.2 h]

/-- The readings stand in the places of the values. -/
theorem map_toNumber?_of_allRead {values : List Value} (h : AllRead values) :
    values.map Value.toNumber? = (readingsOf values).map some := by
  induction values with
  | nil => rfl
  | cons value rest ih =>
      obtain ⟨hvalue, hrest⟩ := List.forall_mem_cons.1 h
      obtain ⟨x, hx⟩ := Option.ne_none_iff_exists'.1 hvalue
      rw [List.map_cons, ih hrest, readingsOf, readingsOf, List.filterMap_cons_some hx, hx,
        List.map_cons]

theorem length_readingsOf {values : List Value} (h : AllRead values) :
    (readingsOf values).length = values.length := by
  have hlengths := congrArg List.length (map_toNumber?_of_allRead h)
  rw [List.length_map, List.length_map] at hlengths
  exact hlengths.symm

theorem exists_readingsOf_eq_cons {values : List Value} (h : AllRead values) (hne : values ≠ []) :
    ∃ x rest, readingsOf values = x :: rest := by
  apply List.exists_cons_of_ne_nil
  apply List.ne_nil_of_length_pos
  rw [length_readingsOf h]
  exact List.length_pos_iff.2 hne

/-- A difference is made of the readings of all operands, the single one included. -/
theorem difference_eq (operator : String) (values : List Value) :
    difference operator values = (readings operator values).map fun
      | [] => .null
      | [x] => .number x.neg
      | x :: rest => .number (rest.foldl .sub x) := by
  match values with
  | [] => rfl
  | [value] =>
      rw [difference, readings]
      cases reading operator value <;> rfl
  | first :: second :: rest =>
      have hcombine : difference operator (first :: second :: rest) =
          combine operator .sub (first :: second :: rest) := rfl
      rw [hcombine, combine_eq, readings, readings]
      cases reading operator first with
      | error e => rfl
      | ok x =>
          cases reading operator second with
          | error e => rfl
          | ok y => cases readings operator rest <;> rfl

end Numeric

namespace Function

open Numeric

/-- The kind of what an operator makes of readings, if it reads all its operands as numbers. -/
def numericKind? : Function → Option String
  | .subtract => some "number"
  | .multiply => some "number"
  | .divide => some "number"
  | .remainder => some "number"
  | .least => some "number"
  | .greatest => some "number"
  | .less => some "boolean"
  | .lessOrEqual => some "boolean"
  | .greater => some "boolean"
  | .greaterOrEqual => some "boolean"
  | _ => none

/-- The operator reads all its operands and makes something of the readings, which is of a kind if
there are any. -/
def ConcludesWith (f : Function) (kind : String) : Prop :=
  ∃ conclude : List Binary64 → Value,
    (∀ values, f.apply values = .ofExcept ((readings f.name values).map conclude)) ∧
    ∀ x rest, (conclude (x :: rest)).typeName = kind

theorem concludesWith_subtract : subtract.ConcludesWith "number" := by
  refine ⟨_, fun values => congrArg Result.ofExcept (difference_eq subtract.name values), ?_⟩
  intro x rest
  cases rest <;> rfl

theorem concludesWith_combine {f : Function} {step : Binary64 → Binary64 → Binary64}
    (h : ∀ values, f.apply values = .ofExcept (combine f.name step values)) :
    f.ConcludesWith "number" := by
  refine ⟨_, fun values =>
    (h values).trans (congrArg Result.ofExcept (combine_eq _ step values)), ?_⟩
  intro x rest
  rfl

/-- An extremum is a number, whether one of the readings is not-a-number or not. -/
theorem concludesWith_extremum {f : Function} {pick : Binary64 → Binary64 → Binary64}
    (h : ∀ values, f.apply values = .ofExcept (extremum f.name pick values)) :
    f.ConcludesWith "number" := by
  refine ⟨_, h, ?_⟩
  intro x rest
  dsimp only
  split <;> rfl

theorem concludesWith_of_numericKind? {f : Function} {kind : String}
    (h : f.numericKind? = some kind) : f.ConcludesWith kind := by
  cases f with
  | subtract =>
      cases h
      exact concludesWith_subtract
  | multiply | divide | remainder =>
      cases h
      exact concludesWith_combine fun _ => rfl
  | least | greatest =>
      cases h
      exact concludesWith_extremum fun _ => rfl
  | less | lessOrEqual | greater | greaterOrEqual =>
      cases h
      exact ⟨_, fun _ => rfl, fun _ _ => rfl⟩
  | _ => cases h

/-- Such an operator accepts no empty list of operands. -/
theorem ne_nil_of_accepts {f : Function} {kind : String} (hf : f.numericKind? = some kind)
    {values : List Value} (haccepts : f.arity.mismatch? values.length = none) : values ≠ [] := by
  have hleast : 1 ≤ f.arity.least := by
    cases f <;> first | cases hf; done | decide
  exact List.ne_nil_of_length_pos (Nat.le_trans hleast (Arity.le_of_accepts haccepts))

/-- An operator that reads all its operands as numbers fails for the sake of an operand exactly if
one of them has no reading.  The first of those is blamed, as it was passed and in the name of the
operator, whatever stands before it.  Otherwise the operator comes to a value of its kind. -/
theorem apply_numeric {f : Function} {kind : String} (hf : f.numericKind? = some kind)
    {values : List Value} (haccepts : f.arity.mismatch? values.length = none) :
    (∀ value, unreadable? values = some value →
      f.apply values = .ofExcept (.error (.notNumeric f.name value))) ∧
    (unreadable? values = none → ∃ result, f.apply values = pure result ∧
      result.typeName = kind) ∧
    ((∃ operator value, f.apply values = .ofExcept (.error (.notNumeric operator value))) ↔
      ∃ value ∈ values, value.toNumber? = none) := by
  obtain ⟨conclude, happly, hkind⟩ := concludesWith_of_numericKind? hf
  have hfails : ∀ value, unreadable? values = some value →
      f.apply values = .ofExcept (.error (.notNumeric f.name value)) := by
    intro value hvalue
    rw [happly, readings_eq, hvalue]
    rfl
  have hcomes : unreadable? values = none → ∃ result, f.apply values = pure result ∧
      result.typeName = kind := by
    intro hnone
    have hread := unreadable?_eq_none_iff.1 hnone
    obtain ⟨x, rest, hreadings⟩ := exists_readingsOf_eq_cons hread (ne_nil_of_accepts hf haccepts)
    refine ⟨conclude (x :: rest), ?_, hkind x rest⟩
    rw [happly, readings_of_allRead hread, hreadings]
    rfl
  refine ⟨hfails, hcomes, ?_⟩
  cases hfirst : unreadable? values with
  | none =>
      obtain ⟨result, hresult, -⟩ := hcomes hfirst
      apply iff_of_false
      · rintro ⟨operator, value, herror⟩
        cases hresult.symm.trans herror
      · rintro ⟨value, hmem, hvalue⟩
        exact unreadable?_eq_none_iff.1 hfirst value hmem hvalue
  | some first =>
      exact iff_of_true ⟨f.name, first, hfails first hfirst⟩
        ⟨first, mem_of_unreadable? hfirst, toNumber?_of_unreadable? hfirst⟩

/-- A comparison that is false already, and then not-a-number, before a text that is no number. -/
theorem apply_less_text :
    less.arity.mismatch? 4 = none ∧
    less.apply [.number (.ofInt 2), .bool true, .number .nan, .string "one"] =
      .ofExcept (.error (.notNumeric "<" (.string "one"))) := by
  obtain ⟨hfails, -⟩ := @apply_numeric less "boolean" rfl
    [.number (.ofInt 2), .bool true, .number .nan, .string "one"] rfl
  exact ⟨rfl, hfails (.string "one") rfl⟩

end Function

end JsonRules
