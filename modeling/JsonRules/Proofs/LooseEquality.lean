import JsonRules.Operator.Builtin
import JsonRules.Proofs.StrictEquality

/-!
Loose equality.

Two values of one kind are loosely equal if they are strictly equal (`looseEq_of_typeName_eq`).
Null, arrays and objects equal nothing of another kind, and booleans, numbers and strings meet as
numbers (`looseEq_iff_of_typeName_ne`).  Loose equality is symmetric on each side of this division.
-/

namespace JsonRules

namespace Value

/-- Null, arrays and objects, which equal nothing of another kind. -/
def keepsToKind : Value → Bool
  | .null => true
  | .array _ => true
  | .object _ => true
  | _ => false

/-- Both values have a numeric reading, and the readings are equal. -/
def ReadAlike (a b : Value) : Prop :=
  ∃ x y, a.toNumber? = some x ∧ b.toNumber? = some y ∧ x.equals y = true

theorem ReadAlike.symm {a b : Value} (h : ReadAlike a b) : ReadAlike b a := by
  obtain ⟨x, y, hx, hy, hequal⟩ := h
  rw [x.equals_comm y] at hequal
  exact ⟨y, x, hy, hx, hequal⟩

variable {a b : Value}

theorem typeName_eq_of_strictEq (h : a.strictEq b = true) : a.typeName = b.typeName := by
  by_contra hkind
  have hdifferent : a.strictEq b = false := by
    cases a <;> cases b <;> first | exact absurd rfl hkind | rfl
  rw [hdifferent] at h
  cases h

theorem looseEq_of_typeName_eq (h : a.typeName = b.typeName) : a.looseEq b = a.strictEq b := by
  cases a <;> cases b <;> first | simp [typeName] at h; done | rfl

theorem looseEq_of_keepsToKind (h : a.typeName ≠ b.typeName)
    (hkeeps : a.keepsToKind = true ∨ b.keepsToKind = true) : a.looseEq b = false := by
  cases a <;> cases b <;> first | exact absurd rfl h | simp [keepsToKind] at hkeeps; done | rfl

theorem looseEq_of_not_keepsToKind (h : a.typeName ≠ b.typeName) (ha : a.keepsToKind = false)
    (hb : b.keepsToKind = false) : a.looseEq b = true ↔ ReadAlike a b := by
  cases a with
  | bool p =>
      cases b with
      | bool q => exact absurd rfl h
      | number y => simp [looseEq, ReadAlike, isContainer, toNumber?]
      | string t =>
          cases hread : numberOfString? t <;>
            simp [looseEq, ReadAlike, isContainer, toNumber?, hread]
      | _ => cases hb
  | number x =>
      cases b with
      | bool q => simp [looseEq, ReadAlike, isContainer, toNumber?]
      | number y => exact absurd rfl h
      | string t =>
          cases hread : numberOfString? t <;>
            simp [looseEq, ReadAlike, isContainer, toNumber?, hread]
      | _ => cases hb
  | string s =>
      cases b with
      | bool q =>
          cases hread : numberOfString? s <;>
            simp [looseEq, ReadAlike, isContainer, toNumber?, hread]
      | number y =>
          cases hread : numberOfString? s <;>
            simp [looseEq, ReadAlike, isContainer, toNumber?, hread]
      | string t => exact absurd rfl h
      | _ => cases hb
  | _ => cases ha

/-- Values of different kinds are loosely equal if none of them keeps to its kind and both have
numeric readings that are equal. -/
theorem looseEq_iff_of_typeName_ne (h : a.typeName ≠ b.typeName) :
    a.looseEq b = true ↔
      a.keepsToKind = false ∧ b.keepsToKind = false ∧ ReadAlike a b := by
  cases ha : a.keepsToKind with
  | true => simp [looseEq_of_keepsToKind h (.inl ha)]
  | false =>
      cases hb : b.keepsToKind with
      | true => simp [looseEq_of_keepsToKind h (.inr hb)]
      | false => simp [looseEq_of_not_keepsToKind h ha hb]

theorem looseEq_comm (ha : a.WellFormed) (hb : b.WellFormed) : a.looseEq b = b.looseEq a := by
  by_cases hkind : a.typeName = b.typeName
  · rw [looseEq_of_typeName_eq hkind, looseEq_of_typeName_eq hkind.symm]
    exact strictEq_comm ha hb
  · rw [Bool.eq_iff_iff, looseEq_iff_of_typeName_ne hkind,
      looseEq_iff_of_typeName_ne (Ne.symm hkind)]
    constructor
    · rintro ⟨hkeeps, hkeeps', hread⟩
      exact ⟨hkeeps', hkeeps, hread.symm⟩
    · rintro ⟨hkeeps, hkeeps', hread⟩
      exact ⟨hkeeps', hkeeps, hread.symm⟩

theorem looseEq_of_strictEq (h : a.strictEq b = true) : a.looseEq b = true := by
  rw [looseEq_of_typeName_eq (typeName_eq_of_strictEq h)]
  exact h

/-- The table of loose equality.  It is symmetric, strict equality between values of one kind, and
the equality of numeric readings between booleans, numbers and strings of different kinds; nothing
else is loosely equal.  The operators of inequality are the negations of those of equality. -/
theorem looseEq_table (a b : Datum) :
    a.value.looseEq b.value = b.value.looseEq a.value ∧
    (a.value.typeName = b.value.typeName → a.value.looseEq b.value = a.value.strictEq b.value) ∧
    (a.value.typeName ≠ b.value.typeName → (a.value.looseEq b.value = true ↔
      a.value.keepsToKind = false ∧ b.value.keepsToKind = false ∧ ReadAlike a.value b.value)) ∧
    (a.value.strictEq b.value = true → a.value.looseEq b.value = true) ∧
    Function.equal.apply [a.value, b.value] = pure (.bool (a.value.looseEq b.value)) ∧
    Function.notEqual.apply [a.value, b.value] = pure (.bool (!a.value.looseEq b.value)) ∧
    Function.strictlyEqual.apply [a.value, b.value] = pure (.bool (a.value.strictEq b.value)) ∧
    Function.strictlyNotEqual.apply [a.value, b.value] = pure (.bool (!a.value.strictEq b.value)) :=
  ⟨looseEq_comm a.wellFormed b.wellFormed, looseEq_of_typeName_eq, looseEq_iff_of_typeName_ne,
    looseEq_of_strictEq, rfl, rfl, rfl, rfl⟩

/-- A numeral with a blank before it equals true, either first. -/
theorem looseEq_paddedOne :
    (string " 1").looseEq (bool true) = true ∧ (bool true).looseEq (string " 1") = true := by
  obtain ⟨hcomm, -, hreadings, -⟩ := looseEq_table ⟨string " 1", trivial⟩ ⟨bool true, trivial⟩
  have hread : (string " 1").toNumber? = some (.ofNat 1) := by decide +kernel
  have hread' : (bool true).toNumber? = some (.ofNat 1) := by simp [toNumber?]
  have hequal : (Binary64.ofNat 1).equals (.ofNat 1) = true := by decide +kernel
  have htrue : (string " 1").looseEq (bool true) = true :=
    (hreadings (by decide)).2 ⟨rfl, rfl, _, _, hread, hread', hequal⟩
  exact ⟨htrue, hcomm.symm.trans htrue⟩

end Value

end JsonRules
