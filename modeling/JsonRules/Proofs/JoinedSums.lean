import JsonRules.Operator.Builtin

/-!
What a sum comes to.

A sum starts as a value to which numbers are added.  At the first operand without a numeric reading
it becomes a text, and it stays one: `foldl_add_value` and `foldl_add_text` say what the operands
before and after that point do.  The first operand is only replaced by its reading when something is
added to it, so it is joined as it is if the text begins at the first or the second operand.
-/

namespace JsonRules

namespace Numeric

def readingsOf (values : List Value) : List Binary64 := values.filterMap Value.toNumber?

def total : List Binary64 → Binary64
  | [] => .zero false
  | x :: rest => rest.foldl Binary64.add x

/-- The position of the first value without a numeric reading. -/
def textPosition? (values : List Value) : Option Nat :=
  values.findIdx? fun value => value.toNumber?.isNone

def joined (values : List Value) : String := String.join (values.map Value.toText)

/-- What comes before the texts that are joined when the value at a position is the first without a
reading: the sum of those before it if there was anything to add, and else the first value. -/
def lead (values : List Value) (position : Nat) : Value :=
  if position ≤ 1 then values.headD .null
  else .number (total (readingsOf (values.take position)))

theorem joined_cons (value : Value) (rest : List Value) :
    joined (value :: rest) = value.toText ++ joined rest :=
  String.join_cons

def AllRead (values : List Value) : Prop := ∀ value ∈ values, value.toNumber? ≠ none

theorem textPosition?_eq_none_iff {values : List Value} :
    textPosition? values = none ↔ AllRead values := by
  simp [textPosition?, AllRead, List.findIdx?_eq_none_iff, Option.isSome_iff_ne_none]

/-- The first value without a reading, with the values before and after it. -/
theorem exists_of_textPosition?_eq_some {values : List Value} {position : Nat}
    (h : textPosition? values = some position) :
    ∃ before text after, values = before ++ text :: after ∧ before.length = position ∧
      AllRead before ∧ text.toNumber? = none := by
  obtain ⟨hlt, htext, hbefore⟩ := List.findIdx?_eq_some_iff_getElem.1 h
  refine ⟨values.take position, values[position], values.drop (position + 1), ?_, ?_, ?_, ?_⟩
  · rw [← List.drop_eq_getElem_cons hlt, List.take_append_drop]
  · exact List.length_take_of_le (Nat.le_of_lt hlt)
  · intro value hvalue
    obtain ⟨index, hindex, rfl⟩ := List.getElem_of_mem hvalue
    have hbound : index < position := by
      rw [List.length_take] at hindex
      omega
    have hread := hbefore index hbound
    rw [List.getElem_take]
    simpa using hread
  · simpa using htext

namespace Tally

theorem add_of_readings {value next : Value} {x y : Binary64} (hvalue : value.toNumber? = some x)
    (hnext : next.toNumber? = some y) :
    (Tally.value value).add next = .value (.number (x.add y)) := by
  simp [add, hvalue, hnext]

theorem add_of_text {value next : Value} (h : value.toNumber? = none ∨ next.toNumber? = none) :
    (Tally.value value).add next = .text (value.toText ++ next.toText) := by
  rcases h with hvalue | hnext
  · simp [add, hvalue]
  · cases hvalue : value.toNumber? <;> simp [add, hvalue, hnext]

theorem foldl_add_text (s : String) (values : List Value) :
    values.foldl add (.text s) = .text (s ++ joined values) := by
  induction values generalizing s with
  | nil => simp [joined]
  | cons value rest ih =>
      rw [List.foldl_cons, joined_cons, ← String.append_assoc]
      exact ih (s ++ value.toText)

theorem foldl_add_number {values : List Value} (h : AllRead values) (x : Binary64) :
    values.foldl add (.value (.number x)) =
      .value (.number ((readingsOf values).foldl Binary64.add x)) := by
  induction values generalizing x with
  | nil => rfl
  | cons value rest ih =>
      obtain ⟨hvalue, hrest⟩ := List.forall_mem_cons.1 h
      obtain ⟨y, hy⟩ := Option.ne_none_iff_exists'.1 hvalue
      rw [List.foldl_cons, add_of_readings rfl hy, ih hrest, readingsOf, readingsOf,
        List.filterMap_cons_some hy, List.foldl_cons]

/-- Two or more values with readings come to the sum of the readings. -/
theorem foldl_add_value {first second : Value} {rest : List Value}
    (h : AllRead (first :: second :: rest)) :
    (second :: rest).foldl add (.value first) =
      .value (.number (total (readingsOf (first :: second :: rest)))) := by
  obtain ⟨hfirst, hothers⟩ := List.forall_mem_cons.1 h
  obtain ⟨hsecond, hrest⟩ := List.forall_mem_cons.1 hothers
  obtain ⟨x, hx⟩ := Option.ne_none_iff_exists'.1 hfirst
  obtain ⟨y, hy⟩ := Option.ne_none_iff_exists'.1 hsecond
  rw [List.foldl_cons, add_of_readings hx hy, foldl_add_number hrest, readingsOf, readingsOf,
    List.filterMap_cons_some hx, List.filterMap_cons_some hy]
  rfl

/-- With a first or second operand that is no number, all operands are joined as they are. -/
theorem foldl_add_of_early_text {first second : Value} (rest : List Value)
    (h : first.toNumber? = none ∨ second.toNumber? = none) :
    (second :: rest).foldl add (.value first) =
      .text (first.toText ++ joined (second :: rest)) := by
  rw [List.foldl_cons, add_of_text h, foldl_add_text, joined_cons, String.append_assoc]

/-- Two or more numbers are added up before the texts that follow are joined to their sum. -/
theorem foldl_add_of_later_text {first second text : Value} {before : List Value}
    (after : List Value) (hbefore : AllRead (first :: second :: before))
    (htext : text.toNumber? = none) :
    (second :: before ++ text :: after).foldl add (.value first) =
      .text (Value.toText (.number (total (readingsOf (first :: second :: before)))) ++
        joined (text :: after)) := by
  rw [List.foldl_append, foldl_add_value hbefore, List.foldl_cons, add_of_text (.inr htext),
    foldl_add_text, joined_cons, String.append_assoc]

/-- What two or more values come to, by the position of the first that is no number. -/
theorem foldl_add_eq (first second : Value) (rest : List Value) :
    (second :: rest).foldl add (.value first) =
      match textPosition? (first :: second :: rest) with
      | none => .value (.number (total (readingsOf (first :: second :: rest))))
      | some position =>
        .text ((lead (first :: second :: rest) position).toText ++
          joined ((first :: second :: rest).drop (max position 1))) := by
  cases hposition : textPosition? (first :: second :: rest) with
  | none => exact foldl_add_value (textPosition?_eq_none_iff.1 hposition)
  | some position =>
      obtain ⟨before, text, after, hvalues, rfl, hbefore, htext⟩ :=
        exists_of_textPosition?_eq_some hposition
      rcases before with _ | ⟨_, _ | ⟨_, before⟩⟩
      · simp only [List.nil_append, List.cons.injEq] at hvalues
        obtain ⟨rfl, -⟩ := hvalues
        exact foldl_add_of_early_text rest (.inl htext)
      · simp only [List.cons_append, List.nil_append, List.cons.injEq] at hvalues
        obtain ⟨rfl, rfl, -⟩ := hvalues
        exact foldl_add_of_early_text rest (.inr htext)
      · simp only [List.cons_append, List.cons.injEq] at hvalues
        obtain ⟨rfl, rfl, rfl⟩ := hvalues
        simpa [lead] using foldl_add_of_later_text after hbefore htext

end Tally

/-- A sum of two or more values that is a text already is only joined with what follows. -/
theorem sum_append_of_text {first second : Value} {rest : List Value} {s : String}
    (h : sum (first :: second :: rest) = .string s) (more : List Value) :
    sum (first :: second :: rest ++ more) = .string (s ++ joined more) := by
  have htally : ((second :: rest).foldl Tally.add (.value first)).toValue = .string s := h
  have happend : sum (first :: second :: rest ++ more) =
      (more.foldl Tally.add ((second :: rest).foldl Tally.add (.value first))).toValue := by
    rw [← List.foldl_append]
    rfl
  rw [happend]
  rw [Tally.foldl_add_eq] at htally ⊢
  cases hposition : textPosition? (first :: second :: rest) with
  | none =>
      rw [hposition] at htally
      cases htally
  | some position =>
      rw [hposition] at htally
      cases htally
      rw [Tally.foldl_add_text]
      rfl

end Numeric

open Numeric in
/-- What the sum operator makes of two or more operands.  Where all have a numeric reading, it is
their sum from left to right.  Otherwise it is a text: what comes before the first operand without a
reading, added up or as it is, and then the texts of the other operands.  What follows such a text
is only joined to it, and no operands at all make the operator fail. -/
theorem Function.apply_add (first second : Value) (rest : List Value) :
    Function.add.apply (first :: second :: rest) = pure
      (match textPosition? (first :: second :: rest) with
      | none => .number (total (readingsOf (first :: second :: rest)))
      | some position =>
        .string ((lead (first :: second :: rest) position).toText ++
          joined ((first :: second :: rest).drop (max position 1)))) ∧
    (∀ s more, Function.add.apply (first :: second :: rest) = pure (.string s) →
      Function.add.apply (first :: second :: rest ++ more) = pure (.string (s ++ joined more))) ∧
    ∀ values, ∃ value, Function.add.apply values = pure value := by
  refine ⟨?_, fun s more h => ?_, fun values => ⟨_, rfl⟩⟩
  · have hsum : sum (first :: second :: rest) =
        ((second :: rest).foldl Tally.add (.value first)).toValue := rfl
    rw [Function.apply, hsum, Tally.foldl_add_eq]
    cases textPosition? (first :: second :: rest) <;> rfl
  · have hsum : sum (first :: second :: rest) = .string s :=
      Except.ok.inj (Option.some.inj h)
    rw [Function.apply, sum_append_of_text hsum]

/-- The third operand is joined although the text before it looks like a number. -/
example : Function.add.apply [.string "1", .string "", .string "2"] = pure (.string "12") := rfl

end JsonRules
