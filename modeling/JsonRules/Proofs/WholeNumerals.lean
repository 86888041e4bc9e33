import JsonRules.Proofs.GrammarReading

/-!
Numerals without point and exponent.

A numeral is marked as whole only if it is one (`wholeNumerals_of_ofText?`).  Whole numerals that
fit a word are far inside the finite range (`isFinite_ofInt`), so it makes no difference whether a
numeral is first an integer of a document or a double at once (`ofNumeral?_map_ofJson`).
-/

namespace JsonRules

namespace Binary64

/-- Integers of a word have finite doubles. -/
theorem isFinite_ofInt {z : Int} (h : Json.isWordInteger z = true) : (ofInt z).isFinite = true := by
  rw [Json.isWordInteger, Bool.and_eq_true, decide_eq_true_iff, decide_eq_true_iff, Word.lowest,
    Word.highestUnsigned] at h
  have hbound : z.natAbs < 2 ^ 100 := by omega
  exact isFinite_ofRatio_mul _ hbound

end Binary64

open Binary64

/-- A whole numeral and its integer have the same nearest double, unless it is a negative zero. -/
theorem Numeral.toBinary64_of_whole {numeral : Numeral} (hwhole : numeral.magnitude.exponent = 0)
    (hzero : numeral.negative = false ∨ numeral.magnitude.coefficient ≠ 0) :
    numeral.toBinary64 =
      ofInt (signedUnits numeral.negative numeral.magnitude.coefficient) := by
  obtain ⟨negative, c, e⟩ := numeral
  have he : e = 0 := hwhole
  have hsign : (decide (signedUnits negative c < 0)) = negative := by
    cases negative with
    | true =>
        have hc : c ≠ 0 := hzero.resolve_left Bool.noConfusion
        simp only [signedUnits, if_true, decide_eq_true_iff]
        omega
    | false => simp [signedUnits]
  rw [Numeral.toBinary64, Decimal.nearest_eq_ofRatio, he, Decimal.unitsRatio_eq, ofInt, hsign,
    natAbs_signedUnits]
  simp

/-- A numeral becomes an integer if it is whole, fits a word and is no negative zero. -/
theorem Json.ofNumeral?_eq (numeral : Numeral) (whole : Bool) :
    ofNumeral? numeral whole =
      if HoldsInteger numeral whole then
        some (.integer (signedUnits numeral.negative numeral.magnitude.coefficient))
      else numeral.toFinite?.map .float :=
  ite_congr (by simp [HoldsInteger, signedUnits, and_assoc]) (fun _ => rfl) (fun _ => rfl)

namespace Value

/-- Through the document of a numeral or at once, the same number is read, or none. -/
theorem ofNumeral?_map_ofJson {numeral : Numeral} {whole : Bool}
    (h : whole = true → numeral.magnitude.exponent = 0) :
    (Json.ofNumeral? numeral whole).map ofJson = numeral.toFinite?.map number := by
  rw [Json.ofNumeral?_eq]
  split
  · rename_i hinteger
    obtain ⟨hwhole, hword, hzero⟩ := hinteger
    rw [Numeral.toFinite?, Numeral.toBinary64_of_whole (h hwhole) hzero,
      if_pos (isFinite_ofInt hword)]
    rfl
  · rw [Option.map_map]
    rfl

end Value

namespace JsonSource

mutual

/-- Numerals that are marked as whole have no power of ten. -/
def WholeNumerals : JsonSource → Prop
  | .number numeral whole => whole = true → numeral.magnitude.exponent = 0
  | .array items => WholeNumeralsOfItems items
  | .object fields => WholeNumeralsOfFields fields
  | _ => True

def WholeNumeralsOfItems : List JsonSource → Prop
  | [] => True
  | item :: rest => item.WholeNumerals ∧ WholeNumeralsOfItems rest

def WholeNumeralsOfFields : List (Option String × JsonSource) → Prop
  | [] => True
  | (_, item) :: rest => item.WholeNumerals ∧ WholeNumeralsOfFields rest

end

theorem wholeNumerals_array {items : List JsonSource} :
    (array items).WholeNumerals ↔ ∀ item ∈ items, item.WholeNumerals := by
  rw [WholeNumerals]
  induction items with
  | nil => simp [WholeNumeralsOfItems]
  | cons item rest ih => simp [WholeNumeralsOfItems, ih]

theorem wholeNumerals_object {fields : List (Option String × JsonSource)} :
    (object fields).WholeNumerals ↔ ∀ field ∈ fields, field.2.WholeNumerals := by
  rw [WholeNumerals]
  induction fields with
  | nil => simp [WholeNumeralsOfFields]
  | cons field rest ih => simp [WholeNumeralsOfFields, ih]

theorem SpacedAs.exists_written {source : JsonSource} {text : List Char}
    (h : SpacedAs source text) : ∃ core, WrittenAs source core := by
  obtain ⟨-, hwritten, -⟩ := h
  exact ⟨_, hwritten⟩

theorem ItemsWrittenAs.exists_written {items : List JsonSource} {text : List Char}
    (h : ItemsWrittenAs items text) : ∀ item ∈ items, ∃ core, WrittenAs item core := by
  induction items generalizing text with
  | nil => exact List.forall_mem_nil _
  | cons item rest ih =>
      cases h with
      | last hitem => exact List.forall_mem_singleton.2 hitem.exists_written
      | more hitem hrest => exact List.forall_mem_cons.2 ⟨hitem.exists_written, ih hrest⟩

theorem FieldsWrittenAs.exists_written {fields : List (Option String × JsonSource)}
    {text : List Char} (h : FieldsWrittenAs fields text) :
    ∀ field ∈ fields, ∃ core, WrittenAs field.2 core := by
  have hvalue : ∀ {field : Option String × JsonSource} {written : List Char},
      FieldWrittenAs field written → ∃ core, WrittenAs field.2 core := by
    rintro _ _ ⟨-, -, -, hspaced⟩
    exact hspaced.exists_written
  induction fields generalizing text with
  | nil => exact List.forall_mem_nil _
  | cons field rest ih =>
      cases h with
      | last hfield => exact List.forall_mem_singleton.2 (hvalue hfield)
      | more hfield hrest => exact List.forall_mem_cons.2 ⟨hvalue hfield, ih hrest⟩

/-- The grammar marks whole numerals only. -/
theorem WrittenAs.wholeNumerals {source : JsonSource} {text : List Char}
    (h : WrittenAs source text) : source.WholeNumerals := by
  induction source using JsonSource.induct generalizing text with
  | null => trivial
  | bool b => trivial
  | number numeral whole =>
      cases h with
      | number hl => exact DecimalLiteral.exponent_of_isWhole
  | string text => trivial
  | array items ih =>
      refine wholeNumerals_array.2 fun item hitem => ?_
      cases h with
      | emptyArray => cases hitem
      | array hitems =>
          obtain ⟨core, hcore⟩ := hitems.exists_written item hitem
          exact ih item hitem hcore
  | object fields ih =>
      refine wholeNumerals_object.2 fun field hfield => ?_
      cases h with
      | emptyObject => cases hfield
      | object hfields =>
          obtain ⟨core, hcore⟩ := hfields.exists_written field hfield
          exact ih field hfield hcore

/-- A text that is read has its whole numerals marked as such. -/
theorem wholeNumerals_of_ofText? {text : String} {source : JsonSource}
    (h : ofText? text = some source) : source.WholeNumerals := by
  obtain ⟨core, hcore⟩ := (ofChars?_eq_some_iff.1 h).exists_written
  exact hcore.wholeNumerals

end JsonSource

end JsonRules
