import JsonRules.Proofs.WholeNumerals

/-!
The readers of values and of documents are readers of JSON.

What a tree is read as (`JsonTarget.Reads`) is what the readers of trees find, place by place, so
`Value.ofText?` and `Json.ofText?` are the readers for values and for documents
(`JsonReader.ofText?_value`, `JsonReader.ofText?_json`).
-/

namespace JsonRules

/-- A numeral rounds to the finite double that is found for it. -/
theorem Numeral.roundsToFinite_iff {n : Numeral} {x : Binary64} :
    n.RoundsToFinite x ↔ n.toFinite? = some x := by
  have hnearest : Binary64.RoundsTo n.negative n.value x ↔ x = n.toBinary64 :=
    Decimal.roundsTo_iff_eq_nearest
  rw [RoundsToFinite, hnearest, toFinite?]
  constructor
  · rintro ⟨hfinite, rfl⟩
    exact if_pos hfinite
  · intro h
    split at h
    · rename_i hfinite
      cases h
      exact ⟨hfinite, rfl⟩
    · cases h

namespace JsonTarget

variable {α : Type} {t : JsonTarget α}

theorem reads_string_iff {text : Option String} {a : α} :
    t.Reads (.string text) a ↔ ∃ s, text = some s ∧ t.string s = a := by
  constructor
  · rintro ⟨⟩
    exact ⟨_, rfl, rfl⟩
  · rintro ⟨s, rfl, rfl⟩
    exact .string s

theorem itemsRead_iff {read : JsonSource → Option α} {items : List JsonSource} {values : List α}
    (h : ∀ item ∈ items, ∀ a, t.Reads item a ↔ read item = some a) :
    t.ItemsRead items values ↔ items.mapM read = some values := by
  induction items generalizing values with
  | nil =>
      constructor
      · rintro ⟨⟩
        rfl
      · rintro ⟨⟩
        exact .nil
  | cons item rest ih =>
      obtain ⟨hitem, hrest⟩ := List.forall_mem_cons.1 h
      simp only [List.mapM_cons, Option.bind_eq_bind, Option.bind_eq_some_iff, Option.pure_def,
        Option.some.injEq]
      constructor
      · rintro (_ | ⟨hfirst, hmore⟩)
        exact ⟨_, (hitem _).1 hfirst, _, (ih hrest).1 hmore, rfl⟩
      · rintro ⟨value, hvalue, more, hmore, rfl⟩
        exact .cons ((hitem value).2 hvalue) ((ih hrest).2 hmore)

theorem fieldsRead_iff {read : JsonSource → Option α} {fields : List (Option String × JsonSource)}
    {pairs : List (String × α)}
    (h : ∀ field ∈ fields, ∀ a, t.Reads field.2 a ↔ read field.2 = some a) :
    t.FieldsRead fields pairs ↔ fields.mapM (JsonSource.readField read) = some pairs := by
  induction fields generalizing pairs with
  | nil =>
      constructor
      · rintro ⟨⟩
        rfl
      · rintro ⟨⟩
        exact .nil
  | cons field rest ih =>
      obtain ⟨hfield, hrest⟩ := List.forall_mem_cons.1 h
      simp only [List.mapM_cons, Option.bind_eq_bind, Option.bind_eq_some_iff, Option.pure_def,
        Option.some.injEq]
      constructor
      · rintro (_ | ⟨hfirst, hmore⟩)
        exact ⟨_, JsonSource.readField_eq_some.2 ⟨rfl, (hfield _).1 hfirst⟩, _,
          (ih hrest).1 hmore, rfl⟩
      · rintro ⟨⟨key, value⟩, hpair, more, hmore, rfl⟩
        obtain ⟨name, item⟩ := field
        obtain ⟨hkey, hvalue⟩ := JsonSource.readField_eq_some.1 hpair
        cases hkey
        exact .cons ((hfield value).2 hvalue) ((ih hrest).2 hmore)

end JsonTarget

/-- A reader of trees that builds as a target says, constructor by constructor. -/
structure JsonTarget.Builds {α : Type} (t : JsonTarget α) (read : JsonSource → Option α) :
    Prop where
  null : read .null = some t.null
  bool : ∀ b, read (.bool b) = some (t.bool b)
  number : ∀ numeral whole a, t.number numeral whole a ↔ read (.number numeral whole) = some a
  string : ∀ text, read (.string text) = text.map t.string
  array : ∀ items, read (.array items) = (items.mapM read).map t.array
  object : ∀ fields, read (.object fields) =
    (fields.mapM (JsonSource.readField read)).map t.object

/-- Such a reader finds what is read from a tree. -/
theorem JsonTarget.Builds.reads_iff {α : Type} {t : JsonTarget α} {read : JsonSource → Option α}
    (h : t.Builds read) {source : JsonSource} {a : α} :
    t.Reads source a ↔ read source = some a := by
  induction source using JsonSource.induct generalizing a with
  | null =>
      rw [h.null, Option.some.injEq]
      constructor
      · rintro ⟨⟩
        rfl
      · rintro rfl
        exact .null
  | bool b =>
      rw [h.bool, Option.some.injEq]
      constructor
      · rintro ⟨⟩
        rfl
      · rintro rfl
        exact .bool b
  | number numeral whole =>
      rw [← h.number]
      constructor
      · rintro ⟨⟩
        assumption
      · exact .number
  | string text => rw [h.string, Option.map_eq_some_iff, reads_string_iff]
  | array items ih =>
      rw [h.array, Option.map_eq_some_iff]
      simp only [← itemsRead_iff fun item hitem _ => ih item hitem]
      constructor
      · rintro ⟨⟩
        exact ⟨_, ‹_›, rfl⟩
      · rintro ⟨values, hvalues, rfl⟩
        exact .array hvalues
  | object fields ih =>
      rw [h.object, Option.map_eq_some_iff]
      simp only [← fieldsRead_iff fun field hfield _ => ih field hfield]
      constructor
      · rintro ⟨⟩
        exact ⟨_, ‹_›, rfl⟩
      · rintro ⟨pairs, hpairs, rfl⟩
        exact .object hpairs

theorem Value.builds_toValue? : target.Builds JsonSource.toValue? where
  null := rfl
  bool _ := rfl
  number numeral whole v := by
    rw [JsonSource.toValue?, Option.map_eq_some_iff]
    constructor
    · rintro ⟨x, rfl, hx⟩
      exact ⟨x, Numeral.roundsToFinite_iff.1 hx, rfl⟩
    · rintro ⟨x, hx, rfl⟩
      exact ⟨x, rfl, Numeral.roundsToFinite_iff.2 hx⟩
  string _ := rfl
  array := JsonSource.toValue?_array
  object := JsonSource.toValue?_object

theorem Json.builds_toJson? : target.Builds JsonSource.toJson? where
  null := rfl
  bool _ := rfl
  number numeral whole document := by
    rw [JsonSource.toJson?, Json.ofNumeral?_eq]
    by_cases hinteger : HoldsInteger numeral whole
    · rw [if_pos hinteger, Option.some.injEq, eq_comm]
      simp [target, hinteger]
    · rw [if_neg hinteger, Option.map_eq_some_iff]
      simp only [target, hinteger, false_and, not_false_eq_true, true_and, false_or,
        Numeral.roundsToFinite_iff]
      constructor
      · rintro ⟨x, rfl, hx⟩
        exact ⟨x, hx, rfl⟩
      · rintro ⟨x, hx, rfl⟩
        exact ⟨x, rfl, hx⟩
  string _ := rfl
  array := JsonSource.toJson?_array
  object := JsonSource.toJson?_object

namespace JsonReader

/-- Reading the tree of a text and building from it is reading the text. -/
theorem ofBuilds {α : Type} {t : JsonTarget α} {build : JsonSource → Option α}
    (h : t.Builds build) :
    JsonReader t fun text => (JsonSource.ofBoundedText? text).bind build where
  sound := by
    intro text a ha
    obtain ⟨source, hsource, hread⟩ := Option.bind_eq_some_iff.1 ha
    rw [JsonSource.ofBoundedText?, Option.filter_eq_some_iff] at hsource
    exact ⟨source, JsonSource.ofChars?_eq_some_iff.1 hsource.1, of_decide_eq_true hsource.2,
      h.reads_iff.2 hread⟩
  complete := by
    intro text a source htext hheight hreads
    have hsource : JsonSource.ofBoundedText? text = some source := by
      rw [JsonSource.ofBoundedText?, Option.filter_eq_some_iff]
      exact ⟨JsonSource.ofChars?_eq_some_iff.2 htext, decide_eq_true hheight⟩
    exact Option.bind_eq_some_iff.2 ⟨source, hsource, h.reads_iff.1 hreads⟩

theorem ofText?_value : JsonReader Value.target Value.ofText? := ofBuilds Value.builds_toValue?

theorem ofText?_json : JsonReader Json.target Json.ofText? := ofBuilds Json.builds_toJson?

end JsonReader

end JsonRules
