import JsonRules.Proofs.JsonReaders
import JsonRules.Proofs.ValueTrees

/-!
The two ways of reading a JSON text.

A text is read as a value at once, or as a host document that then becomes a value.  Whatever the
readers are, both work from the tree that the grammar has for the text
(`JsonSource.toJson?_map_ofJson`), so they read the same texts, and what they read differs in the
order of keys alone.
-/

namespace JsonRules

theorem Numeral.isFinite_of_toFinite? {numeral : Numeral} {x : Binary64}
    (h : numeral.toFinite? = some x) : x.isFinite = true := by
  rw [toFinite?] at h
  split at h
  · rename_i hfinite
    cases h
    exact hfinite
  · cases h

namespace JsonSource

/-- The value of a tree's document is the value of the tree with its keys sorted. -/
theorem toJson?_map_ofJson {source : JsonSource} (h : source.WholeNumerals) :
    source.toJson?.map Value.ofJson = source.toValue?.map Value.sortKeys := by
  induction source using JsonSource.induct with
  | null => rfl
  | bool b => rfl
  | number numeral whole =>
      rw [toJson?, Value.ofNumeral?_map_ofJson h, toValue?, Option.map_map]
      rfl
  | string text => cases text <;> rfl
  | array items ih =>
      have hitems : (items.mapM toJson?).map (List.map Value.ofJson) =
          (items.mapM toValue?).map (List.map Value.sortKeys) := by
        apply mapM_map_congr
        intro item hitem
        exact ih item hitem (wholeNumerals_array.1 h item hitem)
      have harray := congrArg (Option.map Value.array) hitems
      rw [Option.map_map, Option.map_map] at harray
      rw [toJson?_array, toValue?_array, Option.map_map, Option.map_map]
      simpa only [Function.comp_def, Value.ofJson_array, Value.sortKeys_array] using harray
  | object fields ih =>
      have hfields : (fields.mapM (readField toJson?)).map (Keyed.mapValues Value.ofJson) =
          (fields.mapM (readField toValue?)).map (Keyed.mapValues Value.sortKeys) := by
        apply mapM_map_congr
        intro field hfield
        exact readField_map_congr (ih field hfield (wholeNumerals_object.1 h field hfield))
      have hobject := congrArg (Option.map fun pairs => Value.object (Keyed.sorted pairs)) hfields
      rw [Option.map_map, Option.map_map] at hobject
      rw [toJson?_object, toValue?_object, Option.map_map, Option.map_map]
      simpa only [Function.comp_def, Value.ofJson_object, Value.sortKeys_object,
        Keyed.sorted_mapValues, Keyed.sorted_ofPairs] using hobject

/-- What is read repeats no key and has finite numbers only. -/
theorem wellFormed_of_toValue? {source : JsonSource} {v : Value} (h : source.toValue? = some v) :
    v.WellFormed ∧ ∀ x ∈ v.numbers, x.isFinite = true := by
  induction source using JsonSource.induct generalizing v with
  | null =>
      cases h
      exact ⟨trivial, List.forall_mem_nil _⟩
  | bool b =>
      cases h
      exact ⟨trivial, List.forall_mem_nil _⟩
  | number numeral whole =>
      obtain ⟨x, hx, rfl⟩ := Option.map_eq_some_iff.1 h
      refine ⟨trivial, ?_⟩
      rw [Value.numbers, List.forall_mem_singleton]
      exact Numeral.isFinite_of_toFinite? hx
  | string text =>
      obtain ⟨s, -, rfl⟩ := Option.map_eq_some_iff.1 h
      exact ⟨trivial, List.forall_mem_nil _⟩
  | array items ih =>
      rw [toValue?_array, Option.map_eq_some_iff] at h
      obtain ⟨values, hvalues, rfl⟩ := h
      have hall : ∀ value ∈ values, value.WellFormed ∧ ∀ x ∈ value.numbers, x.isFinite = true := by
        intro value hvalue
        obtain ⟨item, hitem, hread⟩ := exists_of_mem_mapM hvalues hvalue
        exact ih item hitem hread
      constructor
      · exact Value.wellFormed_array.2 fun value hvalue => (hall value hvalue).1
      · exact Value.forall_numbers_array.2 fun value hvalue => (hall value hvalue).2
  | object fields ih =>
      rw [toValue?_object, Option.map_eq_some_iff] at h
      obtain ⟨pairs, hpairs, rfl⟩ := h
      have hall : ∀ pair ∈ Keyed.ofPairs pairs,
          pair.2.WellFormed ∧ ∀ x ∈ pair.2.numbers, x.isFinite = true := by
        intro pair hpair
        obtain ⟨field, hfield, hread⟩ :=
          exists_of_mem_mapM hpairs (Keyed.mem_of_mem_ofPairs hpair)
        exact ih field hfield (readField_eq_some.1 hread).2
      constructor
      · exact Value.wellFormed_object.2
          ⟨Keyed.distinct_ofPairs pairs, fun pair hpair => (hall pair hpair).1⟩
      · exact Value.forall_numbers_object.2 fun pair hpair => (hall pair hpair).2

/-- In an object that is read as a value, each key has the reading of its last field. -/
theorem map_last?_toValue? {fields : List (Option String × JsonSource)} {v : Value}
    (h : (object fields).toValue? = some v) (key : String) :
    (last? key fields).map toValue? = (v.object?.bind (Keyed.get? key)).map some := by
  rw [toValue?_object, Option.map_eq_some_iff] at h
  obtain ⟨pairs, hpairs, rfl⟩ := h
  rw [map_last? hpairs, Value.object?, Option.bind_some, Keyed.get?_ofPairs]

/-- In an object that is read as a document, each key has the reading of its last field. -/
theorem map_last?_toJson? {fields : List (Option String × JsonSource)} {document : Json}
    (h : (object fields).toJson? = some document) (key : String) :
    (last? key fields).map toJson? = (document.get? key).map some := by
  rw [toJson?_object, Option.map_eq_some_iff] at h
  obtain ⟨pairs, hpairs, rfl⟩ := h
  rw [map_last? hpairs, Json.get?, Keyed.get?_sorted]

end JsonSource

namespace Value

theorem sortKeys_beq_self {v : Value} (hv : v.WellFormed)
    (hfinite : ∀ x ∈ v.numbers, x.isFinite = true) : (v.sortKeys == v) = true := by
  induction v using Value.induct with
  | null => rfl
  | bool b => exact beq_self_eq_true b
  | number x => exact Binary64.equals_self (hfinite x List.mem_cons_self)
  | string s => exact beq_self_eq_true s
  | array items ih =>
      rw [sortKeys_array, beq_array_map_self]
      intro item hitem
      exact ih item hitem (wellFormed_array.1 hv item hitem)
        (forall_numbers_array.1 hfinite item hitem)
  | object fields ih =>
      obtain ⟨hdistinct, hfields⟩ := wellFormed_object.1 hv
      rw [sortKeys_object, beq_object_sorted, beq_object_mapValues_self hdistinct]
      intro field hfield
      exact ih field hfield (hfields field hfield)
        (forall_numbers_object.1 hfinite field hfield)

theorem operation?_of_length_ne {fields : List (String × Value)} (h : fields.length ≠ 1) :
    (object fields).operation? = none := by
  cases fields with
  | nil => rfl
  | cons field rest =>
      cases rest with
      | nil => exact absurd rfl h
      | cons other more => rfl

/-- Whether an object is an operation does not depend on the order of its keys. -/
theorem operation?_of_perm {fields others : List (String × Value)} (h : fields.Perm others) :
    (object fields).operation? = (object others).operation? := by
  by_cases hlength : others.length = 1
  · obtain ⟨other, rfl⟩ := List.length_eq_one_iff.1 hlength
    rw [List.perm_singleton.1 h]
  · rw [operation?_of_length_ne hlength, operation?_of_length_ne (h.length_eq ▸ hlength)]

theorem operation?_sortKeys {v : Value} (hv : v.WellFormed) :
    v.sortKeys.operation? = v.operation?.map fun field => (field.1, field.2.sortKeys) := by
  cases v with
  | object fields =>
      have hdistinct : Keyed.Distinct (Keyed.mapValues sortKeys fields) := by
        rw [Keyed.Distinct, Keyed.keys_mapValues]
        exact (wellFormed_object.1 hv).1
      rw [sortKeys_object, operation?_of_perm (Keyed.sorted_perm hdistinct)]
      by_cases hlength : fields.length = 1
      · obtain ⟨field, rfl⟩ := List.length_eq_one_iff.1 hlength
        rfl
      · have hmapped : (Keyed.mapValues sortKeys fields).length ≠ 1 := by
          rwa [Keyed.mapValues, List.length_map]
        rw [operation?_of_length_ne hlength, operation?_of_length_ne hmapped]
        rfl
  | _ => rfl

/-- For every text, the value of the document is the value with its keys sorted. -/
theorem ofText?_map_ofJson (text : String) :
    (Json.ofText? text).map ofJson = (ofText? text).map sortKeys := by
  rw [Json.ofText?, ofText?, JsonSource.ofBoundedText?]
  cases hsource : JsonSource.ofText? text with
  | none => rfl
  | some source =>
      have hagree := JsonSource.toJson?_map_ofJson (JsonSource.wholeNumerals_of_ofText? hsource)
      rw [Option.filter_some]
      split
      · exact hagree
      · rfl

/-- What is read from a text repeats no key and has finite numbers only. -/
theorem wellFormed_of_ofText? {text : String} {v : Value} (h : ofText? text = some v) :
    v.WellFormed ∧ ∀ x ∈ v.numbers, x.isFinite = true := by
  obtain ⟨source, -, hread⟩ := Option.bind_eq_some_iff.1 h
  exact JsonSource.wellFormed_of_toValue? hread

/-- In an object that is read, each key has the reading of the last field that bears it. -/
theorem last?_reads {α : Type} {t : JsonTarget α} {build : JsonSource → Option α}
    (hbuilds : t.Builds build) {found : Option JsonSource} {value : Option α}
    (h : found.map build = value.map some) : Option.Rel t.Reads found value := by
  cases found with
  | none =>
      cases value with
      | none => exact .none
      | some a => cases h
  | some source =>
      cases value with
      | none => cases h
      | some a => exact .some (hbuilds.reads_iff.2 (Option.some.inj h))

/-- A text is read as a host document exactly if it is read as a value.  The value of the document
is then the value itself with its keys sorted: it is equal, and an operation of the same name where
the value is one.  In both readings of an object, a key that repeats has the reading of its last
field. -/
theorem readings_agree {readValue : String → Option Value} {readJson : String → Option Json}
    (hvalue : JsonReader target readValue) (hjson : JsonReader Json.target readJson)
    (text : String) :
    (readJson text).isSome = (readValue text).isSome ∧
      (readJson text).map ofJson = (readValue text).map sortKeys ∧
      (∀ v document, readValue text = some v → readJson text = some document →
        (ofJson document == v) = true ∧
          (ofJson document).operation? =
            v.operation?.map fun field => (field.1, field.2.sortKeys)) ∧
      ∀ fields v document, (JsonSource.object fields).SpacedAs text.toList →
        readValue text = some v → readJson text = some document →
        ∀ key, Option.Rel target.Reads (JsonSource.last? key fields)
            (v.object?.bind (Keyed.get? key)) ∧
          Option.Rel Json.target.Reads (JsonSource.last? key fields) (document.get? key) := by
  rw [hvalue.unique JsonReader.ofText?_value, hjson.unique JsonReader.ofText?_json]
  have hmap := ofText?_map_ofJson text
  refine ⟨?_, hmap, ?_, ?_⟩
  · have hsome := congrArg Option.isSome hmap
    rwa [Option.isSome_map, Option.isSome_map] at hsome
  · intro v document hv hdocument
    rw [hv, hdocument] at hmap
    have hsorted : ofJson document = v.sortKeys := Option.some.inj hmap
    obtain ⟨hwell, hfinite⟩ := wellFormed_of_ofText? hv
    rw [hsorted]
    exact ⟨sortKeys_beq_self hwell hfinite, operation?_sortKeys hwell⟩
  · intro fields v document htext hv hdocument key
    have hsource : JsonSource.ofText? text = some (.object fields) :=
      JsonSource.ofChars?_eq_some_iff.2 htext
    rw [ofText?, Option.bind_eq_some_iff] at hv
    rw [Json.ofText?, Option.bind_eq_some_iff] at hdocument
    obtain ⟨source, hread, hv⟩ := hv
    obtain ⟨other, hother, hdocument⟩ := hdocument
    rw [JsonSource.ofBoundedText?, hsource, Option.filter_eq_some_iff] at hread hother
    cases hread.1
    cases hother.1
    exact ⟨last?_reads builds_toValue? (JsonSource.map_last?_toValue? hv key),
      last?_reads Json.builds_toJson? (JsonSource.map_last?_toJson? hdocument key)⟩

/-- An object whose one key is written twice. -/
def twiceNamedText : String := "\x7b\"if\":null,\"if\":[]\x7d"

/-- It is an operation in both readings, with the later argument. -/
theorem readings_agree_twiceNamedText :
    ofText? twiceNamedText = some (.object [("if", .array [])]) ∧
      Json.ofText? twiceNamedText = some (.object [("if", .array [])]) ∧
      (ofJson (.object [("if", .array [])])).operation? = some ("if", .array []) := by
  have hchars : twiceNamedText.toList = ['\x7b', '"', 'i', 'f', '"', ':', 'n', 'u', 'l', 'l', ',',
      '"', 'i', 'f', '"', ':', '[', ']', '\x7d'] := rfl
  have hsource : JsonSource.ofText? twiceNamedText =
      some (.object [(some "if", .null), (some "if", .array [])]) := by
    rw [JsonSource.ofText?, hchars]
    rfl
  have hvalue : ofText? twiceNamedText = some (.object [("if", .array [])]) := by
    rw [ofText?, JsonSource.ofBoundedText?, hsource]
    rfl
  have hdocument : Json.ofText? twiceNamedText = some (.object [("if", .array [])]) := by
    rw [Json.ofText?, JsonSource.ofBoundedText?, hsource]
    rfl
  obtain ⟨-, -, hagree, -⟩ :=
    readings_agree JsonReader.ofText?_value JsonReader.ofText?_json twiceNamedText
  obtain ⟨-, hoperation⟩ := hagree _ _ hvalue hdocument
  exact ⟨hvalue, hdocument, hoperation⟩

end Value

end JsonRules
