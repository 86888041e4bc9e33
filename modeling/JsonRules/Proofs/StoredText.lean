import JsonRules.Proofs.HostDocuments
import JsonRules.Proofs.JsonReaders
import JsonRules.Proofs.WrittenValues

/-!
What is written for a value is undone by reading it.

Where a tree shows a value, the value is read from it (`Value.Shows.reads`).  So what any writer of
JSON writes is read back by any reader, bit for bit and key by key, with null in the place of the
numbers that have no digits (`Value.read_write`).  Stored text is written by such a writer
(`Value.jsonWriter_stored`).
-/

namespace JsonRules

namespace NumberFormat

theorem readAs_stored_of_not_isFinite {x : Binary64} (hx : ¬x.isFinite = true) :
    JsonSource.ReadAs (stored.write x) (some .null) := by
  intro count rest hrest
  cases x with
  | finite negative units h => exact absurd rfl hx
  | nan => rfl
  | infinite negative => cases negative <;> rfl

theorem readable_stored : stored.Readable := by
  apply stored.readable_of_not_isFinite
  intro x hx
  refine ⟨?_, some .null, readAs_stored_of_not_isFinite hx, ?_⟩
  · cases x with
    | finite negative units h => exact absurd rfl hx
    | nan => rfl
    | infinite negative => cases negative <;> rfl
  · intro source hsource
    cases hsource
    rfl

/-- The stored format keeps every sign, that of a negative zero too. -/
theorem readBack_stored (x : Binary64) : stored.readBack x = x := by
  cases x with
  | nan => rfl
  | infinite negative => rfl
  | finite negative units h =>
      have hsign : stored.writtenSign negative units = negative := by
        simp [writtenSign, stored]
      rw [readBack, hsign]

/-- The stored text of a number shows the number. -/
theorem exists_source?_stored (x : Binary64) :
    ∃ source, stored.source? x = some source ∧ (Value.number x).Shows source := by
  by_cases hx : x.isFinite = true
  · obtain ⟨numeral, whole, hread, hvalue⟩ := stored.read_finite hx
    rw [readBack_stored] at hvalue
    exact ⟨_, hread.ofChars?, .finite (Numeral.roundsToFinite_iff.2 hvalue)⟩
  · exact ⟨.null, (readAs_stored_of_not_isFinite hx).ofChars?, .notFinite hx⟩

end NumberFormat

namespace Value

/-! ## What a tree shows is read from it -/

theorem ItemsShow.height {items : List Value} {sources : List JsonSource}
    (h : ItemsShow items sources)
    (hheight : ∀ item ∈ items, ∀ {source}, item.Shows source → source.height = item.height) :
    JsonSource.heightItems sources = heightItems items := by
  induction items generalizing sources with
  | nil =>
      cases h
      rfl
  | cons item rest ih =>
      obtain ⟨hitem, hrest⟩ := List.forall_mem_cons.1 hheight
      cases h with
      | cons hshows hmore =>
          exact congrArg₂ max (hitem hshows) (ih hmore hrest)

theorem FieldsShow.height {fields : List (String × Value)}
    {sources : List (Option String × JsonSource)} (h : FieldsShow fields sources)
    (hheight : ∀ field ∈ fields, ∀ {source}, field.2.Shows source →
      source.height = field.2.height) :
    JsonSource.heightFields sources = heightFields fields := by
  induction fields generalizing sources with
  | nil =>
      cases h
      rfl
  | cons field rest ih =>
      obtain ⟨hfield, hrest⟩ := List.forall_mem_cons.1 hheight
      cases h with
      | cons hshows hmore =>
          exact congrArg₂ max (hfield hshows) (ih hmore hrest)

/-- The tree is nested as deep as the value. -/
theorem Shows.height {v : Value} {source : JsonSource} (h : v.Shows source) :
    source.height = v.height := by
  induction v using Value.induct generalizing source with
  | array items ih =>
      cases h with
      | array hitems => exact congrArg (· + 1) (hitems.height ih)
  | object fields ih =>
      cases h with
      | object hfields => exact congrArg (· + 1) (hfields.height ih)
  | _ =>
      cases h
      all_goals rfl

theorem ItemsShow.read {items : List Value} {sources : List JsonSource} {g : Value → Value}
    (h : ItemsShow items sources)
    (hreads : ∀ item ∈ items, ∀ {source}, item.Shows source → target.Reads source (g item)) :
    target.ItemsRead sources (items.map g) := by
  induction items generalizing sources with
  | nil =>
      cases h
      exact .nil
  | cons item rest ih =>
      obtain ⟨hitem, hrest⟩ := List.forall_mem_cons.1 hreads
      cases h with
      | cons hshows hmore => exact .cons (hitem hshows) (ih hmore hrest)

theorem FieldsShow.read {fields : List (String × Value)}
    {sources : List (Option String × JsonSource)} {g : Value → Value}
    (h : FieldsShow fields sources)
    (hreads : ∀ field ∈ fields, ∀ {source}, field.2.Shows source →
      target.Reads source (g field.2)) :
    target.FieldsRead sources (Keyed.mapValues g fields) := by
  induction fields generalizing sources with
  | nil =>
      cases h
      exact .nil
  | cons field rest ih =>
      obtain ⟨hfield, hrest⟩ := List.forall_mem_cons.1 hreads
      cases h with
      | cons hshows hmore => exact .cons (hfield hshows) (ih hmore hrest)

/-- From the tree the value is read, with null for the numbers that are not finite. -/
theorem Shows.reads {v : Value} {source : JsonSource} (h : v.Shows source) (hv : v.WellFormed) :
    target.Reads source (v.mapNumbers finiteOrNull) := by
  induction v using Value.induct generalizing source with
  | null =>
      cases h
      exact .null
  | bool b =>
      cases h
      exact .bool b
  | number x =>
      rw [mapNumbers, finiteOrNull]
      cases h with
      | finite hrounds =>
          rw [if_pos hrounds.1]
          exact .number ⟨x, rfl, hrounds⟩
      | notFinite hx =>
          rw [if_neg hx]
          exact .null
  | string s =>
      cases h
      exact .string s
  | array items ih =>
      have hitems := wellFormed_array.1 hv
      cases h with
      | array hshow =>
          rw [mapNumbers_array]
          exact .array (hshow.read fun item hitem _ hshows =>
            ih item hitem hshows (hitems item hitem))
  | object fields ih =>
      obtain ⟨hdistinct, hfields⟩ := wellFormed_object.1 hv
      have hkeys : Keyed.Distinct (Keyed.mapValues (mapNumbers finiteOrNull) fields) := by
        rw [Keyed.Distinct, Keyed.keys_mapValues]
        exact hdistinct
      cases h with
      | object hshow =>
          have hobject : target.object (Keyed.mapValues (mapNumbers finiteOrNull) fields) =
              .object (Keyed.mapValues (mapNumbers finiteOrNull) fields) :=
            congrArg Value.object (Keyed.ofPairs_of_distinct hkeys)
          rw [mapNumbers_object, ← hobject]
          exact .object (hshow.read fun field hfield _ hshows =>
            ih field hfield hshows (hfields field hfield))

/-! ## The stored text shows the value -/

theorem exists_sources_of_items {items : List Value}
    (h : ∀ item ∈ items, ∃ source, item.source? .stored = some source ∧ item.Shows source) :
    ∃ sources, sourcesOfItems .stored items = some sources ∧ ItemsShow items sources := by
  induction items with
  | nil => exact ⟨[], rfl, .nil⟩
  | cons item rest ih =>
      obtain ⟨hitem, hrest⟩ := List.forall_mem_cons.1 h
      obtain ⟨source, hsource, hshows⟩ := hitem
      obtain ⟨sources, hsources, hshow⟩ := ih hrest
      exact ⟨_, sourcesOfItems_cons_eq_some.2 ⟨source, sources, hsource, hsources, rfl⟩,
        .cons hshows hshow⟩

theorem exists_sources_of_fields {fields : List (String × Value)}
    (h : ∀ field ∈ fields, ∃ source, field.2.source? .stored = some source ∧
      field.2.Shows source) :
    ∃ sources, sourcesOfFields .stored fields = some sources ∧ FieldsShow fields sources := by
  induction fields with
  | nil => exact ⟨[], rfl, .nil⟩
  | cons field rest ih =>
      obtain ⟨hfield, hrest⟩ := List.forall_mem_cons.1 h
      obtain ⟨source, hsource, hshows⟩ := hfield
      obtain ⟨sources, hsources, hshow⟩ := ih hrest
      exact ⟨_, sourcesOfFields_cons_eq_some.2 ⟨source, sources, hsource, hsources, rfl⟩,
        .cons hshows hshow⟩

theorem exists_source_stored (v : Value) :
    ∃ source, v.source? .stored = some source ∧ v.Shows source := by
  induction v using Value.induct with
  | null => exact ⟨.null, rfl, .null⟩
  | bool b => exact ⟨.bool b, rfl, .bool b⟩
  | number x => exact NumberFormat.exists_source?_stored x
  | string s => exact ⟨.string (some s), rfl, .string s⟩
  | array items ih =>
      obtain ⟨sources, hsources, hshow⟩ := exists_sources_of_items ih
      exact ⟨.array sources, Option.map_eq_some_iff.2 ⟨sources, hsources, rfl⟩, .array hshow⟩
  | object fields ih =>
      obtain ⟨sources, hsources, hshow⟩ := exists_sources_of_fields ih
      exact ⟨.object sources, Option.map_eq_some_iff.2 ⟨sources, hsources, rfl⟩, .object hshow⟩

/-- The stored text is written by a writer of JSON. -/
theorem jsonWriter_stored : JsonWriter stored where
  writes := by
    intro v
    obtain ⟨source, hsource, hshows⟩ := exists_source_stored v
    refine ⟨source, ?_, hshows⟩
    rw [stored, String.toList_ofList, ← JsonSource.ofChars?_eq_some_iff,
      ofChars?_write NumberFormat.readable_stored, hsource]

/-- What a writer of JSON writes for a value, a reader of JSON reads as the value itself, the same
at every place and with the keys in their order, but for null in the place of every number that is
not finite. -/
theorem read_write {read : String → Option Value} {write : Value → String}
    (hread : JsonReader target read) (hwrite : JsonWriter write) (d : Datum)
    (hdepth : d.value.height ≤ JsonSource.heightLimit) :
    read (write d.value) = some (d.value.mapNumbers finiteOrNull) := by
  obtain ⟨source, htext, hshows⟩ := hwrite.writes d.value
  exact hread.complete htext (hshows.height ▸ hdepth) (hshows.reads d.wellFormed)

/-- A value with the least number, a negative zero, and numbers that are not finite, below keys that
do not ascend. -/
def mixedValue : Datum where
  value := .object
    [("z", .array [.number (.zero true), .number .nan, .number (.ofRatio true 1 1)]),
      ("", .object [("\u2028", .number (.infinite true))])]
  wellFormed := by
    simp [WellFormed, WellFormedItems, WellFormedFields, Keyed.Distinct, Keyed.keys]

/-- Its stored text keeps the negative zero and the least number, and has null twice. -/
theorem read_write_mixedValue :
    mixedValue.value.height ≤ JsonSource.heightLimit ∧
      ofText? mixedValue.value.stored = some (.object
        [("z", .array [.number (.zero true), .null, .number (.ofRatio true 1 1)]),
          ("", .object [("\u2028", .null)])]) := by
  have hdepth : mixedValue.value.height ≤ JsonSource.heightLimit := by decide
  have hzero : finiteOrNull (.zero true) = .number (.zero true) := rfl
  have hleast : finiteOrNull (.ofRatio true 1 1) = .number (.ofRatio true 1 1) :=
    if_pos (Binary64.isFinite_ofRatio_one true)
  have hnan : finiteOrNull .nan = .null := rfl
  have hinfinite : finiteOrNull (.infinite true) = .null := rfl
  refine ⟨hdepth, ?_⟩
  rw [read_write JsonReader.ofText?_value jsonWriter_stored mixedValue hdepth]
  simp only [mixedValue, mapNumbers, mapNumbersOfFields, mapNumbersOfItems, hzero, hleast, hnan,
    hinfinite]

end Value

end JsonRules
