import JsonRules.Proofs.GrammarReading
import JsonRules.Proofs.ValueTrees
import JsonRules.Proofs.WrittenNumbers
import JsonRules.Value.Text

/-!
Written values, read as JSON.

`Value.source?` is the tree that the text of a value has as JSON, given what the texts of its
numbers are as JSON.  The reader finds this tree (`Value.reads`), which is nested as deep as the
value and stands for the value with each number as it is read back (`Value.source?_bind_toValue?`).
-/

namespace JsonRules.Value

open JsonSource

variable {format : NumberFormat}

mutual

/-- The tree of a value's text, if the text is JSON. -/
def source? (format : NumberFormat) : Value → Option JsonSource
  | .null => some .null
  | .bool b => some (.bool b)
  | .number x => format.source? x
  | .string s => some (.string (some s))
  | .array items => (sourcesOfItems format items).map .array
  | .object fields => (sourcesOfFields format fields).map .object

def sourcesOfItems (format : NumberFormat) : List Value → Option (List JsonSource)
  | [] => some []
  | item :: rest => do
    let source ← item.source? format
    let sources ← sourcesOfItems format rest
    return source :: sources

def sourcesOfFields (format : NumberFormat) :
    List (String × Value) → Option (List (Option String × JsonSource))
  | [] => some []
  | (key, value) :: rest => do
    let source ← value.source? format
    let sources ← sourcesOfFields format rest
    return (some key, source) :: sources

end

theorem source?_array (items : List Value) :
    (array items).source? format = (sourcesOfItems format items).map .array := rfl

theorem source?_object (fields : List (String × Value)) :
    (object fields).source? format = (sourcesOfFields format fields).map .object := rfl

theorem sourcesOfItems_cons (item : Value) (rest : List Value) :
    sourcesOfItems format (item :: rest) =
      (item.source? format).bind fun source => (sourcesOfItems format rest).map (source :: ·) := by
  change ((item.source? format).bind fun source =>
    (sourcesOfItems format rest).bind fun sources => some (source :: sources)) = _
  cases item.source? format <;> cases sourcesOfItems format rest <;> rfl

theorem sourcesOfFields_cons (key : String) (value : Value) (rest : List (String × Value)) :
    sourcesOfFields format ((key, value) :: rest) =
      (value.source? format).bind fun source =>
        (sourcesOfFields format rest).map ((some key, source) :: ·) := by
  change ((value.source? format).bind fun source =>
    (sourcesOfFields format rest).bind fun sources => some ((some key, source) :: sources)) = _
  cases value.source? format <;> cases sourcesOfFields format rest <;> rfl

/-! ## The text is read as the tree -/

/-- With two calls for each character, the text of the value is read as its tree. -/
def Reads (format : NumberFormat) (v : Value) : Prop :=
  ∀ count rest, 2 * (v.write format).length ≤ count → NumeralEnds rest →
    readValue count (v.write format ++ rest) =
      (v.source? format).map fun source => (source, rest)

theorem valueStarts_write (hformat : format.Readable) (v : Value) :
    ValueStarts (v.write format) := by
  cases v with
  | null => rfl
  | bool b => cases b <;> rfl
  | number x => exact hformat.starts x
  | string s => rfl
  | array items => cases items <;> rfl
  | object fields => cases fields <;> rfl

theorem numeralEnds_writeItems (items : List Value) (tail : List Char) :
    NumeralEnds (writeItems format items ++ tail) := by
  cases items with
  | nil => exact ⟨rfl, by decide, by decide, by decide⟩
  | cons item rest => exact ⟨rfl, by decide, by decide, by decide⟩

theorem numeralEnds_writeFields (fields : List (String × Value)) (tail : List Char) :
    NumeralEnds (writeFields format fields ++ tail) := by
  cases fields with
  | nil => exact ⟨rfl, by decide, by decide, by decide⟩
  | cons field rest => exact ⟨rfl, by decide, by decide, by decide⟩

theorem readItems_none {count : Nat} {text : List Char} (h : readValue count text = none) :
    readItems (count + 1) text = none := by
  rw [readItems_succ, h]

theorem writeItems_cons (item : Value) (rest : List Value) :
    writeItems format (item :: rest) = ',' :: (item.write format ++ writeItems format rest) :=
  rfl

/-- The items of an array are read up to its closing bracket. -/
theorem readItems_write {item : Value} {more : List Value}
    (h : ∀ v ∈ item :: more, Reads format v) {count : Nat}
    (hcount : 2 * (item.write format ++ writeItems format more).length < count)
    (tail : List Char) :
    readItems count (item.write format ++ (writeItems format more ++ tail)) =
      (sourcesOfItems format (item :: more)).map fun sources => (sources, tail) := by
  obtain ⟨n, rfl⟩ : ∃ n, count = n + 1 := ⟨count - 1, by omega⟩
  rw [List.length_append] at hcount
  have hitem := h item List.mem_cons_self n (writeItems format more ++ tail) (by omega)
    (numeralEnds_writeItems more tail)
  rw [sourcesOfItems_cons]
  cases hsource : item.source? format with
  | none =>
      rw [hsource] at hitem
      rw [readItems_none hitem]
      rfl
  | some source =>
      rw [hsource] at hitem
      cases more with
      | nil =>
          rw [readItems_last hitem rfl]
          rfl
      | cons next rest =>
          rw [writeItems_cons, List.length_cons] at hcount
          have hrest := readItems_write (fun v hv => h v (List.mem_cons_of_mem item hv))
            (show 2 * (next.write format ++ writeItems format rest).length < n by omega) tail
          have hcomma : readValue n
              (item.write format ++ (writeItems format (next :: rest) ++ tail)) =
              some (source, ',' :: (next.write format ++ (writeItems format rest ++ tail))) := by
            rw [hitem, writeItems_cons]
            simp
          rw [readItems_more hcomma rfl, hrest, Option.bind_some, Option.map_map, Option.map_map]
          rfl
termination_by more

theorem writeFields_cons (key : String) (value : Value) (rest : List (String × Value)) :
    writeFields format ((key, value) :: rest) =
      ',' :: (Text.quote key.toList ++ ':' :: (value.write format ++ writeFields format rest)) :=
  List.append_assoc (',' :: Text.quote key.toList) (':' :: value.write format) _

/-- The fields of an object are read up to its closing brace. -/
theorem readFields_write {key : String} {value : Value} {more : List (String × Value)}
    (h : ∀ field ∈ (key, value) :: more, Reads format field.2) {count : Nat}
    (hcount : 2 * (value.write format ++ writeFields format more).length < count)
    (tail : List Char) :
    readFields count
        (Text.quote key.toList ++
          ':' :: (value.write format ++ (writeFields format more ++ tail))) =
      (sourcesOfFields format ((key, value) :: more)).map fun sources => (sources, tail) := by
  obtain ⟨n, rfl⟩ : ∃ n, count = n + 1 := ⟨count - 1, by omega⟩
  rw [List.length_append] at hcount
  have hreads : Reads format value := h (key, value) List.mem_cons_self
  have hvalue := hreads n (writeFields format more ++ tail) (by omega)
    (numeralEnds_writeFields more tail)
  rw [sourcesOfFields_cons]
  cases hsource : value.source? format with
  | none =>
      rw [hsource] at hvalue
      have hread := readFields_none blanks_nil (quotedAs_quote key) blanks_nil hvalue
      exact hread
  | some source =>
      rw [hsource] at hvalue
      cases more with
      | nil =>
          have hclose : skipBlanks (writeFields format [] ++ tail) = '}' :: tail := rfl
          have hread := readFields_last blanks_nil (quotedAs_quote key) blanks_nil hvalue hclose
          exact hread
      | cons next rest =>
          obtain ⟨nextKey, nextValue⟩ := next
          rw [writeFields_cons, List.length_cons, List.length_append, List.length_cons] at hcount
          have hrest := readFields_write
            (fun field hfield => h field (List.mem_cons_of_mem (key, value) hfield))
            (show 2 * (nextValue.write format ++ writeFields format rest).length < n by omega) tail
          have hcomma : readValue n
              (value.write format ++ (writeFields format ((nextKey, nextValue) :: rest) ++ tail)) =
              some (source, ',' :: (Text.quote nextKey.toList ++
                ':' :: (nextValue.write format ++ (writeFields format rest ++ tail)))) := by
            rw [hvalue, writeFields_cons]
            simp
          have hread := readFields_more blanks_nil (quotedAs_quote key) blanks_nil hcomma rfl
          refine hread.trans ?_
          rw [hrest, Option.bind_some, Option.map_map, Option.map_map]
          rfl
termination_by more

/-! ## Values -/

theorem readValue_quote (s : String) (rest : List Char) (count : Nat) :
    readValue (count + 1) (Text.quote s.toList ++ rest) = some (.string (some s), rest) := by
  obtain ⟨body, hbody, hread⟩ := (quotedAs_quote s).readString rest
  rw [hbody, readValue_mark, hread]
  rfl

theorem not_closed_quote (key : String) (text tail : List Char) :
    skipBlanks (Text.quote key.toList ++ text) ≠ '}' :: tail := nofun

theorem write_array_cons (item : Value) (rest : List Value) :
    (array (item :: rest)).write format =
      '[' :: (item.write format ++ writeItems format rest) := rfl

theorem write_object_cons (key : String) (value : Value) (rest : List (String × Value)) :
    (object ((key, value) :: rest)).write format =
      '{' :: (Text.quote key.toList ++
        ':' :: (value.write format ++ writeFields format rest)) :=
  List.append_assoc ('{' :: Text.quote key.toList) (':' :: value.write format) _

/-- A written value has a character, so at least one call is left for it. -/
theorem reads_of_succ (hformat : format.Readable) {v : Value}
    (h : ∀ count rest, 2 * (v.write format).length ≤ count + 1 → NumeralEnds rest →
      readValue (count + 1) (v.write format ++ rest) =
        (v.source? format).map fun source => (source, rest)) : Reads format v := by
  intro count rest hcount hends
  have hstarts := valueStarts_write hformat v
  cases count with
  | zero =>
      have hempty : v.write format = [] := List.eq_nil_of_length_eq_zero (by omega)
      rw [hempty] at hstarts
      exact hstarts.elim
  | succ n => exact h n rest hcount hends

/-- The reader finds the tree of every written value, or nothing if there is none. -/
theorem reads (hformat : format.Readable) (v : Value) : Reads format v := by
  induction v using Value.induct with
  | null => exact reads_of_succ hformat fun _ _ _ _ => rfl
  | bool b =>
      refine reads_of_succ hformat fun _ _ _ _ => ?_
      cases b <;> rfl
  | number x =>
      refine reads_of_succ hformat fun count rest _ hends => ?_
      exact hformat.read x count rest hends
  | string s =>
      refine reads_of_succ hformat fun count rest _ _ => ?_
      exact readValue_quote s rest count
  | array items ih =>
      refine reads_of_succ hformat fun count rest hcount _ => ?_
      cases items with
      | nil => rfl
      | cons item more =>
          rw [write_array_cons, List.length_cons] at hcount
          rw [write_array_cons, List.cons_append, List.append_assoc,
            readValue_array ((valueStarts_write hformat item).append _).not_closed,
            readItems_write ih (by omega), source?_array, Option.map_map, Option.map_map]
          rfl
  | object fields ih =>
      refine reads_of_succ hformat fun count rest hcount _ => ?_
      cases fields with
      | nil => rfl
      | cons field more =>
          obtain ⟨key, value⟩ := field
          rw [write_object_cons, List.length_cons, List.length_append, List.length_cons] at hcount
          have htext : (object ((key, value) :: more)).write format ++ rest =
              '{' :: (Text.quote key.toList ++
                ':' :: (value.write format ++ (writeFields format more ++ rest))) := by
            rw [write_object_cons]
            simp
          rw [htext, readValue_object (not_closed_quote key _), readFields_write ih (by omega),
            source?_object, Option.map_map, Option.map_map]
          rfl

/-- Alone, the text of a value is its tree. -/
theorem ofChars?_write (hformat : format.Readable) (v : Value) :
    ofChars? (v.write format) = v.source? format := by
  have hread := reads hformat v (2 * (v.write format).length + 1) [] (by omega) trivial
  rw [List.append_nil] at hread
  rw [ofChars?, hread]
  cases v.source? format with
  | none => rfl
  | some source => rfl

/-! ## What the tree says -/

theorem sourcesOfItems_cons_eq_some {item : Value} {rest : List Value}
    {sources : List JsonSource} :
    sourcesOfItems format (item :: rest) = some sources ↔
      ∃ first others, item.source? format = some first ∧
        sourcesOfItems format rest = some others ∧ first :: others = sources := by
  simp only [sourcesOfItems_cons, Option.bind_eq_some_iff, Option.map_eq_some_iff]
  constructor
  · rintro ⟨first, hfirst, others, hothers, rfl⟩
    exact ⟨first, others, hfirst, hothers, rfl⟩
  · rintro ⟨first, others, hfirst, hothers, rfl⟩
    exact ⟨first, hfirst, others, hothers, rfl⟩

theorem sourcesOfFields_cons_eq_some {key : String} {value : Value}
    {rest : List (String × Value)} {sources : List (Option String × JsonSource)} :
    sourcesOfFields format ((key, value) :: rest) = some sources ↔
      ∃ first others, value.source? format = some first ∧
        sourcesOfFields format rest = some others ∧ (some key, first) :: others = sources := by
  simp only [sourcesOfFields_cons, Option.bind_eq_some_iff, Option.map_eq_some_iff]
  constructor
  · rintro ⟨first, hfirst, others, hothers, rfl⟩
    exact ⟨first, others, hfirst, hothers, rfl⟩
  · rintro ⟨first, others, hfirst, hothers, rfl⟩
    exact ⟨first, hfirst, others, hothers, rfl⟩

/-- Items that are read back one by one are read back together. -/
theorem toItems?_sources {g : Value → Value} {items : List Value}
    (h : ∀ item ∈ items, (item.source? format).bind toValue? = some (g item)) :
    (sourcesOfItems format items).bind (List.mapM toValue?) = some (items.map g) := by
  induction items with
  | nil => rfl
  | cons item rest ih =>
      obtain ⟨hitem, hrest⟩ := List.forall_mem_cons.1 h
      obtain ⟨first, hfirst, hvalue⟩ := Option.bind_eq_some_iff.1 hitem
      obtain ⟨others, hothers, hvalues⟩ := Option.bind_eq_some_iff.1 (ih hrest)
      rw [sourcesOfItems_cons_eq_some.2 ⟨first, others, hfirst, hothers, rfl⟩]
      simp [hvalue, hvalues]

theorem toFields?_sources {g : Value → Value} {fields : List (String × Value)}
    (h : ∀ field ∈ fields, (field.2.source? format).bind toValue? = some (g field.2)) :
    (sourcesOfFields format fields).bind (List.mapM (readField toValue?)) =
      some (Keyed.mapValues g fields) := by
  induction fields with
  | nil => rfl
  | cons field rest ih =>
      obtain ⟨key, value⟩ := field
      obtain ⟨hfield, hrest⟩ := List.forall_mem_cons.1 h
      obtain ⟨first, hfirst, hvalue⟩ := Option.bind_eq_some_iff.1 hfield
      obtain ⟨others, hothers, hvalues⟩ := Option.bind_eq_some_iff.1 (ih hrest)
      rw [sourcesOfFields_cons_eq_some.2 ⟨first, others, hfirst, hothers, rfl⟩]
      have hread : readField toValue? (some key, first) = some (key, g value) :=
        readField_eq_some.2 ⟨rfl, hvalue⟩
      simp [hread, hvalues]

/-- If every number is read back as some value, the whole is read back with these values. -/
theorem source?_bind_toValue? {g : Binary64 → Value} {v : Value} (hv : v.WellFormed)
    (h : ∀ x ∈ v.numbers, (format.source? x).bind toValue? = some (g x)) :
    (v.source? format).bind toValue? = some (v.mapNumbers g) := by
  induction v using Value.induct with
  | null => rfl
  | bool b => rfl
  | number x => exact h x (by simp [numbers])
  | string s => rfl
  | array items ih =>
      have hitems := wellFormed_array.1 hv
      have hnumbers := forall_numbers_array.1 h
      have hread := toItems?_sources fun item hitem =>
        ih item hitem (hitems item hitem) (hnumbers item hitem)
      obtain ⟨sources, hsources, hvalues⟩ := Option.bind_eq_some_iff.1 hread
      rw [source?_array, hsources, mapNumbers_array]
      simp [toValue?_array, hvalues]
  | object fields ih =>
      obtain ⟨hdistinct, hfields⟩ := wellFormed_object.1 hv
      have hnumbers := forall_numbers_object.1 h
      have hread := toFields?_sources fun field hfield =>
        ih field hfield (hfields field hfield) (hnumbers field hfield)
      obtain ⟨sources, hsources, hvalues⟩ := Option.bind_eq_some_iff.1 hread
      have hkeys : Keyed.Distinct (Keyed.mapValues (mapNumbers g) fields) := by
        rw [Keyed.Distinct, Keyed.keys_mapValues]
        exact hdistinct
      rw [source?_object, hsources, mapNumbers_object]
      simp [toValue?_object, hvalues, Keyed.ofPairs_of_distinct hkeys]

theorem heightItems_sources {items : List Value} {sources : List JsonSource}
    (h : ∀ item ∈ items, ∀ source, item.source? format = some source →
      source.height = item.height)
    (hsources : sourcesOfItems format items = some sources) :
    JsonSource.heightItems sources = heightItems items := by
  induction items generalizing sources with
  | nil =>
      cases hsources
      rfl
  | cons item rest ih =>
      obtain ⟨hitem, hrest⟩ := List.forall_mem_cons.1 h
      obtain ⟨first, others, hfirst, hothers, rfl⟩ := sourcesOfItems_cons_eq_some.1 hsources
      exact congrArg₂ max (hitem first hfirst) (ih hrest hothers)

theorem heightFields_sources {fields : List (String × Value)}
    {sources : List (Option String × JsonSource)}
    (h : ∀ field ∈ fields, ∀ source, field.2.source? format = some source →
      source.height = field.2.height)
    (hsources : sourcesOfFields format fields = some sources) :
    JsonSource.heightFields sources = heightFields fields := by
  induction fields generalizing sources with
  | nil =>
      cases hsources
      rfl
  | cons field rest ih =>
      obtain ⟨key, value⟩ := field
      obtain ⟨hfield, hrest⟩ := List.forall_mem_cons.1 h
      obtain ⟨first, others, hfirst, hothers, rfl⟩ := sourcesOfFields_cons_eq_some.1 hsources
      exact congrArg₂ max (hfield first hfirst) (ih hrest hothers)

/-- The tree is nested as deep as the value. -/
theorem height_of_source? (hformat : format.Readable) {v : Value} {source : JsonSource}
    (h : v.source? format = some source) : source.height = v.height := by
  induction v using Value.induct generalizing source with
  | null =>
      cases h
      rfl
  | bool b =>
      cases h
      rfl
  | number x => exact hformat.height x source h
  | string s =>
      cases h
      rfl
  | array items ih =>
      obtain ⟨sources, hsources, rfl⟩ := Option.map_eq_some_iff.1 h
      exact congrArg (· + 1) (heightItems_sources (fun item hitem _ => ih item hitem) hsources)
  | object fields ih =>
      obtain ⟨sources, hsources, rfl⟩ := Option.map_eq_some_iff.1 h
      exact congrArg (· + 1) (heightFields_sources (fun field hfield _ => ih field hfield) hsources)

/-- Reading the text of a value gives what its tree stands for. -/
theorem ofText?_write (hformat : format.Readable) {v : Value}
    (hdepth : v.height ≤ JsonSource.heightLimit) :
    ofText? (String.ofList (v.write format)) = (v.source? format).bind JsonSource.toValue? := by
  rw [ofText?, JsonSource.ofBoundedText?, JsonSource.ofText?, String.toList_ofList,
    ofChars?_write hformat]
  cases hsource : v.source? format with
  | none => rfl
  | some source =>
      have hbound : source.height ≤ JsonSource.heightLimit :=
        height_of_source? hformat hsource ▸ hdepth
      rw [Option.filter_some, if_pos (decide_eq_true hbound)]

theorem exists_source_of_mem_items {items : List Value} {sources : List JsonSource}
    (h : sourcesOfItems format items = some sources) {item : Value} (hitem : item ∈ items) :
    ∃ source, item.source? format = some source := by
  induction items generalizing sources with
  | nil => cases hitem
  | cons first rest ih =>
      obtain ⟨source, others, hsource, hothers, -⟩ := sourcesOfItems_cons_eq_some.1 h
      rcases List.mem_cons.1 hitem with rfl | hrest
      · exact ⟨source, hsource⟩
      · exact ih hothers hrest

theorem exists_source_of_mem_fields {fields : List (String × Value)}
    {sources : List (Option String × JsonSource)}
    (h : sourcesOfFields format fields = some sources) {field : String × Value}
    (hfield : field ∈ fields) : ∃ source, field.2.source? format = some source := by
  induction fields generalizing sources with
  | nil => cases hfield
  | cons first rest ih =>
      obtain ⟨key, value⟩ := first
      obtain ⟨source, others, hsource, hothers, -⟩ := sourcesOfFields_cons_eq_some.1 h
      rcases List.mem_cons.1 hfield with rfl | hrest
      · exact ⟨source, hsource⟩
      · exact ih hothers hrest

/-- Where the text of a value is JSON, so is the text of every number in it. -/
theorem exists_source_of_mem_numbers {v : Value} {source : JsonSource}
    (h : v.source? format = some source) :
    ∀ x ∈ v.numbers, ∃ number, format.source? x = some number := by
  induction v using Value.induct generalizing source with
  | null => exact List.forall_mem_nil _
  | bool b => exact List.forall_mem_nil _
  | number x => exact List.forall_mem_singleton.2 ⟨source, h⟩
  | string s => exact List.forall_mem_nil _
  | array items ih =>
      obtain ⟨sources, hsources, -⟩ := Option.map_eq_some_iff.1 h
      refine forall_numbers_array.2 fun item hitem => ?_
      obtain ⟨found, hfound⟩ := exists_source_of_mem_items hsources hitem
      exact ih item hitem hfound
  | object fields ih =>
      obtain ⟨sources, hsources, -⟩ := Option.map_eq_some_iff.1 h
      refine forall_numbers_object.2 fun field hfield => ?_
      obtain ⟨found, hfound⟩ := exists_source_of_mem_fields hsources hfield
      exact ih field hfield hfound

end JsonRules.Value
