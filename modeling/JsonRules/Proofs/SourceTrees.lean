import JsonRules.Json.Basic
import JsonRules.Proofs.RepeatedKeys

/-!
JSON texts as trees.

`JsonSource.induct` is the induction on the trees of JSON texts.  A reader of trees reads the items
of an array one by one, and the fields of an object likewise, each with its key (`readField`).  In
an object that is read, a key has the reading of the last field that bears it (`map_last?`).
-/

namespace JsonRules.JsonSource

variable {α β γ δ : Type}

/-- Induction on the trees of texts: what holds of the items of an array and of the values in an
object is to hold of the whole. -/
theorem induct {motive : JsonSource → Prop} (null : motive .null) (bool : ∀ b, motive (.bool b))
    (number : ∀ numeral whole, motive (.number numeral whole))
    (string : ∀ text, motive (.string text))
    (array : ∀ items, (∀ item ∈ items, motive item) → motive (.array items))
    (object : ∀ fields, (∀ field ∈ fields, motive field.2) → motive (.object fields))
    (source : JsonSource) : motive source := by
  apply @JsonSource.rec motive (fun items => ∀ item ∈ items, motive item)
    (fun fields => ∀ field ∈ fields, motive field.2) (fun field => motive field.2)
    null bool number string array object
  · exact List.forall_mem_nil _
  · intro item rest hitem hrest
    exact List.forall_mem_cons.2 ⟨hitem, hrest⟩
  · exact List.forall_mem_nil _
  · intro field rest hfield hrest
    exact List.forall_mem_cons.2 ⟨hfield, hrest⟩
  · intro key value hvalue
    exact hvalue

/-- The reading of a field, for a reader of values. -/
def readField (read : JsonSource → Option α) (field : Option String × JsonSource) :
    Option (String × α) :=
  field.1.bind fun key => (read field.2).map fun value => (key, value)

theorem readField_eq_some {read : JsonSource → Option α}
    {field : Option String × JsonSource} {pair : String × α} :
    readField read field = some pair ↔ field.1 = some pair.1 ∧ read field.2 = some pair.2 := by
  obtain ⟨key, source⟩ := field
  obtain ⟨k, value⟩ := pair
  simp only [readField, Option.bind_eq_some_iff, Option.map_eq_some_iff, Prod.mk.injEq]
  constructor
  · rintro ⟨_, hkey, _, hread, rfl, rfl⟩
    exact ⟨hkey, hread⟩
  · rintro ⟨hkey, hread⟩
    exact ⟨k, hkey, value, hread, rfl, rfl⟩

theorem readField_map_congr {read : JsonSource → Option α} {other : JsonSource → Option β}
    {s : α → γ} {t : β → γ} {field : Option String × JsonSource}
    (h : (read field.2).map s = (other field.2).map t) :
    (readField read field).map (fun pair => (pair.1, s pair.2)) =
      (readField other field).map (fun pair => (pair.1, t pair.2)) := by
  have hpairs (key : String) := congrArg (Option.map (Prod.mk key)) h
  simp only [Option.map_map] at hpairs
  simp only [readField, Option.map_bind, Function.comp_def, Option.map_map]
  exact congrArg (Option.bind field.1) (funext hpairs)

theorem toValue?_array (items : List JsonSource) :
    (array items).toValue? = (items.mapM toValue?).map .array := by
  have hitems : toItems? items = items.mapM toValue? := by
    induction items with
    | nil => rfl
    | cons item rest ih => rw [toItems?, ih, List.mapM_cons]
  rw [toValue?, hitems]

theorem toValue?_object (fields : List (Option String × JsonSource)) :
    (object fields).toValue? =
      (fields.mapM (readField toValue?)).map fun pairs => .object (Keyed.ofPairs pairs) := by
  have hfields : toFields? fields = fields.mapM (readField toValue?) := by
    induction fields with
    | nil => rfl
    | cons field rest ih =>
        obtain ⟨key, item⟩ := field
        rw [toFields?, ih, List.mapM_cons, readField]
        cases key <;> cases item.toValue? <;> rfl
  rw [toValue?, hfields]

theorem toJson?_array (items : List JsonSource) :
    (array items).toJson? = (items.mapM toJson?).map .array := by
  have hitems : toJsonItems? items = items.mapM toJson? := by
    induction items with
    | nil => rfl
    | cons item rest ih => rw [toJsonItems?, ih, List.mapM_cons]
  rw [toJson?, hitems]

theorem toJson?_object (fields : List (Option String × JsonSource)) :
    (object fields).toJson? =
      (fields.mapM (readField toJson?)).map fun pairs => .object (Keyed.sorted pairs) := by
  have hfields : toJsonFields? fields = fields.mapM (readField toJson?) := by
    induction fields with
    | nil => rfl
    | cons field rest ih =>
        obtain ⟨key, item⟩ := field
        rw [toJsonFields?, ih, List.mapM_cons, readField]
        cases key <;> cases item.toJson? <;> rfl
  rw [toJson?, hfields]

/-- What was read one by one came from somewhere. -/
theorem exists_of_mem_mapM {f : α → Option β} {xs : List α} {ys : List β}
    (h : xs.mapM f = some ys) {y : β} (hy : y ∈ ys) : ∃ x ∈ xs, f x = some y := by
  induction xs generalizing ys with
  | nil =>
      cases h
      cases hy
  | cons x rest ih =>
      simp only [List.mapM_cons, Option.bind_eq_bind, Option.bind_eq_some_iff, Option.pure_def,
        Option.some.injEq] at h
      obtain ⟨first, hfirst, more, hmore, rfl⟩ := h
      rcases List.mem_cons.1 hy with rfl | hy
      · exact ⟨x, List.mem_cons_self, hfirst⟩
      · obtain ⟨other, hother, hread⟩ := ih hmore hy
        exact ⟨other, List.mem_cons_of_mem x hother, hread⟩

theorem mapM_map {f : α → Option β} (g : β → γ) (xs : List α) :
    (xs.mapM f).map (List.map g) = xs.mapM fun x => (f x).map g := by
  induction xs with
  | nil => rfl
  | cons x rest ih =>
      rw [List.mapM_cons, List.mapM_cons, ← ih]
      cases f x <;> cases rest.mapM f <;> rfl

/-- Two readings that agree one by one agree on the whole. -/
theorem mapM_map_congr {f : α → Option β} {g : α → Option γ} {s : β → δ} {t : γ → δ}
    {xs : List α} (h : ∀ x ∈ xs, (f x).map s = (g x).map t) :
    (xs.mapM f).map (List.map s) = (xs.mapM g).map (List.map t) := by
  rw [mapM_map, mapM_map]
  induction xs with
  | nil => rfl
  | cons x rest ih =>
      obtain ⟨hx, hrest⟩ := List.forall_mem_cons.1 h
      rw [List.mapM_cons, List.mapM_cons, hx, ih hrest]

/-- The value of the last field with a key. -/
def last? (key : String) : List (Option String × JsonSource) → Option JsonSource
  | [] => none
  | (k, item) :: rest => (last? key rest).or (if k = some key then some item else none)

/-- Of the fields of one key, the last one is read. -/
theorem map_last? {read : JsonSource → Option α} {fields : List (Option String × JsonSource)}
    {pairs : List (String × α)} (h : fields.mapM (readField read) = some pairs) (key : String) :
    (last? key fields).map read = (Keyed.get? key pairs.reverse).map some := by
  induction fields generalizing pairs with
  | nil =>
      cases h
      rfl
  | cons field rest ih =>
      simp only [List.mapM_cons, Option.bind_eq_bind, Option.bind_eq_some_iff, Option.pure_def,
        Option.some.injEq] at h
      obtain ⟨⟨k, value⟩, hfield, more, hmore, rfl⟩ := h
      obtain ⟨hkey, hread⟩ := readField_eq_some.1 hfield
      obtain ⟨name, item⟩ := field
      have hname : name = some k := hkey
      subst hname
      rw [last?, List.reverse_cons, Keyed.get?_append, Option.map_or, Option.map_or, ih hmore,
        Keyed.get?_cons, Keyed.get?_nil]
      by_cases hk : k = key
      · rw [if_pos hk, if_pos (congrArg some hk), Option.map_some, Option.map_some]
        exact congrArg (Option.or _) (congrArg some hread)
      · rw [if_neg hk, if_neg fun heq => hk (Option.some.inj heq)]
        rfl

end JsonRules.JsonSource
