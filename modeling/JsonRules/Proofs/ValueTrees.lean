import JsonRules.Json.Basic
import JsonRules.Proofs.KeyOrder

/-!
Values as trees.

`Value.induct` is the induction on values, and every function that goes through a value is given on
arrays and objects by what it does to items and fields.  Two arrays or objects made from the same
items or fields are equal when the parts are equal one by one (`beq_array_map`,
`beq_object_mapValues`).
-/

namespace JsonRules.Value

/-- Induction on values: what holds of the items of an array and of the values in an object is to
hold of the whole. -/
theorem induct {motive : Value → Prop} (null : motive .null) (bool : ∀ b, motive (.bool b))
    (number : ∀ x, motive (.number x)) (string : ∀ s, motive (.string s))
    (array : ∀ items, (∀ item ∈ items, motive item) → motive (.array items))
    (object : ∀ fields, (∀ field ∈ fields, motive field.2) → motive (.object fields))
    (v : Value) : motive v := by
  refine @Value.rec motive (fun items => ∀ item ∈ items, motive item)
    (fun fields => ∀ field ∈ fields, motive field.2) (fun field => motive field.2)
    null bool number string array object ?_ ?_ ?_ ?_ ?_ v
  · exact List.forall_mem_nil _
  · intro item rest hitem hrest
    exact List.forall_mem_cons.2 ⟨hitem, hrest⟩
  · exact List.forall_mem_nil _
  · intro field rest hfield hrest
    exact List.forall_mem_cons.2 ⟨hfield, hrest⟩
  · intro key value hvalue
    exact hvalue

mutual

def numbers : Value → List Binary64
  | .number x => [x]
  | .array items => numbersOfItems items
  | .object fields => numbersOfFields fields
  | _ => []

def numbersOfItems : List Value → List Binary64
  | [] => []
  | item :: rest => item.numbers ++ numbersOfItems rest

def numbersOfFields : List (String × Value) → List Binary64
  | [] => []
  | (_, value) :: rest => value.numbers ++ numbersOfFields rest

end

mutual

/-- The value with something else in the place of every number. -/
def mapNumbers (g : Binary64 → Value) : Value → Value
  | .number x => g x
  | .array items => .array (mapNumbersOfItems g items)
  | .object fields => .object (mapNumbersOfFields g fields)
  | value => value

def mapNumbersOfItems (g : Binary64 → Value) : List Value → List Value
  | [] => []
  | item :: rest => item.mapNumbers g :: mapNumbersOfItems g rest

def mapNumbersOfFields (g : Binary64 → Value) : List (String × Value) → List (String × Value)
  | [] => []
  | (key, value) :: rest => (key, value.mapNumbers g) :: mapNumbersOfFields g rest

end

theorem mem_numbers_array {x : Binary64} {items : List Value} :
    x ∈ (array items).numbers ↔ ∃ item ∈ items, x ∈ item.numbers := by
  rw [numbers]
  induction items with
  | nil => simp [numbersOfItems]
  | cons item rest ih => simp [numbersOfItems, ih]

theorem mem_numbers_object {x : Binary64} {fields : List (String × Value)} :
    x ∈ (object fields).numbers ↔ ∃ field ∈ fields, x ∈ field.2.numbers := by
  rw [numbers]
  induction fields with
  | nil => simp [numbersOfFields]
  | cons field rest ih =>
      obtain ⟨key, value⟩ := field
      simp [numbersOfFields, ih]

/-- Something holds of all numbers in an array if it holds of those in each item. -/
theorem forall_numbers_array {p : Binary64 → Prop} {items : List Value} :
    (∀ x ∈ (array items).numbers, p x) ↔ ∀ item ∈ items, ∀ x ∈ item.numbers, p x := by
  simp only [mem_numbers_array, forall_exists_index, and_imp]
  exact ⟨fun h item hitem x hx => h x item hitem hx, fun h x item hitem hx => h item hitem x hx⟩

theorem forall_numbers_object {p : Binary64 → Prop} {fields : List (String × Value)} :
    (∀ x ∈ (object fields).numbers, p x) ↔ ∀ field ∈ fields, ∀ x ∈ field.2.numbers, p x := by
  simp only [mem_numbers_object, forall_exists_index, and_imp]
  exact ⟨fun h field hfield x hx => h x field hfield hx,
    fun h x field hfield hx => h field hfield x hx⟩

@[simp] theorem mapNumbers_array (g : Binary64 → Value) (items : List Value) :
    (array items).mapNumbers g = array (items.map (mapNumbers g)) := by
  rw [mapNumbers]
  induction items with
  | nil => rfl
  | cons item rest ih => simpa [mapNumbersOfItems] using ih

@[simp] theorem mapNumbers_object (g : Binary64 → Value) (fields : List (String × Value)) :
    (object fields).mapNumbers g = object (Keyed.mapValues (mapNumbers g) fields) := by
  rw [mapNumbers]
  induction fields with
  | nil => rfl
  | cons field rest ih =>
      obtain ⟨key, value⟩ := field
      simpa [mapNumbersOfFields] using ih

@[simp] theorem toJson_array (items : List Value) :
    (array items).toJson = .array (items.map toJson) := by
  rw [toJson]
  induction items with
  | nil => rfl
  | cons item rest ih => simpa [toJsonItems] using ih

@[simp] theorem toJson_object (fields : List (String × Value)) :
    (object fields).toJson = .object (Keyed.sorted (Keyed.mapValues toJson fields)) := by
  have hfields : toJsonFields fields = Keyed.mapValues toJson fields := by
    induction fields with
    | nil => rfl
    | cons field rest ih => rw [toJsonFields, ih, Keyed.mapValues_cons]
  rw [toJson, hfields]

@[simp] theorem ofJson_array (items : List Json) :
    ofJson (.array items) = array (items.map ofJson) := by
  rw [ofJson]
  induction items with
  | nil => rfl
  | cons item rest ih => simpa [ofJsonItems] using ih

@[simp] theorem ofJson_object (fields : List (String × Json)) :
    ofJson (.object fields) = object (Keyed.mapValues ofJson fields) := by
  rw [ofJson]
  induction fields with
  | nil => rfl
  | cons field rest ih =>
      obtain ⟨key, value⟩ := field
      simpa [ofJsonFields] using ih

@[simp] theorem sortKeys_array (items : List Value) :
    (array items).sortKeys = array (items.map sortKeys) := by
  rw [sortKeys]
  induction items with
  | nil => rfl
  | cons item rest ih => simpa [sortKeysItems] using ih

@[simp] theorem sortKeys_object (fields : List (String × Value)) :
    (object fields).sortKeys = object (Keyed.sorted (Keyed.mapValues sortKeys fields)) := by
  have hfields : sortKeysFields fields = Keyed.mapValues sortKeys fields := by
    induction fields with
    | nil => rfl
    | cons field rest ih => rw [sortKeysFields, ih, Keyed.mapValues_cons]
  rw [sortKeys, hfields]

theorem wellFormed_array {items : List Value} :
    (array items).WellFormed ↔ ∀ item ∈ items, item.WellFormed := by
  rw [WellFormed]
  induction items with
  | nil => simp [WellFormedItems]
  | cons item rest ih => simp [WellFormedItems, ih]

theorem wellFormed_object {fields : List (String × Value)} :
    (object fields).WellFormed ↔
      Keyed.Distinct fields ∧ ∀ field ∈ fields, field.2.WellFormed := by
  have hfields : WellFormedFields fields ↔ ∀ field ∈ fields, field.2.WellFormed := by
    induction fields with
    | nil => simp [WellFormedFields]
    | cons field rest ih => simp [WellFormedFields, ih]
  rw [WellFormed, hfields]

/-- Two lists made from the same items are alike when the parts are alike one by one. -/
theorem alikeItems_map {α : Type} {f g : α → Value} {items : List α} :
    alikeItems (items.map f) (items.map g) = true ↔
      ∀ item ∈ items, (f item).alike (g item) = true := by
  induction items with
  | nil => simp [alikeItems]
  | cons item rest ih => simp [alikeItems, ih]

theorem alikeFields_mapValues {α : Type} {f g : α → Value} {fields : List (String × α)} :
    alikeFields (Keyed.mapValues f fields) (Keyed.mapValues g fields) = true ↔
      ∀ field ∈ fields, (f field.2).alike (g field.2) = true := by
  induction fields with
  | nil => simp [alikeFields]
  | cons field rest ih =>
      obtain ⟨key, value⟩ := field
      simp [alikeFields, ih]

theorem alike_array_map_self {f : Value → Value} {items : List Value} :
    (array (items.map f)).alike (array items) = true ↔
      ∀ item ∈ items, (f item).alike item = true := by
  have hparts : alikeItems (items.map f) (items.map id) = true ↔
      ∀ item ∈ items, (f item).alike item = true := alikeItems_map
  rw [List.map_id] at hparts
  exact hparts

theorem alike_object_mapValues_self {f : Value → Value} {fields : List (String × Value)} :
    (object (Keyed.mapValues f fields)).alike (object fields) = true ↔
      ∀ field ∈ fields, (f field.2).alike field.2 = true := by
  have hparts : alikeFields (Keyed.mapValues f fields) (Keyed.mapValues id fields) = true ↔
      ∀ field ∈ fields, (f field.2).alike field.2 = true := alikeFields_mapValues
  rw [Keyed.mapValues_id] at hparts
  exact hparts

theorem beq_def (v w : Value) : (v == w) = v.sortKeys.alike w.sortKeys := rfl

theorem beq_array_map {α : Type} {f g : α → Value} {items : List α} :
    (array (items.map f) == array (items.map g)) = true ↔
      ∀ item ∈ items, (f item == g item) = true := by
  simp only [beq_def, sortKeys_array, List.map_map, alike]
  exact alikeItems_map

theorem beq_array_map_self {f : Value → Value} {items : List Value} :
    (array (items.map f) == array items) = true ↔ ∀ item ∈ items, (f item == item) = true := by
  have hparts : (array (items.map f) == array (items.map id)) = true ↔
      ∀ item ∈ items, (f item == item) = true := beq_array_map
  rw [List.map_id] at hparts
  exact hparts

theorem beq_object_mapValues {α : Type} {f g : α → Value} {fields : List (String × α)} :
    (object (Keyed.mapValues f fields) == object (Keyed.mapValues g fields)) = true ↔
      ∀ field ∈ Keyed.sorted fields, (f field.2 == g field.2) = true := by
  simp only [beq_def, sortKeys_object, Keyed.mapValues_mapValues, Keyed.sorted_mapValues, alike]
  exact alikeFields_mapValues

theorem beq_object_mapValues_self {f : Value → Value} {fields : List (String × Value)}
    (h : Keyed.Distinct fields) :
    (object (Keyed.mapValues f fields) == object fields) = true ↔
      ∀ field ∈ fields, (f field.2 == field.2) = true := by
  have hparts : (object (Keyed.mapValues f fields) == object (Keyed.mapValues id fields)) = true ↔
      ∀ field ∈ Keyed.sorted fields, (f field.2 == field.2) = true := beq_object_mapValues
  simp only [Keyed.mapValues_id, (Keyed.sorted_perm h).mem_iff] at hparts
  exact hparts

/-- Equality does not see the order of keys. -/
theorem beq_object_sorted (fields : List (String × Value)) (w : Value) :
    (object (Keyed.sorted fields) == w) = (object fields == w) := by
  simp only [beq_def, sortKeys_object, ← Keyed.sorted_mapValues, Keyed.sorted_sorted]

end JsonRules.Value
