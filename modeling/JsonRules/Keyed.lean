/-!
Lists of keyed entries.

A list of pairs stands for a finite map: a key means its first entry.  `set` keeps the entries in
the order in which their keys first came, and `insertSorted` keeps the keys in ascending order of
code points.  Both give a key its last value.
-/

namespace JsonRules.Keyed

variable {α β : Type}

def keys (entries : List (String × α)) : List String := entries.map Prod.fst

/-- No key has two entries. -/
def Distinct (entries : List (String × α)) : Prop := (keys entries).Nodup

/-- The keys ascend. -/
def Ascending (entries : List (String × α)) : Prop := (keys entries).Pairwise (· < ·)

def get? (key : String) : List (String × α) → Option α
  | [] => none
  | (k, v) :: rest => if k = key then some v else get? key rest

/-- Gives a key a value, in its place if it has one and else at the end. -/
def set (key : String) (value : α) : List (String × α) → List (String × α)
  | [] => [(key, value)]
  | (k, v) :: rest => if k = key then (key, value) :: rest else (k, v) :: set key value rest

/-- Gives a key a value in an ascending list. -/
def insertSorted (key : String) (value : α) : List (String × α) → List (String × α)
  | [] => [(key, value)]
  | (k, v) :: rest =>
    if key < k then (key, value) :: (k, v) :: rest
    else if k = key then (key, value) :: rest
    else (k, v) :: insertSorted key value rest

/-- The entries without those of a key. -/
def erase (key : String) (entries : List (String × α)) : List (String × α) :=
  entries.filter fun entry => entry.1 ≠ key

/-- The pairs set one after another: first places, last values. -/
def ofPairs (pairs : List (String × α)) : List (String × α) :=
  pairs.foldl (fun entries pair => set pair.1 pair.2 entries) []

/-- The pairs in ascending order of their keys, with last values. -/
def sorted (pairs : List (String × α)) : List (String × α) :=
  pairs.foldl (fun entries pair => insertSorted pair.1 pair.2 entries) []

@[simp] theorem get?_nil (key : String) : get? key ([] : List (String × α)) = none := rfl

theorem get?_cons (key k : String) (v : α) (rest : List (String × α)) :
    get? key ((k, v) :: rest) = if k = key then some v else get? key rest := rfl

/-- Setting a key changes what that key means and nothing else. -/
theorem get?_set (key other : String) (value : α) (entries : List (String × α)) :
    get? other (set key value entries) =
      if key = other then some value else get? other entries := by
  induction entries with
  | nil => simp [set, get?]
  | cons entry rest ih => grind [set, get?]

theorem get?_insertSorted (key other : String) (value : α) (entries : List (String × α)) :
    get? other (insertSorted key value entries) =
      if key = other then some value else get? other entries := by
  induction entries with
  | nil => simp [insertSorted, get?]
  | cons entry rest ih => grind [insertSorted, get?]

theorem get?_erase (key other : String) (entries : List (String × α)) :
    get? other (erase key entries) = if key = other then none else get? other entries := by
  induction entries with
  | nil => simp [erase]
  | cons entry rest ih => grind [erase, get?]

theorem mem_keys_insertSorted {key k : String} {value : α} {entries : List (String × α)} :
    k ∈ keys (insertSorted key value entries) ↔ k = key ∨ k ∈ keys entries := by
  induction entries with
  | nil => simp [insertSorted, keys]
  | cons entry rest ih => grind [insertSorted, keys]

@[simp] theorem keys_cons (k : String) (v : α) (rest : List (String × α)) :
    keys ((k, v) :: rest) = k :: keys rest := rfl

theorem ascending_cons {k : String} {v : α} {rest : List (String × α)} :
    Ascending ((k, v) :: rest) ↔ (∀ other ∈ keys rest, k < other) ∧ Ascending rest :=
  List.pairwise_cons

/-- Insertion keeps the keys ascending. -/
theorem Ascending.insertSorted {entries : List (String × α)} (h : Ascending entries)
    (key : String) (value : α) : Ascending (insertSorted key value entries) := by
  induction entries with
  | nil => exact List.pairwise_singleton _ _
  | cons entry rest ih =>
    obtain ⟨k, v⟩ := entry
    obtain ⟨hfirst, hrest⟩ := ascending_cons.1 h
    simp only [Keyed.insertSorted]
    split
    · rename_i hlt
      refine ascending_cons.2 ⟨fun other hother => ?_, h⟩
      rcases List.mem_cons.1 hother with rfl | hmem
      · exact hlt
      · exact String.lt_trans hlt (hfirst other hmem)
    · split
      · rename_i hkey
        exact ascending_cons.2 ⟨hkey ▸ hfirst, hrest⟩
      · rename_i hlt hkey
        have hgt : k < key :=
          String.not_le.1 fun hle => hkey (String.le_antisymm (String.not_lt.1 hlt) hle)
        refine ascending_cons.2 ⟨fun other hother => ?_, ih hrest⟩
        rcases mem_keys_insertSorted.1 hother with rfl | hmem
        · exact hgt
        · exact hfirst other hmem

/-- Erasing keeps the keys ascending. -/
theorem Ascending.erase {entries : List (String × α)} (h : Ascending entries) (key : String) :
    Ascending (erase key entries) :=
  h.sublist (List.filter_sublist.map _)

/-- A sorted list ascends. -/
theorem ascending_sorted (pairs : List (String × α)) : Ascending (sorted pairs) := by
  have hfold : ∀ entries : List (String × α), Ascending entries →
      Ascending (pairs.foldl (fun entries pair => insertSorted pair.1 pair.2 entries) entries) := by
    induction pairs with
    | nil => exact fun _ h => h
    | cons pair rest ih => exact fun _ h => ih _ (h.insertSorted _ _)
  exact hfold [] List.Pairwise.nil

end JsonRules.Keyed
