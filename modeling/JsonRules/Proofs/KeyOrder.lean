import JsonRules.Keyed

/-!
Keyed lists and the order of their keys.

Changing values leaves keys where they are, so it goes together with sorting (`sorted_mapValues`).
A list whose keys ascend is sorted already, and where no key repeats, sorting only permutes the
entries (`sorted_perm`) and setting one entry after another builds the list itself
(`ofPairs_of_distinct`).
-/

namespace JsonRules.Keyed

variable {α β γ : Type}

def mapValues (g : α → β) (entries : List (String × α)) : List (String × β) :=
  entries.map fun entry => (entry.1, g entry.2)

@[simp] theorem mapValues_nil (g : α → β) :
    mapValues g ([] : List (String × α)) = [] := by
  rw [mapValues, List.map_nil]

@[simp] theorem mapValues_cons (g : α → β) (key : String) (value : α)
    (rest : List (String × α)) :
    mapValues g ((key, value) :: rest) = (key, g value) :: mapValues g rest := rfl

@[simp] theorem keys_mapValues (g : α → β) (entries : List (String × α)) :
    keys (mapValues g entries) = keys entries := by
  simp [keys, mapValues]

theorem mapValues_mapValues (g : β → γ) (f : α → β) (entries : List (String × α)) :
    mapValues g (mapValues f entries) = mapValues (fun value => g (f value)) entries := by
  simp [mapValues]

@[simp] theorem mapValues_id (entries : List (String × α)) : mapValues id entries = entries :=
  List.map_id entries

theorem mapValues_congr {f g : α → β} {entries : List (String × α)}
    (h : ∀ entry ∈ entries, f entry.2 = g entry.2) : mapValues f entries = mapValues g entries := by
  refine List.map_congr_left fun entry hentry => ?_
  rw [h entry hentry]

theorem get?_mapValues (g : α → β) (key : String) (entries : List (String × α)) :
    get? key (mapValues g entries) = (get? key entries).map g := by
  induction entries with
  | nil => rfl
  | cons entry rest ih =>
      obtain ⟨k, v⟩ := entry
      rw [mapValues_cons, get?_cons, get?_cons, ih]
      split <;> rfl

theorem set_mapValues (g : α → β) (key : String) (value : α) (entries : List (String × α)) :
    set key (g value) (mapValues g entries) = mapValues g (set key value entries) := by
  induction entries with
  | nil => rfl
  | cons entry rest ih =>
      obtain ⟨k, v⟩ := entry
      simp only [mapValues_cons, set]
      split
      · rfl
      · rw [ih, mapValues_cons]

theorem insertSorted_mapValues (g : α → β) (key : String) (value : α)
    (entries : List (String × α)) :
    insertSorted key (g value) (mapValues g entries) =
      mapValues g (insertSorted key value entries) := by
  induction entries with
  | nil => rfl
  | cons entry rest ih =>
      obtain ⟨k, v⟩ := entry
      simp only [mapValues_cons, insertSorted]
      split
      · rfl
      · split
        · rfl
        · rw [mapValues_cons, ih]

/-- Values may be changed before or after sorting. -/
theorem sorted_mapValues (g : α → β) (pairs : List (String × α)) :
    sorted (mapValues g pairs) = mapValues g (sorted pairs) := by
  have hfold : ∀ entries : List (String × α),
      (mapValues g pairs).foldl (fun entries pair => insertSorted pair.1 pair.2 entries)
          (mapValues g entries) =
        mapValues g (pairs.foldl (fun entries pair => insertSorted pair.1 pair.2 entries)
          entries) := by
    induction pairs with
    | nil => exact fun entries => rfl
    | cons pair rest ih =>
        intro entries
        obtain ⟨key, value⟩ := pair
        simp only [mapValues_cons, List.foldl_cons, insertSorted_mapValues]
        exact ih _
  exact hfold []

/-- A key above all others is inserted at the end. -/
theorem insertSorted_of_forall_lt {key : String} (value : α) {entries : List (String × α)}
    (h : ∀ k ∈ keys entries, k < key) :
    insertSorted key value entries = entries ++ [(key, value)] := by
  induction entries with
  | nil => rfl
  | cons entry rest ih =>
      obtain ⟨k, v⟩ := entry
      obtain ⟨hfirst, hrest⟩ := List.forall_mem_cons.1 h
      have hnot : ¬key < k := String.lt_asymm hfirst
      have hne : k ≠ key := by
        rintro rfl
        exact hnot hfirst
      rw [insertSorted, if_neg hnot, if_neg hne, ih hrest, List.cons_append]

/-- What ascends is sorted already. -/
theorem sorted_of_ascending {pairs : List (String × α)} (h : Ascending pairs) :
    sorted pairs = pairs := by
  have hfold : ∀ entries : List (String × α), Ascending (entries ++ pairs) →
      pairs.foldl (fun entries pair => insertSorted pair.1 pair.2 entries) entries =
        entries ++ pairs := by
    clear h
    induction pairs with
    | nil => exact fun entries _ => (List.append_nil entries).symm
    | cons pair rest ih =>
        intro entries hascending
        have hkeys : ∀ k ∈ keys entries, k < pair.1 := by
          rw [Ascending, keys, List.map_append, List.pairwise_append] at hascending
          exact fun k hk => hascending.2.2 k hk pair.1 (by simp)
        rw [List.foldl_cons, insertSorted_of_forall_lt pair.2 hkeys, ih]
        · simp
        · simpa using hascending
  exact hfold [] h

theorem sorted_sorted (pairs : List (String × α)) : sorted (sorted pairs) = sorted pairs :=
  sorted_of_ascending (ascending_sorted pairs)

/-- Inserting a new key adds its entry and nothing else. -/
theorem insertSorted_perm {key : String} (value : α) {entries : List (String × α)}
    (h : key ∉ keys entries) : (insertSorted key value entries).Perm ((key, value) :: entries) := by
  induction entries with
  | nil => exact List.Perm.refl _
  | cons entry rest ih =>
      obtain ⟨k, v⟩ := entry
      rw [keys_cons, List.mem_cons, not_or] at h
      obtain ⟨hne, hrest⟩ := h
      rw [insertSorted]
      split
      · exact List.Perm.refl _
      · rw [if_neg (Ne.symm hne)]
        exact ((ih hrest).cons (k, v)).trans (List.Perm.swap _ _ rest)

/-- Where no key repeats, sorting only changes the order of the entries. -/
theorem sorted_perm {pairs : List (String × α)} (h : Distinct pairs) :
    (sorted pairs).Perm pairs := by
  have hfold : ∀ entries : List (String × α), Distinct (entries ++ pairs) →
      (pairs.foldl (fun entries pair => insertSorted pair.1 pair.2 entries) entries).Perm
        (entries ++ pairs) := by
    clear h
    induction pairs with
    | nil => exact fun entries _ => by rw [List.append_nil]; exact List.Perm.refl _
    | cons pair rest ih =>
        intro entries hdistinct
        have hmiddle : (entries ++ pair :: rest).Perm (pair :: entries ++ rest) :=
          List.perm_middle
        have hnew : pair.1 ∉ keys entries := by
          have hnodup := (hmiddle.map Prod.fst).nodup_iff.1 hdistinct
          intro hmem
          exact (List.nodup_cons.1 hnodup).1 (by simpa using .inl (by simpa [keys] using hmem))
        have hinsert := (insertSorted_perm pair.2 hnew).append_right rest
        have hstep := ih _ ((hinsert.map Prod.fst).nodup_iff.2
          ((hmiddle.map Prod.fst).nodup_iff.1 hdistinct))
        exact hstep.trans (hinsert.trans hmiddle.symm)
  exact hfold [] h

/-- No entry of a sorted list is new. -/
theorem mem_of_mem_sorted {pairs : List (String × α)} {entry : String × α}
    (h : entry ∈ sorted pairs) : entry ∈ pairs := by
  have hinsert : ∀ (pair : String × α) (entries : List (String × α)),
      entry ∈ insertSorted pair.1 pair.2 entries → entry = pair ∨ entry ∈ entries := by
    intro pair entries
    induction entries with
    | nil => simp [insertSorted]
    | cons first rest ih => grind [insertSorted]
  have hfold : ∀ entries : List (String × α),
      entry ∈ pairs.foldl (fun entries pair => insertSorted pair.1 pair.2 entries) entries →
        entry ∈ entries ∨ entry ∈ pairs := by
    clear h
    induction pairs with
    | nil => exact fun entries hentry => .inl hentry
    | cons pair rest ih =>
        intro entries hentry
        rcases ih _ hentry with hentry | hentry
        · rcases hinsert pair entries hentry with rfl | hentry
          · exact .inr List.mem_cons_self
          · exact .inl hentry
        · exact .inr (List.mem_cons_of_mem pair hentry)
  rcases hfold [] h with hentry | hentry
  · cases hentry
  · exact hentry

/-- A new key is set at the end. -/
theorem set_of_not_mem {key : String} (value : α) {entries : List (String × α)}
    (h : key ∉ keys entries) : set key value entries = entries ++ [(key, value)] := by
  induction entries with
  | nil => rfl
  | cons entry rest ih =>
      obtain ⟨k, v⟩ := entry
      rw [keys_cons, List.mem_cons, not_or] at h
      obtain ⟨hne, hrest⟩ := h
      rw [set, if_neg (Ne.symm hne), ih hrest, List.cons_append]

/-- Where no key repeats, the pairs set one after another are the pairs. -/
theorem ofPairs_of_distinct {pairs : List (String × α)} (h : Distinct pairs) :
    ofPairs pairs = pairs := by
  have hfold : ∀ entries : List (String × α), Distinct (entries ++ pairs) →
      pairs.foldl (fun entries pair => set pair.1 pair.2 entries) entries = entries ++ pairs := by
    clear h
    induction pairs with
    | nil => exact fun entries _ => (List.append_nil entries).symm
    | cons pair rest ih =>
        intro entries hdistinct
        have hnew : pair.1 ∉ keys entries := by
          rw [Distinct, keys, List.map_append, List.nodup_append] at hdistinct
          exact fun hmem => hdistinct.2.2 pair.1 hmem pair.1 (by simp) rfl
        rw [List.foldl_cons, set_of_not_mem pair.2 hnew, ih]
        · simp
        · simpa using hdistinct
  exact hfold [] h

end JsonRules.Keyed
