import JsonRules.Proofs.KeyOrder

/-!
Repeated keys.

Where keys repeat, both ways of collecting pairs agree on what a key means: the last of its values
(`get?_ofPairs`, `get?_sorted`).  A list whose keys ascend is known by what its keys mean
(`Ascending.ext`), so sorting forgets in which order the pairs were collected
(`sorted_ofPairs`).
-/

namespace JsonRules.Keyed

variable {α : Type}

theorem get?_append (key : String) (front back : List (String × α)) :
    get? key (front ++ back) = (get? key front).or (get? key back) := by
  induction front with
  | nil => rfl
  | cons entry rest ih =>
      obtain ⟨k, v⟩ := entry
      rw [List.cons_append, get?_cons, get?_cons]
      by_cases hkey : k = key
      · rw [if_pos hkey, if_pos hkey]
        rfl
      · rw [if_neg hkey, if_neg hkey, ih]

/-- Pairs put in one after another, by any way of putting in, leave a key with its last value. -/
theorem get?_foldl {put : String → α → List (String × α) → List (String × α)}
    (hput : ∀ key other value entries, get? other (put key value entries) =
      if key = other then some value else get? other entries)
    (key : String) (pairs entries : List (String × α)) :
    get? key (pairs.foldl (fun entries pair => put pair.1 pair.2 entries) entries) =
      (get? key pairs.reverse).or (get? key entries) := by
  induction pairs generalizing entries with
  | nil => rfl
  | cons pair rest ih =>
      obtain ⟨k, v⟩ := pair
      rw [List.foldl_cons, ih, hput, List.reverse_cons, get?_append, Option.or_assoc, get?_cons,
        get?_nil]
      by_cases hkey : k = key
      · rw [if_pos hkey, if_pos hkey]
        rfl
      · rw [if_neg hkey, if_neg hkey]
        rfl

/-- The last value of a key wins. -/
theorem get?_ofPairs (key : String) (pairs : List (String × α)) :
    get? key (ofPairs pairs) = get? key pairs.reverse := by
  rw [ofPairs, get?_foldl get?_set, get?_nil, Option.or_none]

theorem get?_sorted (key : String) (pairs : List (String × α)) :
    get? key (sorted pairs) = get? key pairs.reverse := by
  rw [sorted, get?_foldl get?_insertSorted, get?_nil, Option.or_none]

/-- The keys are those that have a value. -/
theorem mem_keys_iff {key : String} {entries : List (String × α)} :
    key ∈ keys entries ↔ get? key entries ≠ none := by
  induction entries with
  | nil => simp [keys]
  | cons entry rest ih =>
      obtain ⟨k, v⟩ := entry
      rw [keys_cons, List.mem_cons, get?_cons, ih]
      by_cases hkey : k = key
      · simp [hkey]
      · simp [hkey, Ne.symm hkey]

/-- An ascending list does not come back to a key. -/
theorem Ascending.get?_tail {k : String} {v : α} {rest : List (String × α)}
    (h : Ascending ((k, v) :: rest)) (key : String) :
    get? key rest = if k = key then none else get? key ((k, v) :: rest) := by
  by_cases hkey : k = key
  · subst hkey
    rw [if_pos rfl]
    by_cases hnone : get? k rest = none
    · exact hnone
    · exact absurd ((ascending_cons.1 h).1 k (mem_keys_iff.2 hnone)) (String.lt_irrefl k)
  · rw [if_neg hkey, get?_cons, if_neg hkey]

/-- The first key of an ascending list is the least that has a value. -/
theorem Ascending.le_of_get?_ne_none {k key : String} {v : α} {rest : List (String × α)}
    (h : Ascending ((k, v) :: rest)) (hkey : get? key ((k, v) :: rest) ≠ none) : k ≤ key := by
  rcases List.mem_cons.1 (mem_keys_iff.2 hkey) with rfl | hmem
  · exact String.le_refl key
  · exact String.not_lt.1 (String.lt_asymm ((ascending_cons.1 h).1 key hmem))

/-- Ascending lists in which every key means the same are the same. -/
theorem Ascending.ext {xs ys : List (String × α)} (hxs : Ascending xs) (hys : Ascending ys)
    (h : ∀ key, get? key xs = get? key ys) : xs = ys := by
  induction xs generalizing ys with
  | nil =>
      cases ys with
      | nil => rfl
      | cons entry rest =>
          obtain ⟨k, w⟩ := entry
          simpa [get?_cons] using h k
  | cons first xs ih =>
      obtain ⟨j, v⟩ := first
      cases ys with
      | nil => simpa [get?_cons] using h j
      | cons second ys =>
          obtain ⟨k, w⟩ := second
          have hj : get? j ((j, v) :: xs) = some v := if_pos rfl
          have hk : get? k ((k, w) :: ys) = some w := if_pos rfl
          have hkey : j = k := by
            apply String.le_antisymm
            · apply hxs.le_of_get?_ne_none
              rw [h k, hk]
              exact Option.some_ne_none w
            · apply hys.le_of_get?_ne_none
              rw [← h j, hj]
              exact Option.some_ne_none v
          subst hkey
          have hvalue : v = w := Option.some.inj (hj.symm.trans ((h j).trans hk))
          have hrest : xs = ys := by
            apply ih (ascending_cons.1 hxs).2 (ascending_cons.1 hys).2
            intro key
            rw [hxs.get?_tail, hys.get?_tail, h key]
          rw [hvalue, hrest]

theorem keys_set (key : String) (value : α) (entries : List (String × α)) :
    keys (set key value entries) =
      if key ∈ keys entries then keys entries else keys entries ++ [key] := by
  induction entries with
  | nil => rfl
  | cons entry rest ih =>
      obtain ⟨k, v⟩ := entry
      rw [set]
      by_cases hkey : k = key
      · simp [hkey]
      · rw [if_neg hkey, keys_cons, ih, keys_cons]
        by_cases hmem : key ∈ keys rest
        · simp [hmem]
        · simp [hmem, Ne.symm hkey]

/-- Setting a key never makes it repeat. -/
theorem Distinct.set {entries : List (String × α)} (h : Distinct entries) (key : String)
    (value : α) : Distinct (set key value entries) := by
  rw [Distinct, keys_set]
  by_cases hmem : key ∈ keys entries
  · rw [if_pos hmem]
    exact h
  · rw [if_neg hmem]
    refine List.nodup_append.2 ⟨h, List.pairwise_singleton _ key, ?_⟩
    intro k hk other hother heq
    rw [heq, List.mem_singleton.1 hother] at hk
    exact hmem hk

/-- No key repeats among pairs that were set one after another. -/
theorem distinct_ofPairs (pairs : List (String × α)) : Distinct (ofPairs pairs) := by
  have hfold : ∀ entries : List (String × α), Distinct entries →
      Distinct (pairs.foldl (fun entries pair => Keyed.set pair.1 pair.2 entries) entries) := by
    induction pairs with
    | nil => exact fun _ h => h
    | cons pair rest ih => exact fun _ h => ih _ (h.set _ _)
  exact hfold [] List.Pairwise.nil

theorem mem_of_get?_eq_some {key : String} {value : α} {entries : List (String × α)}
    (h : get? key entries = some value) : (key, value) ∈ entries := by
  induction entries with
  | nil => cases h
  | cons entry rest ih =>
      obtain ⟨k, v⟩ := entry
      rw [get?_cons] at h
      by_cases hkey : k = key
      · rw [if_pos hkey] at h
        rw [hkey, Option.some.inj h]
        exact List.mem_cons_self
      · rw [if_neg hkey] at h
        exact List.mem_cons_of_mem _ (ih h)

/-- Where no key repeats, a key means its entry. -/
theorem Distinct.get?_of_mem {entry : String × α} {entries : List (String × α)}
    (h : Distinct entries) (hmem : entry ∈ entries) : get? entry.1 entries = some entry.2 := by
  induction entries with
  | nil => cases hmem
  | cons first rest ih =>
      obtain ⟨k, v⟩ := first
      obtain ⟨hfirst, hrest⟩ := List.nodup_cons.1 h
      rw [get?_cons]
      rcases List.mem_cons.1 hmem with rfl | hrestMem
      · exact if_pos rfl
      · rw [if_neg, ih hrest hrestMem]
        rintro rfl
        exact hfirst (List.mem_map.2 ⟨entry, hrestMem, rfl⟩)

/-- Setting a key to a value with a property keeps it that all values have the property. -/
theorem forall_get?_set {property : α → Prop} {entries : List (String × α)}
    (h : ∀ key value, get? key entries = some value → property value) (key : String) {value : α}
    (hvalue : property value) :
    ∀ other stored, get? other (set key value entries) = some stored → property stored := by
  intro other stored hget
  rw [get?_set] at hget
  by_cases hkey : key = other
  · rw [if_pos hkey] at hget
    exact Option.some.inj hget ▸ hvalue
  · rw [if_neg hkey] at hget
    exact h other stored hget

/-- Setting a key brings in one entry at most. -/
theorem mem_of_mem_set {key : String} {value : α} {entry : String × α}
    {entries : List (String × α)} (h : entry ∈ set key value entries) :
    entry = (key, value) ∨ entry ∈ entries := by
  induction entries with
  | nil => exact .inl (List.mem_singleton.1 h)
  | cons first rest ih =>
      rw [set] at h
      split at h
      · rcases List.mem_cons.1 h with hentry | hrest
        · exact .inl hentry
        · exact .inr (List.mem_cons_of_mem first hrest)
      · rcases List.mem_cons.1 h with hentry | hrest
        · exact .inr (hentry ▸ List.mem_cons_self)
        · exact (ih hrest).imp_right (List.mem_cons_of_mem first)

/-- The entries made of pairs are among the pairs. -/
theorem mem_of_mem_ofPairs {pairs : List (String × α)} {entry : String × α}
    (h : entry ∈ ofPairs pairs) : entry ∈ pairs := by
  have hget := (distinct_ofPairs pairs).get?_of_mem h
  rw [get?_ofPairs] at hget
  exact List.mem_reverse.1 (mem_of_get?_eq_some hget)

/-- Among pairs that were set, the first value of a key is its last. -/
theorem get?_reverse_ofPairs (key : String) (pairs : List (String × α)) :
    get? key (ofPairs pairs).reverse = get? key pairs.reverse := by
  rw [← get?_ofPairs key (ofPairs pairs), ofPairs_of_distinct (distinct_ofPairs pairs),
    get?_ofPairs]

/-- Sorting forgets in which order the pairs were set. -/
theorem sorted_ofPairs (pairs : List (String × α)) : sorted (ofPairs pairs) = sorted pairs := by
  apply (ascending_sorted _).ext (ascending_sorted _)
  intro key
  rw [get?_sorted, get?_sorted, get?_reverse_ofPairs]

end JsonRules.Keyed
