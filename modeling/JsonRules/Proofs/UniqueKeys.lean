import JsonRules.Proofs.RepeatedKeys
import Mathlib.Data.List.Perm.Subperm

/-!
Lists in which no key repeats.

Such a list is a finite map: a key means a value if the list has the entry, so the order of the
entries has no part in what keys mean (`Distinct.get?_of_perm`) or in the sorted list
(`Distinct.sorted_eq_of_perm`).  Two of them have the same keys if they are of one length and the
keys of the first are among those of the second (`Distinct.keys_perm_iff`).
-/

namespace JsonRules.Keyed

variable {α : Type} {xs ys : List (String × α)}

namespace Distinct

/-- A key means a value if there is the entry. -/
theorem get?_eq_some_iff (h : Distinct xs) {key : String} {value : α} :
    get? key xs = some value ↔ (key, value) ∈ xs :=
  ⟨mem_of_get?_eq_some, fun hmem => h.get?_of_mem hmem⟩

theorem perm (h : Distinct xs) (hperm : xs.Perm ys) : Distinct ys :=
  (hperm.map Prod.fst).nodup_iff.1 h

theorem get?_of_perm (h : Distinct xs) (hperm : xs.Perm ys) (key : String) :
    get? key xs = get? key ys := by
  apply Option.ext
  intro value
  rw [h.get?_eq_some_iff, (h.perm hperm).get?_eq_some_iff, hperm.mem_iff]

theorem get?_sorted (h : Distinct xs) (key : String) : get? key (sorted xs) = get? key xs :=
  (h.get?_of_perm (sorted_perm h).symm key).symm

theorem sorted_eq_of_perm (h : Distinct xs) (hperm : xs.Perm ys) : sorted xs = sorted ys := by
  apply (ascending_sorted xs).ext (ascending_sorted ys)
  intro key
  rw [h.get?_sorted, (h.perm hperm).get?_sorted, h.get?_of_perm hperm]

theorem mapValues {β : Type} (h : Distinct xs) (g : α → β) : Distinct (mapValues g xs) := by
  rw [Distinct, keys_mapValues]
  exact h

/-- As many keys, all of them found among the others, are the others. -/
theorem keys_perm_iff (h : Distinct xs) :
    (keys xs).Perm (keys ys) ↔ xs.length = ys.length ∧ ∀ key ∈ keys xs, key ∈ keys ys := by
  have hlengths : xs.length = ys.length ↔ (keys xs).length = (keys ys).length := by simp [keys]
  rw [hlengths]
  constructor
  · intro hperm
    exact ⟨hperm.length_eq, fun key => hperm.mem_iff.1⟩
  · rintro ⟨hlength, hkeys⟩
    exact (List.subperm_of_subset h hkeys).perm_of_length_le (Nat.le_of_eq hlength.symm)

/-- Sorted lists have their keys in common if the lists do. -/
theorem keys_sorted_eq_iff (hxs : Distinct xs) (hys : Distinct ys) :
    keys (sorted xs) = keys (sorted ys) ↔ (keys xs).Perm (keys ys) := by
  have hsorted := (sorted_perm hxs).map Prod.fst
  have hsorted' := (sorted_perm hys).map Prod.fst
  constructor
  · intro hkeys
    have hmiddle : (keys (sorted xs)).Perm (keys (sorted ys)) := List.Perm.of_eq hkeys
    exact hsorted.symm.trans (hmiddle.trans hsorted')
  · intro hperm
    have hkeys : (keys (sorted xs)).Perm (keys (sorted ys)) :=
      hsorted.trans (hperm.trans hsorted'.symm)
    have hasymm : ∀ a b : String, a ∈ keys (sorted xs) → b ∈ keys (sorted ys) → a < b → b < a →
        a = b := fun a b _ _ hab hba => absurd hba (String.lt_asymm hab)
    exact hkeys.eq_of_pairwise hasymm (ascending_sorted xs) (ascending_sorted ys)

end Distinct

theorem Ascending.distinct (h : Ascending xs) : Distinct xs := by
  refine List.Pairwise.imp (fun hlt => ?_) h
  rintro rfl
  exact String.lt_irrefl _ hlt

end JsonRules.Keyed
