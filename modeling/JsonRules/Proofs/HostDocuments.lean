import JsonRules.Proofs.Rounding
import JsonRules.Proofs.ValueTrees

/-!
Values through host documents and back.

A document holds every finite number without loss, as an integer or as a float, and null in place
of any other number (`Value.holds_numberToJson`).  The way into a document and out again therefore
replaces such numbers by null and sorts keys, and does nothing else; a second time it changes
nothing.
-/

namespace JsonRules

/-- The document is the number: as an integer of a signed word, or as a float. -/
def Json.Holds (x : Binary64) : Json → Prop
  | .integer n =>
      Word.lowest ≤ n ∧ n ≤ Word.highest ∧ x.place? = some (n * Binary64.unitsInOne)
  | .float y => y = x
  | _ => False

namespace Value

def finiteOrNull (x : Binary64) : Value := if x.isFinite then .number x else .null

/-- A document that holds a finite number is read as that number, the sign of zero aside. -/
theorem ofJson_of_holds {x : Binary64} {document : Json} (h : document.Holds x)
    (hx : x.isFinite = true) : ∃ y, ofJson document = .number y ∧ y.equals x = true := by
  cases document with
  | integer n => exact ⟨.ofInt n, rfl, Binary64.equals_ofInt hx h.2.2⟩
  | float y =>
      have hy : y = x := h
      subst hy
      exact ⟨y, rfl, Binary64.equals_self hx⟩
  | _ => exact h.elim

/-- A finite number is held without loss, at the bound of the safe integers as elsewhere. -/
theorem holds_numberToJson {x : Binary64} (hx : x.isFinite = true) :
    (numberToJson x).Holds x := by
  cases x with
  | nan => cases hx
  | infinite negative => cases hx
  | finite negative units h =>
      rw [numberToJson]
      split
      · rename_i hsafe
        obtain ⟨hwhole, hbound⟩ := hsafe
        have hmagnitude : (Binary64.signedUnits negative (units / Binary64.unitsInOne)).natAbs ≤
            maxSafeInteger := by
          rw [Binary64.natAbs_signedUnits]
          exact Nat.div_le_of_le_mul (Nat.mul_comm _ _ ▸ hbound)
        rw [maxSafeInteger] at hmagnitude
        refine ⟨?_, ?_, ?_⟩
        · rw [Word.lowest]
          omega
        · rw [Word.highest]
          omega
        · rw [← Binary64.signedUnits_mul,
            Nat.div_mul_cancel (Nat.dvd_of_mod_eq_zero hwhole), Binary64.place?]
      · rfl

theorem numberToJson_of_not_isFinite {x : Binary64} (hx : ¬x.isFinite = true) :
    numberToJson x = .null := by
  cases x with
  | finite negative units h => exact absurd rfl hx
  | _ => rfl

/-- Documents do not show the sign of zero. -/
theorem numberToJson_of_equals {x y : Binary64} (hy : y.isFinite = true)
    (h : x.equals y = true) : numberToJson x = numberToJson y := by
  cases y with
  | nan => cases hy
  | infinite negative => cases hy
  | finite negative units hunits =>
      obtain ⟨sign, rfl, hsign⟩ := Binary64.finite_of_equals h
      by_cases hzero : units = 0
      · subst hzero
        simp [numberToJson, Binary64.signedUnits_zero]
      · rw [hsign hzero]

/-- A number through a document is itself if it is finite, and null if not. -/
theorem ofJson_numberToJson (x : Binary64) :
    (ofJson (numberToJson x) == finiteOrNull x) = true := by
  unfold finiteOrNull
  split
  · rename_i hx
    obtain ⟨y, hy, hequals⟩ := ofJson_of_holds (holds_numberToJson hx) hx
    rw [hy]
    exact hequals
  · rename_i hx
    rw [numberToJson_of_not_isFinite hx]
    rfl

theorem ofJson_toJson_array (items : List Value) :
    ofJson (array items).toJson = array (items.map fun item => ofJson item.toJson) := by
  simp

theorem ofJson_toJson_object (fields : List (String × Value)) :
    ofJson (object fields).toJson =
      object (Keyed.sorted (Keyed.mapValues (fun value => ofJson value.toJson) fields)) := by
  simp [← Keyed.sorted_mapValues, Keyed.mapValues_mapValues]

/-- Through a document, a value has null in the place of every number that is not finite. -/
theorem ofJson_toJson_beq_mapNumbers (v : Value) :
    (ofJson v.toJson == v.mapNumbers finiteOrNull) = true := by
  induction v using Value.induct with
  | null => rfl
  | bool b => cases b <;> rfl
  | number x => exact ofJson_numberToJson x
  | string s => exact beq_self_eq_true s
  | array items ih =>
      rw [ofJson_toJson_array, mapNumbers_array]
      exact beq_array_map.2 ih
  | object fields ih =>
      rw [ofJson_toJson_object, mapNumbers_object, beq_object_sorted]
      refine beq_object_mapValues.2 fun field hfield => ?_
      exact ih field (Keyed.mem_of_mem_sorted hfield)

/-- A value is what comes back of it exactly if all its numbers are finite. -/
theorem ofJson_toJson_beq_self_iff {v : Value} (hv : v.WellFormed) :
    (ofJson v.toJson == v) = true ↔ ∀ x ∈ v.numbers, x.isFinite = true := by
  induction v using Value.induct with
  | null => exact iff_of_true rfl (List.forall_mem_nil _)
  | bool b => exact iff_of_true (beq_self_eq_true b) (List.forall_mem_nil _)
  | number x =>
      rw [numbers, List.forall_mem_singleton]
      by_cases hx : x.isFinite = true
      · have hround := ofJson_numberToJson x
        rw [finiteOrNull, if_pos hx] at hround
        exact iff_of_true hround hx
      · rw [toJson, numberToJson_of_not_isFinite hx]
        exact iff_of_false Bool.false_ne_true hx
  | string s => exact iff_of_true (beq_self_eq_true s) (List.forall_mem_nil _)
  | array items ih =>
      have hitems := wellFormed_array.1 hv
      rw [ofJson_toJson_array, beq_array_map_self, forall_numbers_array]
      exact forall₂_congr fun item hitem => ih item hitem (hitems item hitem)
  | object fields ih =>
      obtain ⟨hdistinct, hfields⟩ := wellFormed_object.1 hv
      rw [ofJson_toJson_object, beq_object_sorted, beq_object_mapValues_self hdistinct,
        forall_numbers_object]
      exact forall₂_congr fun field hfield => ih field hfield (hfields field hfield)

/-- One pass through a document normalises: the second gives the same document. -/
theorem toJson_ofJson_toJson (v : Value) : (ofJson v.toJson).toJson = v.toJson := by
  induction v using Value.induct with
  | null => rfl
  | bool b => rfl
  | number x =>
      by_cases hx : x.isFinite = true
      · obtain ⟨y, hy, hequals⟩ := ofJson_of_holds (holds_numberToJson hx) hx
        rw [toJson, hy]
        exact numberToJson_of_equals hx hequals
      · rw [toJson, numberToJson_of_not_isFinite hx]
        rfl
  | string s => rfl
  | array items ih =>
      rw [ofJson_toJson_array, toJson_array, toJson_array, List.map_map]
      exact congrArg Json.array (List.map_congr_left ih)
  | object fields ih =>
      rw [ofJson_toJson_object, toJson_object, toJson_object, ← Keyed.sorted_mapValues,
        Keyed.sorted_sorted, Keyed.mapValues_mapValues, Keyed.mapValues_congr ih]

/-- A value through a host document and back has null for every number that is not finite and is
otherwise equal, so it is the value itself exactly if all its numbers are finite.  The document of
what comes back is the document it came from.  No finite number is changed on the way: where it
becomes an integer, the integer has the same place and fits a word. -/
theorem ofJson_toJson (d : Datum) :
    (ofJson d.value.toJson == d.value.mapNumbers finiteOrNull) = true ∧
      ((ofJson d.value.toJson == d.value) = true ↔ ∀ x ∈ d.value.numbers, x.isFinite = true) ∧
      (ofJson d.value.toJson).toJson = d.value.toJson ∧
      ∀ x : Binary64, x.isFinite = true → (numberToJson x).Holds x :=
  ⟨ofJson_toJson_beq_mapNumbers d.value, ofJson_toJson_beq_self_iff d.wellFormed,
    toJson_ofJson_toJson d.value, fun _ hx => holds_numberToJson hx⟩

/-- A value with a number beyond the safe integers, a negative zero and a not-a-number. -/
def unevenValue : Datum where
  value := .object [("total", .array [.number (.ofNat 9007199254740992), .number (.zero true)]),
    ("rate", .number .nan)]
  wellFormed := by
    simp [WellFormed, WellFormedItems, WellFormedFields, Keyed.Distinct, Keyed.keys]

/-- It comes back with null for the not-a-number, and so is not itself. -/
theorem ofJson_toJson_unevenValue :
    (ofJson unevenValue.value.toJson == .object
        [("total", .array [.number (.ofNat 9007199254740992), .number (.zero true)]),
          ("rate", .null)]) = true ∧
      (ofJson unevenValue.value.toJson == unevenValue.value) = false := by
  have hlarge : finiteOrNull (.ofNat 9007199254740992) = .number (.ofNat 9007199254740992) :=
    if_pos (Binary64.isFinite_ofNat (by decide))
  obtain ⟨hnull, hself, -, -⟩ := ofJson_toJson unevenValue
  constructor
  · have hmap : unevenValue.value.mapNumbers finiteOrNull = .object
        [("total", .array [.number (.ofNat 9007199254740992), .number (.zero true)]),
          ("rate", .null)] := by
      simp only [unevenValue, mapNumbers, mapNumbersOfFields, mapNumbersOfItems, hlarge]
      rfl
    exact hmap ▸ hnull
  · rw [Bool.eq_false_iff, Ne, hself]
    intro hfinite
    have hnan := hfinite .nan (by simp [unevenValue, numbers, numbersOfFields, numbersOfItems])
    cases hnan

end Value

end JsonRules
