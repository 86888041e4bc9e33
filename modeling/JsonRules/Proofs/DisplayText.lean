import JsonRules.Proofs.JsonReaders
import JsonRules.Proofs.WrittenValues

/-!
The display text of a value is undone by reading it.

Display text is JSON exactly where every number is finite, and it is then read back as the value it
shows, with keys in the order they had and with zeros that have lost their sign.
-/

namespace JsonRules.Value

/-- Numbers in the place of equal numbers leave the keys and the order of everything. -/
theorem mapNumbers_alike {g : Binary64 → Value} {v : Value}
    (h : ∀ x ∈ v.numbers, (g x).alike (.number x) = true) : (v.mapNumbers g).alike v = true := by
  induction v using Value.induct with
  | null => rfl
  | bool b => exact beq_self_eq_true b
  | number x => exact h x (by simp [numbers])
  | string s => exact beq_self_eq_true s
  | array items ih =>
      have hnumbers := forall_numbers_array.1 h
      rw [mapNumbers_array, alike_array_map_self]
      exact fun item hitem => ih item hitem (hnumbers item hitem)
  | object fields ih =>
      have hnumbers := forall_numbers_object.1 h
      rw [mapNumbers_object, alike_object_mapValues_self]
      exact fun field hfield => ih field hfield (hnumbers field hfield)

theorem mapNumbers_beq {g : Binary64 → Value} {v : Value} (hv : v.WellFormed)
    (h : ∀ x ∈ v.numbers, (g x == .number x) = true) : (v.mapNumbers g == v) = true := by
  induction v using Value.induct with
  | null => rfl
  | bool b => exact beq_self_eq_true b
  | number x => exact h x (by simp [numbers])
  | string s => exact beq_self_eq_true s
  | array items ih =>
      have hitems := wellFormed_array.1 hv
      have hnumbers := forall_numbers_array.1 h
      rw [mapNumbers_array, beq_array_map_self]
      exact fun item hitem => ih item hitem (hitems item hitem) (hnumbers item hitem)
  | object fields ih =>
      obtain ⟨hdistinct, hfields⟩ := wellFormed_object.1 hv
      have hnumbers := forall_numbers_object.1 h
      rw [mapNumbers_object, beq_object_mapValues_self hdistinct]
      exact fun field hfield => ih field hfield (hfields field hfield) (hnumbers field hfield)

/-- The text is read exactly if every number in the value is finite. -/
theorem isSome_ofText?_display {v : Value} (hv : v.WellFormed)
    (hdepth : v.height ≤ JsonSource.heightLimit) :
    (ofText? v.display).isSome = true ↔ ∀ x ∈ v.numbers, x.isFinite = true := by
  have hread : ofText? v.display = (v.source? .display).bind JsonSource.toValue? :=
    ofText?_write NumberFormat.readable_display hdepth
  rw [hread]
  constructor
  · intro hsome x hx
    obtain ⟨w, hw⟩ := Option.isSome_iff_exists.1 hsome
    obtain ⟨source, hsource, -⟩ := Option.bind_eq_some_iff.1 hw
    obtain ⟨number, hnumber⟩ := exists_source_of_mem_numbers hsource x hx
    exact NumberFormat.isFinite_of_source?_display hnumber
  · intro hnumbers
    rw [source?_bind_toValue? hv fun x hx =>
      NumberFormat.display.source?_bind_toValue? (hnumbers x hx)]
    rfl

theorem ofText?_display {v : Value} (hv : v.WellFormed)
    (hdepth : v.height ≤ JsonSource.heightLimit) (hnumbers : ∀ x ∈ v.numbers, x.isFinite = true) :
    ofText? v.display =
      some (v.mapNumbers fun x => .number (NumberFormat.display.readBack x)) := by
  have hread : ofText? v.display = (v.source? .display).bind JsonSource.toValue? :=
    ofText?_write NumberFormat.readable_display hdepth
  rw [hread]
  exact source?_bind_toValue? hv fun x hx =>
    NumberFormat.display.source?_bind_toValue? (hnumbers x hx)

/-- A reader of JSON reads the display text of a value exactly if every number in the value is
finite.  Then only the signs of zeros are lost, so that the value read is equal to the one written
and has the same keys in the same order at every level. -/
theorem read_display {read : String → Option Value} (hread : JsonReader target read) (d : Datum)
    (hdepth : d.value.height ≤ JsonSource.heightLimit) :
    ((read d.value.display).isSome = true ↔ ∀ x ∈ d.value.numbers, x.isFinite = true) ∧
      ∀ w, read d.value.display = some w →
        w = d.value.mapNumbers (fun x => .number (NumberFormat.display.readBack x)) ∧
          (w == d.value) = true ∧ w.alike d.value = true := by
  obtain ⟨v, hv⟩ := d
  rw [hread.unique JsonReader.ofText?_value]
  have hsome := isSome_ofText?_display hv hdepth
  refine ⟨hsome, fun w hw => ?_⟩
  have hnumbers := hsome.1 (Option.isSome_iff_exists.2 ⟨w, hw⟩)
  have hequals : ∀ x ∈ v.numbers, (NumberFormat.display.readBack x).equals x = true :=
    fun x hx => NumberFormat.display.readBack_equals (hnumbers x hx)
  rw [ofText?_display hv hdepth hnumbers] at hw
  obtain rfl := Option.some.inj hw
  exact ⟨rfl, mapNumbers_beq hv hequals, mapNumbers_alike hequals⟩

/-- A value with keys that do not ascend, characters to escape, a negative zero, a large number and
the least one. -/
def scatteredValue : Datum where
  value := .object
    [("z\"\n", .array [.number (.zero true), .number (.ofNat 1000000000000000000000)]),
      ("a", .number (.ofRatio true 1 1)), ("", .array [])]
  wellFormed := by
    simp [WellFormed, WellFormedItems, WellFormedFields, Keyed.Distinct, Keyed.keys]

/-- It is read back, and what is read equals it. -/
theorem read_display_scatteredValue :
    scatteredValue.value.height ≤ JsonSource.heightLimit ∧
      ∃ w, ofText? scatteredValue.value.display = some w ∧ (w == scatteredValue.value) = true ∧
        w.alike scatteredValue.value = true := by
  have hdepth : scatteredValue.value.height ≤ JsonSource.heightLimit := by decide
  have hlarge : (Binary64.ofNat 1000000000000000000000).isFinite = true :=
    Binary64.isFinite_ofNat (by decide)
  have hleast : (Binary64.ofRatio true 1 1).isFinite = true := Binary64.isFinite_ofRatio_one true
  have hfinite : ∀ x ∈ scatteredValue.value.numbers, x.isFinite = true := by
    simp [scatteredValue, numbers, numbersOfItems, numbersOfFields, hlarge, hleast]
    rfl
  obtain ⟨hsome, hback⟩ := read_display JsonReader.ofText?_value scatteredValue hdepth
  obtain ⟨w, hw⟩ := Option.isSome_iff_exists.1 (hsome.2 hfinite)
  exact ⟨hdepth, w, hw, (hback w hw).2⟩

end JsonRules.Value
