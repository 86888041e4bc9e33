import JsonRules.Proofs.Places
import JsonRules.Proofs.UniqueKeys
import JsonRules.Proofs.ValueTrees
import JsonRules.Value.Coercion

/-!
Strict equality.

`strictEq` looks every field of an object up in the other, in one direction, and compares lengths;
`==` compares the objects with their keys sorted.  Where no key repeats both say that there are as
many fields, each with an equal one of the same key (`strictEq_object_iff`, `beq_object_iff`), so
they agree (`strictEq_eq_beq`).  That strict equality is symmetric and transitive and does not see
the order of keys is then a matter of `==`, where it can be read off values with sorted keys.
-/

namespace JsonRules.Value

/-! Values compared place by place. -/

theorem alikeItems_comm {items : List Value}
    (h : ∀ item ∈ items, ∀ other, item.alike other = other.alike item) (others : List Value) :
    alikeItems items others = alikeItems others items := by
  induction items generalizing others with
  | nil => cases others <;> rfl
  | cons item rest ih =>
      obtain ⟨hitem, hrest⟩ := List.forall_mem_cons.1 h
      cases others with
      | nil => rfl
      | cons other others => rw [alikeItems, alikeItems, hitem, ih hrest]

theorem alikeFields_comm {fields : List (String × Value)}
    (h : ∀ field ∈ fields, ∀ other, field.2.alike other = other.alike field.2)
    (others : List (String × Value)) : alikeFields fields others = alikeFields others fields := by
  induction fields generalizing others with
  | nil => cases others <;> rfl
  | cons field rest ih =>
      obtain ⟨hfield, hrest⟩ := List.forall_mem_cons.1 h
      cases others with
      | nil => rfl
      | cons other others =>
          rw [alikeFields, alikeFields, hfield, ih hrest, Bool.beq_comm]

theorem alike_comm (a b : Value) : a.alike b = b.alike a := by
  induction a using Value.induct generalizing b with
  | null => cases b <;> rfl
  | bool x =>
      cases b with
      | bool y => exact Bool.beq_comm
      | _ => rfl
  | number x =>
      cases b with
      | number y => exact x.equals_comm y
      | _ => rfl
  | string s =>
      cases b with
      | string t => exact Bool.beq_comm
      | _ => rfl
  | array items ih =>
      cases b with
      | array others => exact alikeItems_comm ih others
      | _ => rfl
  | object fields ih =>
      cases b with
      | object others => exact alikeFields_comm ih others
      | _ => rfl

theorem alikeItems_trans {items : List Value}
    (h : ∀ item ∈ items, ∀ b c, item.alike b = true → b.alike c = true → item.alike c = true)
    {bs cs : List Value} (hbs : alikeItems items bs = true) (hcs : alikeItems bs cs = true) :
    alikeItems items cs = true := by
  induction items generalizing bs cs with
  | nil =>
      cases bs with
      | nil => exact hcs
      | cons b bs => cases hbs
  | cons item rest ih =>
      obtain ⟨hitem, hrest⟩ := List.forall_mem_cons.1 h
      cases bs with
      | nil => cases hbs
      | cons b bs =>
          cases cs with
          | nil => cases hcs
          | cons c cs =>
              rw [alikeItems, Bool.and_eq_true] at hbs hcs ⊢
              exact ⟨hitem b c hbs.1 hcs.1, ih hrest hbs.2 hcs.2⟩

theorem alikeFields_trans {fields : List (String × Value)}
    (h : ∀ field ∈ fields, ∀ b c, field.2.alike b = true → b.alike c = true →
      field.2.alike c = true)
    {gs hs : List (String × Value)} (hgs : alikeFields fields gs = true)
    (hhs : alikeFields gs hs = true) : alikeFields fields hs = true := by
  induction fields generalizing gs hs with
  | nil =>
      cases gs with
      | nil => exact hhs
      | cons g gs => cases hgs
  | cons field rest ih =>
      obtain ⟨hfield, hrest⟩ := List.forall_mem_cons.1 h
      cases gs with
      | nil => cases hgs
      | cons g gs =>
          cases hs with
          | nil => cases hhs
          | cons last hs =>
              simp only [alikeFields, Bool.and_eq_true, beq_iff_eq] at hgs hhs ⊢
              obtain ⟨⟨hkey, hvalue⟩, hothers⟩ := hgs
              obtain ⟨⟨hkey', hvalue'⟩, hothers'⟩ := hhs
              exact ⟨⟨hkey.trans hkey', hfield g.2 last.2 hvalue hvalue'⟩,
                ih hrest hothers hothers'⟩

theorem alike_trans {a b c : Value} (hab : a.alike b = true) (hbc : b.alike c = true) :
    a.alike c = true := by
  induction a using Value.induct generalizing b c with
  | null =>
      cases b with
      | null => exact hbc
      | _ => cases hab
  | bool x =>
      cases b with
      | bool y =>
          obtain rfl : x = y := eq_of_beq hab
          exact hbc
      | _ => cases hab
  | number x =>
      cases b with
      | number y =>
          cases c with
          | number z => exact Binary64.equals_trans hab hbc
          | _ => cases hbc
      | _ => cases hab
  | string s =>
      cases b with
      | string t =>
          obtain rfl : s = t := eq_of_beq hab
          exact hbc
      | _ => cases hab
  | array items ih =>
      cases b with
      | array bs =>
          cases c with
          | array cs => exact alikeItems_trans (fun item hitem b c => ih item hitem) hab hbc
          | _ => cases hbc
      | _ => cases hab
  | object fields ih =>
      cases b with
      | object gs =>
          cases c with
          | object hs => exact alikeFields_trans (fun field hfield b c => ih field hfield) hab hbc
          | _ => cases hbc
      | _ => cases hab

/-- Fields are alike place by place if the keys are the same and mean the same. -/
theorem alikeFields_iff {fs gs : List (String × Value)} (h : Keyed.Distinct fs) :
    alikeFields fs gs = true ↔ Keyed.keys fs = Keyed.keys gs ∧
      ∀ field ∈ fs, ∃ y, Keyed.get? field.1 gs = some y ∧ field.2.alike y = true := by
  induction fs generalizing gs with
  | nil => cases gs <;> simp [alikeFields, Keyed.keys]
  | cons field rest ih =>
      obtain ⟨key, x⟩ := field
      obtain ⟨hnew, hrest⟩ := List.nodup_cons.1 h
      cases gs with
      | nil => simp [alikeFields, Keyed.keys]
      | cons other others =>
          obtain ⟨key', y⟩ := other
          by_cases hkey : key = key'
          · subst hkey
            have hlater : (∀ field ∈ rest, ∃ z, Keyed.get? field.1 ((key, y) :: others) = some z ∧
                  field.2.alike z = true) ↔
                ∀ field ∈ rest, ∃ z, Keyed.get? field.1 others = some z ∧
                  field.2.alike z = true := by
              apply forall₂_congr
              intro field hfield
              rw [Keyed.get?_cons, if_neg]
              rintro rfl
              exact hnew (List.mem_map.2 ⟨field, hfield, rfl⟩)
            have hfirst : Keyed.get? key ((key, y) :: others) = some y := if_pos rfl
            rw [alikeFields, List.forall_mem_cons, hlater, hfirst]
            simp [ih hrest, and_left_comm]
          · simp [alikeFields, hkey]

/-- Objects in which no key repeats are equal if they have as many fields and each field of the
first has an equal one in the second. -/
theorem beq_object_iff {fs gs : List (String × Value)} (hfs : Keyed.Distinct fs)
    (hgs : Keyed.Distinct gs) :
    (object fs == object gs) = true ↔ fs.length = gs.length ∧
      ∀ field ∈ fs, ∃ y, Keyed.get? field.1 gs = some y ∧ (field.2 == y) = true := by
  have hkeys : Keyed.keys (Keyed.sorted (Keyed.mapValues sortKeys fs)) =
      Keyed.keys (Keyed.sorted (Keyed.mapValues sortKeys gs)) ↔
        fs.length = gs.length ∧ ∀ key ∈ Keyed.keys fs, key ∈ Keyed.keys gs := by
    rw [Keyed.sorted_mapValues, Keyed.sorted_mapValues, Keyed.keys_mapValues, Keyed.keys_mapValues,
      hfs.keys_sorted_eq_iff hgs, hfs.keys_perm_iff]
  have hvalues : (∀ field ∈ Keyed.sorted (Keyed.mapValues sortKeys fs), ∃ y,
      Keyed.get? field.1 (Keyed.sorted (Keyed.mapValues sortKeys gs)) = some y ∧
        field.2.alike y = true) ↔
      ∀ field ∈ fs, ∃ y, Keyed.get? field.1 gs = some y ∧ (field.2 == y) = true := by
    simp only [(Keyed.sorted_perm (hfs.mapValues sortKeys)).mem_iff,
      (hgs.mapValues sortKeys).get?_sorted, Keyed.get?_mapValues, beq_def]
    rw [Keyed.mapValues, List.forall_mem_map]
    simp
  rw [beq_def, sortKeys_object, sortKeys_object, alike,
    alikeFields_iff (Keyed.ascending_sorted _).distinct, hkeys, hvalues, and_assoc]
  apply and_congr_right
  intro _
  apply and_iff_right_of_imp
  intro hfound key hkey
  obtain ⟨field, hfield, rfl⟩ := List.mem_map.1 hkey
  obtain ⟨y, hy, -⟩ := hfound field hfield
  apply Keyed.mem_keys_iff.2
  rw [hy]
  exact Option.some_ne_none y

theorem fieldsWithin_iff {fs gs : List (String × Value)} :
    fieldsWithin fs gs = true ↔
      ∀ field ∈ fs, ∃ y, Keyed.get? field.1 gs = some y ∧ field.2.strictEq y = true := by
  induction fs with
  | nil => simp [fieldsWithin]
  | cons field rest ih =>
      obtain ⟨key, x⟩ := field
      cases hget : Keyed.get? key gs <;> simp [fieldsWithin, hget, ih]

theorem strictEq_object_iff {fs gs : List (String × Value)} :
    (object fs).strictEq (object gs) = true ↔ fs.length = gs.length ∧
      ∀ field ∈ fs, ∃ y, Keyed.get? field.1 gs = some y ∧ field.2.strictEq y = true := by
  rw [strictEq, Bool.and_eq_true, beq_iff_eq, fieldsWithin_iff]

theorem strictEqItems_eq {items others : List Value}
    (h : ∀ item ∈ items, ∀ other ∈ others, item.strictEq other = (item == other)) :
    strictEqItems items others = alikeItems (items.map sortKeys) (others.map sortKeys) := by
  induction items generalizing others with
  | nil => cases others <;> rfl
  | cons item rest ih =>
      cases others with
      | nil => rfl
      | cons other others =>
          have hrest : ∀ item ∈ rest, ∀ other ∈ others, item.strictEq other = (item == other) :=
            fun item hitem other hother =>
              h item (List.mem_cons_of_mem _ hitem) other (List.mem_cons_of_mem _ hother)
          rw [strictEqItems, h item List.mem_cons_self other List.mem_cons_self, ih hrest]
          rfl

/-- Strict equality is equality on values in which no key repeats. -/
theorem strictEq_eq_beq {a b : Value} (ha : a.WellFormed) (hb : b.WellFormed) :
    a.strictEq b = (a == b) := by
  induction a using Value.induct generalizing b with
  | null => cases b <;> rfl
  | bool x => cases b <;> rfl
  | number x => cases b <;> rfl
  | string s => cases b <;> rfl
  | array items ih =>
      cases b with
      | array others =>
          have hitems := wellFormed_array.1 ha
          have hothers := wellFormed_array.1 hb
          rw [strictEq, beq_def, sortKeys_array, sortKeys_array, alike]
          apply strictEqItems_eq
          intro item hitem other hother
          exact ih item hitem (hitems item hitem) (hothers other hother)
      | _ => rfl
  | object fields ih =>
      cases b with
      | object others =>
          obtain ⟨hdistinct, hfields⟩ := wellFormed_object.1 ha
          obtain ⟨hdistinct', hothers⟩ := wellFormed_object.1 hb
          rw [Bool.eq_iff_iff, strictEq_object_iff, beq_object_iff hdistinct hdistinct']
          apply and_congr_right
          intro _
          apply forall₂_congr
          intro field hfield
          apply exists_congr
          intro y
          apply and_congr_right
          intro hy
          rw [ih field hfield (hfields field hfield)
            (hothers _ (Keyed.mem_of_get?_eq_some hy))]
      | _ => rfl

/-- A value equals itself if not-a-number is nowhere in it. -/
theorem beq_self_iff {v : Value} (hv : v.WellFormed) :
    (v == v) = true ↔ ∀ x ∈ v.numbers, x.isNaN = false := by
  induction v using Value.induct with
  | null => exact iff_of_true rfl (List.forall_mem_nil _)
  | bool b => exact iff_of_true (beq_self_eq_true b) (List.forall_mem_nil _)
  | number x =>
      rw [numbers, List.forall_mem_singleton]
      exact Binary64.equals_self_iff
  | string s => exact iff_of_true (beq_self_eq_true s) (List.forall_mem_nil _)
  | array items ih =>
      have hitems := wellFormed_array.1 hv
      have hself := @beq_array_map_self id items
      rw [List.map_id] at hself
      rw [hself, forall_numbers_array]
      exact forall₂_congr fun item hitem => ih item hitem (hitems item hitem)
  | object fields ih =>
      obtain ⟨hdistinct, hfields⟩ := wellFormed_object.1 hv
      have hself := beq_object_mapValues_self (f := id) hdistinct
      rw [Keyed.mapValues_id] at hself
      rw [hself, forall_numbers_object]
      exact forall₂_congr fun field hfield => ih field hfield (hfields field hfield)

/-- The same value with the fields of some objects, at any depth, in another order. -/
inductive Reordered : Value → Value → Prop
  | refl (v : Value) : Reordered v v
  | trans {a b c : Value} (hab : Reordered a b) (hbc : Reordered b c) : Reordered a c
  | fields {fs gs : List (String × Value)} (h : fs.Perm gs) : Reordered (.object fs) (.object gs)
  | withinArray {item other : Value} (before after : List Value) (h : Reordered item other) :
      Reordered (.array (before ++ item :: after)) (.array (before ++ other :: after))
  | withinObject {value other : Value} (key : String) (before after : List (String × Value))
      (h : Reordered value other) :
      Reordered (.object (before ++ (key, value) :: after))
        (.object (before ++ (key, other) :: after))

/-- Reordering repeats no key, and it does not show once keys are sorted. -/
theorem Reordered.sortKeys_eq {a b : Value} (h : Reordered a b) (ha : a.WellFormed) :
    b.WellFormed ∧ a.sortKeys = b.sortKeys := by
  induction h with
  | refl v => exact ⟨ha, rfl⟩
  | trans _ _ ihab ihbc =>
      obtain ⟨hb, hab⟩ := ihab ha
      obtain ⟨hc, hbc⟩ := ihbc hb
      exact ⟨hc, hab.trans hbc⟩
  | fields hperm =>
      obtain ⟨hdistinct, hfields⟩ := wellFormed_object.1 ha
      constructor
      · apply wellFormed_object.2
        exact ⟨hdistinct.perm hperm, fun field hfield => hfields field (hperm.mem_iff.2 hfield)⟩
      · have hmapped := hperm.map fun field : String × Value => (field.1, field.2.sortKeys)
        rw [sortKeys_object, sortKeys_object]
        exact congrArg object ((hdistinct.mapValues sortKeys).sorted_eq_of_perm hmapped)
  | withinArray before after _ ih =>
      simp only [wellFormed_array, List.forall_mem_append, List.forall_mem_cons] at ha ⊢
      obtain ⟨hbefore, hitem, hafter⟩ := ha
      obtain ⟨hother, hsame⟩ := ih hitem
      exact ⟨⟨hbefore, hother, hafter⟩, by simp [hsame]⟩
  | withinObject key before after _ ih =>
      simp only [wellFormed_object, List.forall_mem_append, List.forall_mem_cons] at ha ⊢
      obtain ⟨hdistinct, hbefore, hvalue, hafter⟩ := ha
      obtain ⟨hother, hsame⟩ := ih hvalue
      refine ⟨⟨?_, hbefore, hother, hafter⟩, ?_⟩
      · simpa [Keyed.Distinct, Keyed.keys] using hdistinct
      · simp [Keyed.mapValues, hsame]

theorem strictEq_comm {a b : Value} (ha : a.WellFormed) (hb : b.WellFormed) :
    a.strictEq b = b.strictEq a := by
  rw [strictEq_eq_beq ha hb, strictEq_eq_beq hb ha]
  exact alike_comm a.sortKeys b.sortKeys

/-- Strict equality is the equality of values.  It is symmetric and transitive, holds of a value and
itself exactly if not-a-number is nowhere in it, and does not see the order of keys. -/
theorem strictEq_laws (a b c : Datum) :
    a.value.strictEq b.value = (a.value == b.value) ∧
    a.value.strictEq b.value = b.value.strictEq a.value ∧
    (a.value.strictEq b.value = true → b.value.strictEq c.value = true →
      a.value.strictEq c.value = true) ∧
    (a.value.strictEq a.value = true ↔ ∀ x ∈ a.value.numbers, x.isNaN = false) ∧
    ∀ a' b', Reordered a.value a' → Reordered b.value b' →
      a'.strictEq b' = a.value.strictEq b.value := by
  obtain ⟨a, ha⟩ := a
  obtain ⟨b, hb⟩ := b
  obtain ⟨c, hc⟩ := c
  have hab := strictEq_eq_beq ha hb
  refine ⟨hab, strictEq_comm ha hb, ?_, ?_, ?_⟩
  · rw [hab, strictEq_eq_beq hb hc, strictEq_eq_beq ha hc]
    exact alike_trans
  · rw [strictEq_eq_beq ha ha]
    exact beq_self_iff ha
  · intro a' b' hra hrb
    obtain ⟨ha', hsame⟩ := hra.sortKeys_eq ha
    obtain ⟨hb', hsame'⟩ := hrb.sortKeys_eq hb
    rw [hab, strictEq_eq_beq ha' hb', beq_def, beq_def, hsame, hsame']

def ledger : Datum where
  value := .object [("open", .bool true), ("total", .array [.number (.zero true)])]
  wellFormed := by
    simp [WellFormed, WellFormedItems, WellFormedFields, Keyed.Distinct, Keyed.keys]

def turnedLedger : Value := .object [("total", .array [.number (.zero true)]), ("open", .bool true)]

theorem strictEq_turnedLedger :
    ledger.value.strictEq ledger.value = true ∧ turnedLedger.strictEq ledger.value = true := by
  obtain ⟨-, -, -, hself, hreordered⟩ := strictEq_laws ledger ledger ledger
  have hequal : ledger.value.strictEq ledger.value = true := by
    have hnumbers : ledger.value.numbers = [.zero true] := rfl
    rw [hself, hnumbers, List.forall_mem_singleton]
    rfl
  have hturned : Reordered ledger.value turnedLedger := .fields (List.Perm.swap _ _ [])
  exact ⟨hequal, (hreordered _ _ hturned (.refl ledger.value)).trans hequal⟩

end JsonRules.Value
