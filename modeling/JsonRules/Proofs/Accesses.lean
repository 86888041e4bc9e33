import Mathlib.Algebra.Group.Nat.Defs
import Mathlib.Data.List.Forall2
import JsonRules.Path
import JsonRules.Proofs.UniqueKeys
import JsonRules.Proofs.ValueTrees
import JsonRules.Value.Coercion

/-!
Paths as sequences of accesses.

An access is a key of an object or a place in an array, and a value reaches another by the accesses
that lead from it to one inside it (`Value.Reaches`).  A path text is the join of its segments, so
that paths compose (`Path.get?_join`), and what a path leads to is what is reached by accesses that
its segments spell one by one (`Path.follow_eq_some_iff`).  Keys spell themselves, and a place is
spelled by its digits, with any number of zeros and a plus sign in front.
-/

namespace JsonRules

namespace Path

/-! ## Segments -/

theorem segments_of_ne {path : String} (h : path ≠ "") :
    segments path = (path.toList.splitOn '.').map String.ofList := if_neg h

/-- A text between points has no point in it. -/
theorem not_mem_of_mem_splitOn {point : Char} {text segment : List Char}
    (h : segment ∈ text.splitOn point) : point ∉ segment := by
  induction text generalizing segment with
  | nil =>
      rw [List.splitOn_nil, List.mem_singleton] at h
      rw [h]
      exact List.not_mem_nil
  | cons c rest ih =>
      rw [List.splitOn_cons_eq_if_modifyHead] at h
      split at h
      · rcases List.mem_cons.1 h with rfl | hrest
        · exact List.not_mem_nil
        · exact ih hrest
      · rename_i hc
        obtain ⟨first, others, hsplit⟩ :=
          List.exists_cons_of_ne_nil (List.splitOn_ne_nil point rest)
        rw [hsplit, List.modifyHead_cons] at h
        rcases List.mem_cons.1 h with rfl | hothers
        · have hfirst := ih (hsplit ▸ List.mem_cons_self)
          rintro (_ | ⟨_, hmem⟩)
          · exact hc (beq_self_eq_true point)
          · exact hfirst hmem
        · exact ih (hsplit ▸ List.mem_cons_of_mem first hothers)

theorem not_mem_of_mem_segments {path segment : String} (h : segment ∈ segments path) :
    '.' ∉ segment.toList := by
  by_cases hempty : path = ""
  · subst hempty
    cases h
  · rw [segments_of_ne hempty] at h
    obtain ⟨chars, hchars, rfl⟩ := List.mem_map.1 h
    rw [String.toList_ofList]
    exact not_mem_of_mem_splitOn hchars

theorem toList_join (texts : List String) :
    (".".intercalate texts).toList = List.intercalate ['.'] (texts.map String.toList) :=
  String.toList_intercalate

theorem map_toList_segments {path : String} (h : path ≠ "") :
    (segments path).map String.toList = path.toList.splitOn '.' := by
  rw [segments_of_ne h, List.map_map]
  exact List.map_id'' (fun _ => String.toList_ofList) _

/-- A path is its segments with points between them. -/
theorem join_segments (path : String) : ".".intercalate (segments path) = path := by
  by_cases hempty : path = ""
  · subst hempty
    rfl
  · rw [← String.toList_inj, toList_join, map_toList_segments hempty, List.intercalate_splitOn]

theorem join_ne_empty {texts : List String} (hne : texts ≠ []) (hkey : texts ≠ [""]) :
    ".".intercalate texts ≠ "" := by
  match texts with
  | [] => exact absurd rfl hne
  | [text] =>
      rw [String.intercalate_singleton]
      exact fun hempty => hkey (hempty ▸ rfl)
  | first :: second :: rest =>
      rw [String.intercalate_cons_cons, ← String.toList_inj.ne]
      simp

/-- Texts without points are the segments of their join.  Of the empty text alone the join is the
empty path. -/
theorem segments_join {texts : List String} (hne : texts ≠ []) (hkey : texts ≠ [""])
    (hpoints : ∀ text ∈ texts, '.' ∉ text.toList) : segments (".".intercalate texts) = texts := by
  have hchars : ∀ chars ∈ texts.map String.toList, '.' ∉ chars := by
    intro chars h
    obtain ⟨text, htext, rfl⟩ := List.mem_map.1 h
    exact hpoints text htext
  have hlist : texts.map String.toList ≠ [] := mt List.map_eq_nil_iff.1 hne
  rw [segments_of_ne (join_ne_empty hne hkey), toList_join, List.splitOn_intercalate _ hchars hlist,
    List.map_map]
  exact List.map_id'' (fun _ => String.ofList_toList) _

theorem segments_append {front back : String} (hfront : front ≠ "") (hback : back ≠ "") :
    segments (front ++ "." ++ back) = segments front ++ segments back := by
  have hwhole : front ++ "." ++ back ≠ "" := by
    rw [← String.toList_inj.ne]
    simp
  have hchars : (front ++ "." ++ back).toList = front.toList ++ '.' :: back.toList := by simp
  rw [segments_of_ne hwhole, segments_of_ne hfront, segments_of_ne hback, hchars,
    List.splitOn_append_cons_self, List.map_append]

/-! ## Following -/

theorem follow_nil (value : Value) : follow value [] = some value := rfl

theorem follow_cons (value : Value) (segment : String) (rest : List String) :
    follow value (segment :: rest) = (step value segment).bind fun child => follow child rest :=
  List.foldlM_cons

/-- Going along two paths in turn is going along the path that joins them. -/
theorem get?_join (data : Value) {front back : String} (hfront : front ≠ "") (hback : back ≠ "") :
    get? data (front ++ "." ++ back) = (get? data front).bind fun value => get? value back := by
  rw [get?, segments_append hfront hback]
  exact List.foldlM_append

/-! ## Indices -/

/-- A segment is decimal digits of a place, with or without a plus sign. -/
def Denotes (segment : String) (place : Nat) : Prop :=
  ∃ digits, digits ≠ [] ∧ (∀ c ∈ digits, c.isDigit = true) ∧
    (segment.toList = digits ∨ segment.toList = '+' :: digits) ∧
    Nat.ofDigitChars 10 digits 0 = place

theorem indexDigits_of_digits {digits : List Char} (h : ∀ c ∈ digits, c.isDigit = true) :
    indexDigits digits = digits := by
  unfold indexDigits
  split
  · exact absurd (h '+' List.mem_cons_self) (by decide)
  · rfl

theorem eq_or_eq_plus_indexDigits (text : List Char) :
    text = indexDigits text ∨ text = '+' :: indexDigits text := by
  unfold indexDigits
  split
  · exact Or.inr rfl
  · exact Or.inl rfl

/-- A segment denotes a place if its digits are there and are digits of it. -/
theorem denotes_iff {segment : String} {place : Nat} :
    Denotes segment place ↔
      (indexDigits segment.toList ≠ [] ∧ ∀ c ∈ indexDigits segment.toList, c.isDigit = true) ∧
        Nat.ofDigitChars 10 (indexDigits segment.toList) 0 = place := by
  constructor
  · rintro ⟨digits, hne, hdigits, htext, hplace⟩
    have hrest : indexDigits segment.toList = digits := by
      rcases htext with htext | htext
      · rw [htext, indexDigits_of_digits hdigits]
      · rw [htext]
        rfl
    rw [hrest]
    exact ⟨⟨hne, hdigits⟩, hplace⟩
  · rintro ⟨⟨hne, hdigits⟩, hplace⟩
    exact ⟨_, hne, hdigits, eq_or_eq_plus_indexDigits _, hplace⟩

/-- A segment denotes one place at most. -/
theorem Denotes.eq {segment : String} {place other : Nat} (h : Denotes segment place)
    (hother : Denotes segment other) : place = other := by
  rw [← (denotes_iff.1 h).2, ← (denotes_iff.1 hother).2]

/-- An index is what its digits denote, up to the highest index. -/
theorem index?_eq_some_iff {segment : String} {place : Nat} :
    index? segment = some place ↔ Denotes segment place ∧ place ≤ highestIndex := by
  rw [denotes_iff]
  simp only [index?, Option.ite_none_right_eq_some, Bool.and_eq_true, Bool.not_eq_true',
    List.isEmpty_eq_false_iff, List.all_eq_true, decide_eq_true_eq, Option.some.injEq]
  constructor
  · rintro ⟨⟨hdigits, hle⟩, rfl⟩
    exact ⟨⟨hdigits, rfl⟩, hle⟩
  · rintro ⟨⟨hdigits, rfl⟩, hle⟩
    exact ⟨⟨hdigits, hle⟩, rfl⟩

/-- A place is denoted by its digits. -/
theorem denotes_toString (place : Nat) : Denotes (toString place) place :=
  ⟨Nat.toDigits 10 place, Nat.toDigits_ne_nil,
    fun _ hc => Nat.isDigit_of_mem_toDigits (by decide) (by decide) hc,
    Or.inl (by rw [Nat.toString_eq_repr, Nat.toList_repr]), Nat.ofDigitChars_ten_toDigits⟩

/-- In an array whose places are words, a segment leads to the item at the place that it denotes. -/
theorem step_array_eq_some_iff {items : List Value} (hshort : items.length < 2 ^ 64)
    {segment : String} {item : Value} :
    step (.array items) segment = some item ↔
      ∃ place, Denotes segment place ∧ items[place]? = some item := by
  rw [step, Option.bind_eq_some_iff]
  constructor
  · rintro ⟨place, hindex, hitem⟩
    exact ⟨place, (index?_eq_some_iff.1 hindex).1, hitem⟩
  · rintro ⟨place, hdenotes, hitem⟩
    obtain ⟨hplace, -⟩ := List.getElem?_eq_some_iff.1 hitem
    refine ⟨place, index?_eq_some_iff.2 ⟨hdenotes, ?_⟩, hitem⟩
    rw [highestIndex, Word.highestUnsigned]
    omega

end Path

/-! ## Accesses -/

/-- A step from a value to one directly inside it. -/
inductive Access
  | key (name : String)
  | index (place : Nat)

/-- How an access is usually written. -/
def Access.text : Access → String
  | .key name => name
  | .index place => toString place

/-- An access may be written as a segment. -/
def Access.SpelledBy (access : Access) (segment : String) : Prop :=
  match access with
  | .key name => segment = name
  | .index place => Path.Denotes segment place

theorem Access.spelledBy_text (access : Access) : access.SpelledBy access.text := by
  cases access with
  | key name => rfl
  | index place => exact Path.denotes_toString place

namespace Value

/-- The value directly inside another at an access. -/
inductive Child : Value → Access → Value → Prop
  | field {fields : List (String × Value)} {name : String} {child : Value}
      (hfield : (name, child) ∈ fields) : Child (.object fields) (.key name) child
  | item {items : List Value} {place : Nat} {child : Value}
      (hitem : items[place]? = some child) : Child (.array items) (.index place) child

/-- The value inside another that accesses lead to, from the outermost one on. -/
inductive Reaches : Value → List Access → Value → Prop
  | here {value : Value} : Reaches value [] value
  | inside {value child found : Value} {access : Access} {rest : List Access}
      (hchild : value.Child access child) (hrest : child.Reaches rest found) :
      Reaches value (access :: rest) found

/-- The places of all arrays in a value are words. -/
def ShortArrays (data : Value) : Prop :=
  ∀ accesses items, data.Reaches accesses (.array items) → items.length < 2 ^ 64

theorem WellFormed.child {value child : Value} {access : Access} (h : value.WellFormed)
    (hchild : value.Child access child) : child.WellFormed := by
  cases hchild with
  | field hfield => exact (wellFormed_object.1 h).2 _ hfield
  | item hitem => exact wellFormed_array.1 h _ (List.mem_of_getElem? hitem)

theorem ShortArrays.child {value child : Value} {access : Access} (h : value.ShortArrays)
    (hchild : value.Child access child) : child.ShortArrays :=
  fun accesses items hreach => h (access :: accesses) items (.inside hchild hreach)

theorem shortArrays_iff {value : Value} :
    value.ShortArrays ↔ (∀ items, value = .array items → items.length < 2 ^ 64) ∧
      ∀ access child, value.Child access child → child.ShortArrays := by
  constructor
  · intro h
    refine ⟨?_, fun access child hchild => h.child hchild⟩
    rintro items rfl
    exact h [] items .here
  · rintro ⟨hself, hchildren⟩ accesses items hreach
    generalize hfound : Value.array items = found at hreach
    cases hreach with
    | here => exact hself items hfound.symm
    | inside hchild hrest =>
        subst hfound
        exact hchildren _ _ hchild _ items hrest

theorem shortArrays_array {items : List Value} :
    (array items).ShortArrays ↔ items.length < 2 ^ 64 ∧ ∀ item ∈ items, item.ShortArrays := by
  rw [shortArrays_iff]
  constructor
  · rintro ⟨hself, hchildren⟩
    refine ⟨hself items rfl, fun item hitem => ?_⟩
    obtain ⟨place, hplace⟩ := List.mem_iff_getElem?.1 hitem
    exact hchildren _ item (.item hplace)
  · rintro ⟨hself, hitems⟩
    refine ⟨fun others h => array.inj h ▸ hself, ?_⟩
    rintro _ child (_ | hitem)
    exact hitems child (List.mem_of_getElem? hitem)

theorem shortArrays_object {fields : List (String × Value)} :
    (object fields).ShortArrays ↔ ∀ field ∈ fields, field.2.ShortArrays := by
  rw [shortArrays_iff]
  constructor
  · rintro ⟨-, hchildren⟩ ⟨name, child⟩ hfield
    exact hchildren _ child (.field hfield)
  · intro hfields
    refine ⟨fun items h => Value.noConfusion h, ?_⟩
    rintro _ child (hfield | _)
    exact hfields _ hfield

theorem shortArrays_of_scalar {value : Value} (h : value.isContainer = false) :
    value.ShortArrays := by
  refine shortArrays_iff.2 ⟨?_, ?_⟩
  · rintro items rfl
    cases h
  · intro access child hchild
    cases hchild <;> cases h

end Value

namespace Path

open Value

/-- A segment leads to the value directly inside at the access that it spells. -/
theorem step_eq_some_iff {value child : Value} (hkeys : value.WellFormed)
    (hshort : value.ShortArrays) {segment : String} :
    step value segment = some child ↔
      ∃ access, value.Child access child ∧ access.SpelledBy segment := by
  constructor
  · intro h
    cases value with
    | object fields => exact ⟨.key segment, .field (Keyed.mem_of_get?_eq_some h), rfl⟩
    | array items =>
        obtain ⟨place, hdenotes, hitem⟩ := (step_array_eq_some_iff (hshort [] items .here)).1 h
        exact ⟨.index place, .item hitem, hdenotes⟩
    | _ => cases h
  · rintro ⟨access, hchild, hspelled⟩
    cases hchild with
    | field hfield =>
        cases hspelled
        exact (wellFormed_object.1 hkeys).1.get?_of_mem hfield
    | item hitem =>
        exact (step_array_eq_some_iff (hshort [] _ .here)).2 ⟨_, hspelled, hitem⟩

/-- Segments lead to what is reached by accesses that they spell. -/
theorem follow_eq_some_iff {value found : Value} (hkeys : value.WellFormed)
    (hshort : value.ShortArrays) {texts : List String} :
    follow value texts = some found ↔
      ∃ accesses, value.Reaches accesses found ∧
        List.Forall₂ Access.SpelledBy accesses texts := by
  induction texts generalizing value with
  | nil =>
      rw [follow_nil, Option.some.injEq]
      constructor
      · rintro rfl
        exact ⟨[], .here, .nil⟩
      · rintro ⟨accesses, hreach, hspelled⟩
        cases hspelled
        cases hreach
        rfl
  | cons segment rest ih =>
      rw [follow_cons, Option.bind_eq_some_iff]
      constructor
      · rintro ⟨child, hstep, hfollow⟩
        obtain ⟨access, hchild, hspelled⟩ := (step_eq_some_iff hkeys hshort).1 hstep
        obtain ⟨accesses, hreach, hrest⟩ :=
          (ih (hkeys.child hchild) (hshort.child hchild)).1 hfollow
        exact ⟨access :: accesses, .inside hchild hreach, .cons hspelled hrest⟩
      · rintro ⟨accesses, hreach, hspelled⟩
        cases hspelled with
        | cons hfirst hrest =>
            cases hreach with
            | inside hchild hreach =>
                exact ⟨_, (step_eq_some_iff hkeys hshort).2 ⟨_, hchild, hfirst⟩,
                  (ih (hkeys.child hchild) (hshort.child hchild)).2 ⟨_, hreach, hrest⟩⟩

theorem forall₂_spelledBy_text (accesses : List Access) :
    List.Forall₂ Access.SpelledBy accesses (accesses.map Access.text) := by
  rw [List.forall₂_map_right_iff]
  exact List.forall₂_same.2 fun access _ => access.spelledBy_text

theorem not_mem_text_index (place : Nat) : '.' ∉ (Access.index place).text.toList := by
  intro h
  rw [Access.text, Nat.toString_eq_repr, Nat.toList_repr] at h
  exact absurd (Nat.isDigit_of_mem_toDigits (by decide) (by decide) h) (by decide)

theorem text_index_ne_empty (place : Nat) : (Access.index place).text ≠ "" := by
  rw [Access.text, Nat.toString_eq_repr]
  exact Nat.repr_ne_empty

/-- The joined path of accesses without points in their keys has them as its segments. -/
theorem segments_join_text {accesses : List Access}
    (hpoints : ∀ name, Access.key name ∈ accesses → '.' ∉ name.toList)
    (hkey : accesses ≠ [.key ""]) :
    segments (".".intercalate (accesses.map Access.text)) = accesses.map Access.text := by
  by_cases hnil : accesses = []
  · subst hnil
    rfl
  · apply segments_join (mt List.map_eq_nil_iff.1 hnil)
    · intro hempty
      obtain ⟨access, rfl, hname⟩ := List.map_eq_singleton_iff.1 hempty
      cases access with
      | key name => exact hkey (congrArg (fun name => [Access.key name]) hname)
      | index place => exact text_index_ne_empty place hname
    · intro text htext
      obtain ⟨access, haccess, rfl⟩ := List.mem_map.1 htext
      cases access with
      | key name => exact hpoints name haccess
      | index place => exact not_mem_text_index place

/-- Path texts and their segments determine each other, but for the empty text as the only segment,
and paths compose.  A path leads to whatever accesses reach that are joined in it, and to nothing
else than what is reached by accesses that its segments spell. -/
theorem get?_laws (data : Datum) (hshort : data.value.ShortArrays) :
    (∀ path, ".".intercalate (segments path) = path ∧
      ∀ segment ∈ segments path, '.' ∉ segment.toList) ∧
    (∀ texts : List String, texts ≠ [] → texts ≠ [""] → (∀ text ∈ texts, '.' ∉ text.toList) →
      segments (".".intercalate texts) = texts) ∧
    (∀ whole front back, front ≠ "" → back ≠ "" →
      get? whole (front ++ "." ++ back) =
        (get? whole front).bind fun value => get? value back) ∧
    (∀ accesses found, data.value.Reaches accesses found →
      (∀ name, Access.key name ∈ accesses → '.' ∉ name.toList) → accesses ≠ [.key ""] →
      get? data.value (".".intercalate (accesses.map Access.text)) = some found) ∧
    (∀ path found, get? data.value path = some found ↔
      ∃ accesses, data.value.Reaches accesses found ∧
        List.Forall₂ Access.SpelledBy accesses (segments path)) ∧
    ∀ items : List Value, items.length < 2 ^ 64 → ∀ segment item,
      step (.array items) segment = some item ↔
        ∃ place, Denotes segment place ∧ items[place]? = some item := by
  refine ⟨fun path => ⟨join_segments path, fun _ => not_mem_of_mem_segments⟩,
    fun texts => segments_join, fun whole front back => get?_join whole, ?_, ?_, ?_⟩
  · intro accesses found hreach hpoints hkey
    rw [get?, segments_join_text hpoints hkey]
    exact (follow_eq_some_iff data.wellFormed hshort).2
      ⟨accesses, hreach, forall₂_spelledBy_text accesses⟩
  · intro path found
    exact follow_eq_some_iff data.wellFormed hshort
  · intro items hitems segment item
    exact step_array_eq_some_iff hitems

/-- An array below an empty key, and a key with a point in it. -/
def nestedData : Datum where
  value := .object [("", .array [.null, .string "second"]), ("a.b", .bool true)]
  wellFormed := by
    simp [WellFormed, WellFormedItems, WellFormedFields, Keyed.Distinct, Keyed.keys]

/-- The second item is found below the empty key, by its index and with zeros and a plus sign in
front. -/
theorem get?_nestedData :
    nestedData.value.ShortArrays ∧
      get? nestedData.value ".1" = some (.string "second") ∧
      get? nestedData.value ".+0001" = some (.string "second") := by
  have hitems : (Value.array [.null, .string "second"]).ShortArrays := by
    refine shortArrays_array.2 ⟨by decide, ?_⟩
    simp only [List.forall_mem_cons]
    exact ⟨shortArrays_of_scalar rfl, shortArrays_of_scalar rfl, List.forall_mem_nil _⟩
  have hshort : nestedData.value.ShortArrays := by
    refine shortArrays_object.2 ?_
    simp only [List.forall_mem_cons]
    exact ⟨hitems, shortArrays_of_scalar rfl, List.forall_mem_nil _⟩
  have hreach : nestedData.value.Reaches [.key "", .index 1] (.string "second") :=
    .inside (.field List.mem_cons_self) (.inside (.item rfl) .here)
  obtain ⟨-, -, -, hfound, hspelled, -⟩ := get?_laws nestedData hshort
  refine ⟨hshort, hfound [.key "", .index 1] _ hreach (by simp) (by simp), ?_⟩
  refine (hspelled _ _).2 ⟨_, hreach, ?_⟩
  have hdigits : ∀ c ∈ ['0', '0', '0', '1'], c.isDigit = true := by
    simp only [List.forall_mem_cons]
    exact ⟨rfl, rfl, rfl, rfl, List.forall_mem_nil _⟩
  have hplace : Denotes "+0001" 1 :=
    ⟨['0', '0', '0', '1'], List.cons_ne_nil _ _, hdigits, Or.inr rfl, rfl⟩
  exact .cons rfl (.cons hplace .nil)

end Path

end JsonRules
