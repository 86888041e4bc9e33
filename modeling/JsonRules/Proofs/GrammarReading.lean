import JsonRules.Proofs.JsonGrammar
import JsonRules.Proofs.Quoting
import JsonRules.Proofs.SourceTrees

/-!
The reader of trees reads the grammar of JSON.

Whatever it reads is in the grammar (`JsonSource.startsWith_of_read`), and what is in the grammar is
read with two calls for each character (`JsonSource.WrittenAs.parses`), so a text is read as a tree
exactly if the grammar has it (`JsonSource.ofChars?_eq_some_iff`).
-/

namespace JsonRules

namespace Text

/-- The pieces up to the closing mark are read. -/
theorem BodyAs.readBody {pieces : List Piece} {body : List Char} (h : BodyAs pieces body)
    (rest : List Char) : readBody (body ++ '"' :: rest) = some (pieces, rest) := by
  induction h with
  | nil => rfl
  | unit hunit _ ih =>
      simp only [List.cons_append, Text.readBody, hunit, ih, Option.bind_eq_bind, Option.bind_some]
      rfl
  | @escaped letter c pieces text hletter _ ih =>
      have hu : letter ≠ 'u' := by
        rintro rfl
        cases hletter
      rw [List.cons_append, List.cons_append, readBody_letter hu hletter, ih]
      rfl
  | @plain c pieces text hmark hbackslash hcontrol _ ih =>
      rw [List.cons_append, Text.readBody, if_neg (Nat.not_lt.2 hcontrol), ih]
      · rfl
      · exact hmark
      · intro _ _ _ _ _ hc
        exact absurd hc hbackslash
      · intro _ _ hc
        exact absurd hc hbackslash

/-- What is read as pieces stands for them. -/
theorem exists_body_of_readBody {text : List Char} {pieces : List Piece} {rest : List Char}
    (h : readBody text = some (pieces, rest)) :
    ∃ body, BodyAs pieces body ∧ text = body ++ '"' :: rest := by
  fun_induction readBody text generalizing pieces rest with
  | case1 => cases h
  | case2 tail =>
      cases h
      exact ⟨[], .nil, rfl⟩
  | case3 a b c d tail ih =>
      simp only [Option.bind_eq_bind, Option.bind_eq_some_iff, Option.pure_def, Option.some.injEq,
        Prod.mk.injEq, Prod.exists] at h
      obtain ⟨n, hunit, more, rest', hread, rfl, rfl⟩ := h
      obtain ⟨body, hbody, rfl⟩ := ih hread
      exact ⟨_, .unit hunit hbody, rfl⟩
  | case4 letter tail _ ih =>
      simp only [Option.bind_eq_bind, Option.bind_eq_some_iff, Option.pure_def, Option.some.injEq,
        Prod.mk.injEq, Prod.exists] at h
      obtain ⟨c, hletter, more, rest', hread, rfl, rfl⟩ := h
      obtain ⟨body, hbody, rfl⟩ := ih hread
      exact ⟨_, .escaped hletter hbody, rfl⟩
  | case5 => cases h
  | case6 c tail hmark hunit hletter hcontrol ih =>
      simp only [Option.bind_eq_bind, Option.bind_eq_some_iff, Option.pure_def, Option.some.injEq,
        Prod.mk.injEq, Prod.exists] at h
      obtain ⟨more, rest', hread, rfl, rfl⟩ := h
      obtain ⟨body, hbody, rfl⟩ := ih hread
      have hbackslash : c ≠ '\\' := by
        rintro rfl
        cases body with
        | nil => exact hletter _ _ rfl rfl
        | cons letter more => exact hletter _ _ rfl rfl
      exact ⟨_, .plain hmark hbackslash (Nat.not_lt.1 hcontrol) hbody, rfl⟩

end Text

namespace JsonSource

theorem QuotedAs.readString {text : Option String} {quoted : List Char} (h : QuotedAs text quoted)
    (rest : List Char) :
    ∃ body, quoted ++ rest = '"' :: body ∧ readString body = some (text, rest) := by
  obtain ⟨hbody⟩ := h
  rename_i pieces body
  refine ⟨body ++ '"' :: rest, by simp, ?_⟩
  rw [JsonSource.readString, hbody.readBody]
  rfl

theorem exists_quoted_of_readString {body : List Char} {text : Option String} {rest : List Char}
    (h : readString body = some (text, rest)) :
    ∃ quoted, QuotedAs text quoted ∧ '"' :: body = quoted ++ rest := by
  simp only [readString, Option.bind_eq_bind, Option.bind_eq_some_iff, Option.pure_def,
    Option.some.injEq, Prod.mk.injEq, Prod.exists] at h
  obtain ⟨pieces, rest', hread, rfl, rfl⟩ := h
  obtain ⟨inner, hinner, rfl⟩ := Text.exists_body_of_readBody hread
  exact ⟨_, .intro hinner, by simp⟩

/-- A quoted text stands for itself. -/
theorem quotedAs_quote (s : String) : QuotedAs (some s) (Text.quote s.toList) := by
  obtain ⟨quoted, hquoted, hsplit⟩ :=
    exists_quoted_of_readString (readString_flatMap_escape s [])
  have hquote : quoted = Text.quote s.toList := by
    rw [← List.append_nil quoted, ← hsplit]
    rfl
  exact hquote ▸ hquoted

/-! ## Blanks -/

theorem exists_blanks (text : List Char) :
    ∃ front, Blanks front ∧ text = front ++ skipBlanks text :=
  ⟨text.takeWhile isBlank, List.all_eq_true.1 List.all_takeWhile,
    List.takeWhile_append_dropWhile.symm⟩

theorem blanks_nil : Blanks [] := List.forall_mem_nil _

theorem Blanks.append {front text : List Char} (h : Blanks front) (htext : Blanks text) :
    Blanks (front ++ text) := List.forall_mem_append.2 ⟨h, htext⟩

theorem Blanks.skipBlanks_append {front : List Char} (h : Blanks front) (text : List Char) :
    skipBlanks (front ++ text) = skipBlanks text := List.dropWhile_append_of_pos h

theorem Blanks.skipBlanks_cons {front : List Char} (h : Blanks front) {c : Char}
    (hc : isBlank c = false) (text : List Char) : skipBlanks (front ++ c :: text) = c :: text := by
  rw [h.skipBlanks_append, skipBlanks, List.dropWhile_cons_of_neg (Bool.eq_false_iff.1 hc)]

theorem Blanks.numeralEnds {back rest : List Char} (h : Blanks back) (hrest : NumeralEnds rest) :
    NumeralEnds (back ++ rest) := by
  cases back with
  | nil => exact hrest
  | cons c cs =>
      have hblank := h c List.mem_cons_self
      simp only [isBlank, Bool.or_eq_true, beq_iff_eq] at hblank
      rcases hblank with ((rfl | rfl) | rfl) | rfl <;> exact ⟨rfl, by decide, by decide, by decide⟩

theorem readValue_skipBlanks (count : Nat) (text : List Char) :
    readValue count (skipBlanks text) = readValue count text := by
  cases count with
  | zero => rfl
  | succ n =>
      obtain ⟨front, hfront, htext⟩ := exists_blanks text
      have hskip : skipBlanks (skipBlanks text) = skipBlanks text := by
        rw [← hfront.skipBlanks_append, ← htext]
      rw [readValue, readValue, hskip]

theorem readItems_skipBlanks (count : Nat) (text : List Char) :
    readItems count (skipBlanks text) = readItems count text := by
  cases count with
  | zero => rfl
  | succ n => rw [readItems_succ, readItems_succ, readValue_skipBlanks]

theorem SpacedAs.blanks_append {source : JsonSource} {text front : List Char}
    (h : SpacedAs source text) (hfront : Blanks front) : SpacedAs source (front ++ text) := by
  obtain ⟨hinner, hwritten, hback⟩ := h
  rw [← List.append_assoc]
  exact .intro (hfront.append hinner) hwritten hback

theorem ItemsWrittenAs.blanks_append {items : List JsonSource} {text front : List Char}
    (h : ItemsWrittenAs items text) (hfront : Blanks front) :
    ItemsWrittenAs items (front ++ text) := by
  cases h with
  | last hitem => exact .last (hitem.blanks_append hfront)
  | more hitem hrest =>
      rw [← List.append_assoc]
      exact .more (hitem.blanks_append hfront) hrest

theorem FieldWrittenAs.blanks_append {field : Option String × JsonSource} {text front : List Char}
    (h : FieldWrittenAs field text) (hfront : Blanks front) :
    FieldWrittenAs field (front ++ text) := by
  obtain ⟨hinner, hkey, hback, hvalue⟩ := h
  rw [← List.append_assoc]
  exact .intro (hfront.append hinner) hkey hback hvalue

theorem FieldsWrittenAs.blanks_append {fields : List (Option String × JsonSource)}
    {text front : List Char} (h : FieldsWrittenAs fields text) (hfront : Blanks front) :
    FieldsWrittenAs fields (front ++ text) := by
  cases h with
  | last hfield => exact .last (hfield.blanks_append hfront)
  | more hfield hrest =>
      rw [← List.append_assoc]
      exact .more (hfield.blanks_append hfront) hrest

/-! ## What is read is in the grammar -/

/-- The text has the source in front, blanks before it aside. -/
def StartsWith (source : JsonSource) (text rest : List Char) : Prop :=
  ∃ front core, Blanks front ∧ WrittenAs source core ∧ text = front ++ (core ++ rest)

/-- Blanks up to a character that ends a value belong to the value. -/
theorem StartsWith.spacedAs {source : JsonSource} {text rest tail : List Char} {c : Char}
    (h : StartsWith source text rest) (hrest : skipBlanks rest = c :: tail) :
    ∃ spaced, SpacedAs source spaced ∧ text = spaced ++ c :: tail := by
  obtain ⟨front, core, hfront, hcore, rfl⟩ := h
  obtain ⟨back, hback, hsplit⟩ := exists_blanks rest
  refine ⟨_, .intro hfront hcore hback, ?_⟩
  rw [hsplit, hrest]
  simp

theorem readValue_mark (count : Nat) (text : List Char) :
    readValue (count + 1) ('"' :: text) =
      (readString text).map fun (s, rest) => (.string s, rest) := rfl

theorem readValue_bracket (count : Nat) (text : List Char) :
    readValue (count + 1) ('[' :: text) =
      match skipBlanks text with
      | ']' :: rest => some (.array [], rest)
      | rest => (readItems count rest).map fun (items, rest) => (.array items, rest) := rfl

theorem readValue_brace (count : Nat) (text : List Char) :
    readValue (count + 1) ('{' :: text) =
      match skipBlanks text with
      | '}' :: rest => some (.object [], rest)
      | rest => (readFields count rest).map fun (fields, rest) => (.object fields, rest) := rfl

section Reader

variable {count : Nat}

/-- Items are read one by one: behind each of them is the closing bracket, or a comma and more
items. -/
theorem exists_of_readItems_succ {text rest : List Char} {items : List JsonSource}
    (h : readItems (count + 1) text = some (items, rest)) :
    ∃ item after, readValue count text = some (item, after) ∧
      (skipBlanks after = ']' :: rest ∧ items = [item] ∨
        ∃ tail more, skipBlanks after = ',' :: tail ∧ readItems count tail = some (more, rest) ∧
          items = item :: more) := by
  rw [readItems_succ] at h
  split at h
  · cases h
  · rename_i item after hitem
    refine ⟨item, after, hitem, ?_⟩
    split at h
    · rename_i hclose
      cases h
      exact .inl ⟨hclose, rfl⟩
    · rename_i hcomma
      obtain ⟨⟨more, tail⟩, hread, hlist⟩ := Option.map_eq_some_iff.1 h
      cases hlist
      exact .inr ⟨_, more, hcomma, hread, rfl⟩
    · cases h

/-- Fields are read likewise, each of them by its key, a colon and a value. -/
theorem exists_of_readFields_succ {text rest : List Char}
    {fields : List (Option String × JsonSource)}
    (h : readFields (count + 1) text = some (fields, rest)) :
    ∃ quoted key afterKey afterColon value after, skipBlanks text = '"' :: quoted ∧
      readString quoted = some (key, afterKey) ∧ skipBlanks afterKey = ':' :: afterColon ∧
      readValue count afterColon = some (value, after) ∧
      (skipBlanks after = '}' :: rest ∧ fields = [(key, value)] ∨
        ∃ tail more, skipBlanks after = ',' :: tail ∧ readFields count tail = some (more, rest) ∧
          fields = (key, value) :: more) := by
  rw [readFields_succ] at h
  split at h
  · rename_i quoted hmark
    split at h
    · cases h
    · rename_i key afterKey hkey
      split at h
      · rename_i afterColon hcolon
        split at h
        · cases h
        · rename_i value after hvalue
          refine ⟨quoted, key, afterKey, afterColon, value, after, hmark, hkey, hcolon, hvalue, ?_⟩
          split at h
          · rename_i hclose
            cases h
            exact .inl ⟨hclose, rfl⟩
          · rename_i hcomma
            obtain ⟨⟨more, tail⟩, hread, hlist⟩ := Option.map_eq_some_iff.1 h
            cases hlist
            exact .inr ⟨_, more, hcomma, hread, rfl⟩
          · cases h
      · cases h
  · cases h

variable (hvalue : ∀ {text source rest}, readValue count text = some (source, rest) →
    StartsWith source text rest)
  (hitems : ∀ {text items rest}, readItems count text = some (items, rest) →
    ∃ body, ItemsWrittenAs items body ∧ text = body ++ ']' :: rest)
  (hfields : ∀ {text fields rest}, readFields count text = some (fields, rest) →
    ∃ body, FieldsWrittenAs fields body ∧ text = body ++ '}' :: rest)

include hitems in
theorem exists_array_of_readValue {after rest : List Char} {source : JsonSource}
    (h : readValue (count + 1) ('[' :: after) = some (source, rest)) :
    ∃ core, WrittenAs source core ∧ '[' :: after = core ++ rest := by
  obtain ⟨blanks, hblanks, hafter⟩ := exists_blanks after
  rw [readValue_bracket] at h
  split at h
  · rename_i hclose
    cases h
    refine ⟨_, .emptyArray hblanks, ?_⟩
    rw [hafter, hclose]
    simp
  · obtain ⟨⟨items, tail⟩, hread, hsource⟩ := Option.map_eq_some_iff.1 h
    cases hsource
    obtain ⟨body, hbody, hsplit⟩ := hitems hread
    refine ⟨_, .array (hbody.blanks_append hblanks), ?_⟩
    rw [hafter, hsplit]
    simp

include hfields in
theorem exists_object_of_readValue {after rest : List Char} {source : JsonSource}
    (h : readValue (count + 1) ('{' :: after) = some (source, rest)) :
    ∃ core, WrittenAs source core ∧ '{' :: after = core ++ rest := by
  obtain ⟨blanks, hblanks, hafter⟩ := exists_blanks after
  rw [readValue_brace] at h
  split at h
  · rename_i hclose
    cases h
    refine ⟨_, .emptyObject hblanks, ?_⟩
    rw [hafter, hclose]
    simp
  · obtain ⟨⟨fields, tail⟩, hread, hsource⟩ := Option.map_eq_some_iff.1 h
    cases hsource
    obtain ⟨body, hbody, hsplit⟩ := hfields hread
    refine ⟨_, .object (hbody.blanks_append hblanks), ?_⟩
    rw [hafter, hsplit]
    simp

include hitems hfields in
theorem startsWith_of_readValue_succ {text rest : List Char} {source : JsonSource}
    (h : readValue (count + 1) text = some (source, rest)) : StartsWith source text rest := by
  obtain ⟨front, hfront, htext⟩ := exists_blanks text
  suffices hcore : ∃ core, WrittenAs source core ∧ skipBlanks text = core ++ rest by
    obtain ⟨core, hcore, hskip⟩ := hcore
    exact ⟨front, core, hfront, hcore, hskip ▸ htext⟩
  rw [readValue] at h
  split at h
  case h_1 hskip =>
    cases h
    exact ⟨_, .null, hskip⟩
  case h_2 hskip =>
    cases h
    exact ⟨_, .true, hskip⟩
  case h_3 hskip =>
    cases h
    exact ⟨_, .false, hskip⟩
  case h_4 hskip =>
    obtain ⟨⟨text, tail⟩, hread, hsource⟩ := Option.map_eq_some_iff.1 h
    cases hsource
    obtain ⟨quoted, hquoted, hsplit⟩ := exists_quoted_of_readString hread
    exact ⟨quoted, .string hquoted, hskip.trans hsplit⟩
  case h_5 after hskip =>
    rw [hskip]
    exact exists_array_of_readValue hitems ((readValue_bracket count after).trans h)
  case h_6 after hskip =>
    rw [hskip]
    exact exists_object_of_readValue hfields ((readValue_brace count after).trans h)
  case h_7 =>
    obtain ⟨l, hl, rfl, hsplit⟩ := exists_literal_of_readNumber h
    exact ⟨_, .number hl, hsplit⟩

include hvalue hitems in
theorem itemsWrittenAs_of_readItems_succ {text rest : List Char} {items : List JsonSource}
    (h : readItems (count + 1) text = some (items, rest)) :
    ∃ body, ItemsWrittenAs items body ∧ text = body ++ ']' :: rest := by
  obtain ⟨item, after, hitem, ⟨hclose, rfl⟩ | ⟨tail, more, hcomma, hmore, rfl⟩⟩ :=
    exists_of_readItems_succ h
  · obtain ⟨spaced, hspaced, htext⟩ := (hvalue hitem).spacedAs hclose
    exact ⟨spaced, .last hspaced, htext⟩
  · obtain ⟨spaced, hspaced, htext⟩ := (hvalue hitem).spacedAs hcomma
    obtain ⟨body, hbody, hsplit⟩ := hitems hmore
    refine ⟨_, .more hspaced hbody, ?_⟩
    rw [htext, hsplit]
    simp

include hvalue hfields in
theorem fieldsWrittenAs_of_readFields_succ {text rest : List Char}
    {fields : List (Option String × JsonSource)}
    (h : readFields (count + 1) text = some (fields, rest)) :
    ∃ body, FieldsWrittenAs fields body ∧ text = body ++ '}' :: rest := by
  obtain ⟨_, key, afterKey, afterColon, value, after, hmark, hkey, hcolon, hread, hends⟩ :=
    exists_of_readFields_succ h
  obtain ⟨front, hfront, htext⟩ := exists_blanks text
  obtain ⟨quoted, hquoted, hname⟩ := exists_quoted_of_readString hkey
  obtain ⟨back, hback, hafterKey⟩ := exists_blanks afterKey
  have hfield : ∀ {spaced tail : List Char}, SpacedAs value spaced →
      afterColon = spaced ++ tail → ∃ field, FieldWrittenAs (key, value) field ∧
        text = field ++ tail := by
    intro spaced tail hspaced hsplit
    refine ⟨_, .intro hfront hquoted hback hspaced, ?_⟩
    rw [htext, hmark, hname, hafterKey, hcolon, hsplit]
    simp
  obtain ⟨hclose, rfl⟩ | ⟨tail, more, hcomma, hmore, rfl⟩ := hends
  · obtain ⟨spaced, hspaced, hsplit⟩ := (hvalue hread).spacedAs hclose
    obtain ⟨field, hwritten, hall⟩ := hfield hspaced hsplit
    exact ⟨field, .last hwritten, hall⟩
  · obtain ⟨spaced, hspaced, hsplit⟩ := (hvalue hread).spacedAs hcomma
    obtain ⟨field, hwritten, hall⟩ := hfield hspaced hsplit
    obtain ⟨body, hbody, hrest⟩ := hfields hmore
    refine ⟨_, .more hwritten hbody, ?_⟩
    rw [hall, hrest]
    simp

end Reader

/-- Whatever is read with some number of calls is in the grammar. -/
theorem startsWith_of_read (count : Nat) :
    (∀ {text source rest}, readValue count text = some (source, rest) →
      StartsWith source text rest) ∧
    (∀ {text items rest}, readItems count text = some (items, rest) →
      ∃ body, ItemsWrittenAs items body ∧ text = body ++ ']' :: rest) ∧
    (∀ {text fields rest}, readFields count text = some (fields, rest) →
      ∃ body, FieldsWrittenAs fields body ∧ text = body ++ '}' :: rest) := by
  induction count with
  | zero => exact ⟨nofun, nofun, nofun⟩
  | succ count ih =>
      obtain ⟨hvalue, hitems, hfields⟩ := ih
      exact ⟨startsWith_of_readValue_succ hitems hfields,
        itemsWrittenAs_of_readItems_succ hvalue hitems,
        fieldsWrittenAs_of_readFields_succ hvalue hfields⟩

/-! ## What is in the grammar is read -/

theorem readItems_last {count : Nat} {text rest tail : List Char} {source : JsonSource}
    (h : readValue count text = some (source, rest)) (hclose : skipBlanks rest = ']' :: tail) :
    readItems (count + 1) text = some ([source], tail) := by
  rw [readItems_succ, h]
  simp only [hclose]

theorem readItems_more {count : Nat} {text rest tail : List Char} {source : JsonSource}
    (h : readValue count text = some (source, rest)) (hcomma : skipBlanks rest = ',' :: tail) :
    readItems (count + 1) text =
      (readItems count tail).map fun (items, rest) => (source :: items, rest) := by
  rw [readItems_succ, h]
  simp only [hcomma]

section Key

variable {key : Option String} {front quoted back : List Char} {count : Nat}
  {text rest tail : List Char} {value : JsonSource}

/-- A quoted key and a colon stand before the value of a field. -/
theorem exists_readString_key (hfront : Blanks front) (hkey : QuotedAs key quoted)
    (hback : Blanks back) (text : List Char) :
    ∃ body after, skipBlanks (front ++ (quoted ++ (back ++ ':' :: text))) = '"' :: body ∧
      readString body = some (key, after) ∧ skipBlanks after = ':' :: text := by
  obtain ⟨body, hquoted, hread⟩ := hkey.readString (back ++ ':' :: text)
  refine ⟨body, _, ?_, hread, hback.skipBlanks_cons rfl text⟩
  rw [hquoted, hfront.skipBlanks_cons rfl]

theorem readFields_none (hfront : Blanks front) (hkey : QuotedAs key quoted) (hback : Blanks back)
    (h : readValue count text = none) :
    readFields (count + 1) (front ++ (quoted ++ (back ++ ':' :: text))) = none := by
  obtain ⟨body, after, hmark, hread, hcolon⟩ := exists_readString_key hfront hkey hback text
  rw [readFields_succ]
  simp only [hmark, hread, hcolon, h]

theorem readFields_last (hfront : Blanks front) (hkey : QuotedAs key quoted) (hback : Blanks back)
    (h : readValue count text = some (value, rest)) (hclose : skipBlanks rest = '}' :: tail) :
    readFields (count + 1) (front ++ (quoted ++ (back ++ ':' :: text))) =
      some ([(key, value)], tail) := by
  obtain ⟨body, after, hmark, hread, hcolon⟩ := exists_readString_key hfront hkey hback text
  rw [readFields_succ]
  simp only [hmark, hread, hcolon, h, hclose]

theorem readFields_more (hfront : Blanks front) (hkey : QuotedAs key quoted) (hback : Blanks back)
    (h : readValue count text = some (value, rest)) (hcomma : skipBlanks rest = ',' :: tail) :
    readFields (count + 1) (front ++ (quoted ++ (back ++ ':' :: text))) =
      (readFields count tail).map fun (fields, rest) => ((key, value) :: fields, rest) := by
  obtain ⟨body, after, hmark, hread, hcolon⟩ := exists_readString_key hfront hkey hback text
  rw [readFields_succ]
  simp only [hmark, hread, hcolon, h, hcomma]

end Key

theorem readFields_skipBlanks (count : Nat) (text : List Char) :
    readFields count (skipBlanks text) = readFields count text := by
  cases count with
  | zero => rfl
  | succ n =>
      obtain ⟨front, hfront, htext⟩ := exists_blanks text
      have hskip : skipBlanks (skipBlanks text) = skipBlanks text := by
        rw [← hfront.skipBlanks_append, ← htext]
      rw [readFields_succ, readFields_succ, hskip]

/-- An array that does not end at once has items. -/
theorem readValue_array {text : List Char} (h : ∀ tail, skipBlanks text ≠ ']' :: tail)
    (count : Nat) :
    readValue (count + 1) ('[' :: text) =
      (readItems count text).map fun (items, rest) => (.array items, rest) := by
  rw [readValue_bracket]
  split
  · rename_i hclose
    exact absurd hclose (h _)
  · rw [readItems_skipBlanks]

/-- An object that does not end at once has fields. -/
theorem readValue_object {text : List Char} (h : ∀ tail, skipBlanks text ≠ '}' :: tail)
    (count : Nat) :
    readValue (count + 1) ('{' :: text) =
      (readFields count text).map fun (fields, rest) => (.object fields, rest) := by
  rw [readValue_brace]
  split
  · rename_i hclose
    exact absurd hclose (h _)
  · rw [readFields_skipBlanks]

/-- With two calls for each character the text is read as the source. -/
def Parses (source : JsonSource) (text : List Char) : Prop :=
  ∀ count rest, 2 * text.length ≤ count → NumeralEnds rest →
    readValue count (text ++ rest) = some (source, rest)

/-- A text that has a character leaves at least one call for it. -/
theorem parses_of_succ {source : JsonSource} {text : List Char} (hne : text ≠ [])
    (h : ∀ count rest, 2 * text.length ≤ count + 1 → NumeralEnds rest →
      readValue (count + 1) (text ++ rest) = some (source, rest)) : Parses source text := by
  intro count rest hcount hends
  have hlength := List.length_pos_iff.2 hne
  obtain ⟨n, rfl⟩ : ∃ n, count = n + 1 := ⟨count - 1, by omega⟩
  exact h n rest hcount hends

theorem WrittenAs.valueStarts {source : JsonSource} {text : List Char} (h : WrittenAs source text) :
    ValueStarts text := by
  cases h with
  | number h => exact (numberStarts_literal h).valueStarts
  | string h =>
      obtain ⟨h⟩ := h
      rfl
  | _ => rfl

theorem ItemsWrittenAs.not_closed {items : List JsonSource} {text : List Char}
    (h : ItemsWrittenAs items text) (rest tail : List Char) :
    skipBlanks (text ++ rest) ≠ ']' :: tail := by
  have hspaced : ∀ {item : JsonSource} {spaced : List Char}, SpacedAs item spaced →
      ∀ more, skipBlanks (spaced ++ more) ≠ ']' :: tail := by
    rintro _ _ ⟨hfront, hwritten, hback⟩ more hclose
    rename_i front core back
    have hstarts := hwritten.valueStarts.append (back ++ more)
    rw [List.append_assoc, hfront.skipBlanks_append, List.append_assoc] at hclose
    exact hstarts.not_closed tail hclose
  cases h with
  | last hitem => exact hspaced hitem rest
  | more hitem hrest =>
      rw [List.append_assoc]
      exact hspaced hitem _

theorem FieldsWrittenAs.not_closed {fields : List (Option String × JsonSource)} {text : List Char}
    (h : FieldsWrittenAs fields text) (rest tail : List Char) :
    skipBlanks (text ++ rest) ≠ '}' :: tail := by
  have hfield : ∀ {field : Option String × JsonSource} {written : List Char},
      FieldWrittenAs field written → ∀ more, skipBlanks (written ++ more) ≠ '}' :: tail := by
    rintro _ _ ⟨hfront, ⟨_⟩, -, -⟩ more
    rw [List.append_assoc, List.cons_append, List.cons_append, hfront.skipBlanks_cons rfl]
    exact nofun
  cases h with
  | last hone => exact hfield hone rest
  | more hone hrest =>
      rw [List.append_assoc]
      exact hfield hone _

/-- Between blanks the value is read too, and the blanks behind it are left. -/
theorem SpacedAs.exists_readValue {source : JsonSource} {text : List Char}
    (h : SpacedAs source text) (hparses : ∀ {core}, WrittenAs source core → Parses source core)
    (count : Nat) {rest : List Char} (hcount : 2 * text.length ≤ count) (hends : NumeralEnds rest) :
    ∃ back, Blanks back ∧ readValue count (text ++ rest) = some (source, back ++ rest) := by
  obtain ⟨hfront, hwritten, hback⟩ := h
  rename_i front core back
  simp only [List.length_append] at hcount
  have hread := hparses hwritten count (back ++ rest) (by omega) (hback.numeralEnds hends)
  refine ⟨back, hback, ?_⟩
  rw [List.append_assoc, List.append_assoc, ← readValue_skipBlanks, hfront.skipBlanks_append,
    readValue_skipBlanks, hread]

/-- The items of an array are read up to its closing bracket. -/
theorem ItemsWrittenAs.readItems {items : List JsonSource} {text : List Char}
    (h : ItemsWrittenAs items text)
    (hparses : ∀ item ∈ items, ∀ {core}, WrittenAs item core → Parses item core) {count : Nat}
    (hcount : 2 * text.length < count) (tail : List Char) :
    readItems count (text ++ ']' :: tail) = some (items, tail) := by
  obtain ⟨n, rfl⟩ : ∃ n, count = n + 1 := ⟨count - 1, by omega⟩
  induction items generalizing text n with
  | nil => cases h
  | cons item rest ih =>
      obtain ⟨hitem, hrest⟩ := List.forall_mem_cons.1 hparses
      cases h with
      | last hspaced =>
          have hends : NumeralEnds (']' :: tail) := ⟨rfl, by decide, by decide, by decide⟩
          obtain ⟨back, hback, hread⟩ := hspaced.exists_readValue hitem n (by omega) hends
          exact readItems_last hread (hback.skipBlanks_cons rfl tail)
      | @more _ _ spaced others hspaced hothers =>
          have hends : NumeralEnds (',' :: (others ++ ']' :: tail)) :=
            ⟨rfl, by decide, by decide, by decide⟩
          rw [List.length_append, List.length_cons] at hcount
          obtain ⟨back, hback, hread⟩ :=
            hspaced.exists_readValue hitem n (by omega) hends
          obtain ⟨m, rfl⟩ : ∃ m, n = m + 1 := ⟨n - 1, by omega⟩
          rw [List.append_assoc, List.cons_append,
            readItems_more hread (hback.skipBlanks_cons rfl _), ih hothers hrest m (by omega)]
          rfl

theorem FieldWrittenAs.exists_eq {key : Option String} {value : JsonSource} {text : List Char}
    (h : FieldWrittenAs (key, value) text) :
    ∃ front quoted back spaced, Blanks front ∧ QuotedAs key quoted ∧ Blanks back ∧
      SpacedAs value spaced ∧ text = front ++ (quoted ++ (back ++ ':' :: spaced)) := by
  obtain ⟨hfront, hkey, hback, hvalue⟩ := h
  exact ⟨_, _, _, _, hfront, hkey, hback, hvalue, rfl⟩

/-- The fields of an object are read up to its closing brace. -/
theorem FieldsWrittenAs.readFields {fields : List (Option String × JsonSource)} {text : List Char}
    (h : FieldsWrittenAs fields text)
    (hparses : ∀ field ∈ fields, ∀ {core}, WrittenAs field.2 core → Parses field.2 core)
    {count : Nat} (hcount : 2 * text.length < count) (tail : List Char) :
    readFields count (text ++ '}' :: tail) = some (fields, tail) := by
  obtain ⟨n, rfl⟩ : ∃ n, count = n + 1 := ⟨count - 1, by omega⟩
  induction fields generalizing text n with
  | nil => cases h
  | cons field rest ih =>
      obtain ⟨key, value⟩ := field
      obtain ⟨hvalue, hrest⟩ := List.forall_mem_cons.1 hparses
      cases h with
      | last hfield =>
          obtain ⟨front, quoted, back, spaced, hfront, hkey, hback, hspaced, rfl⟩ :=
            hfield.exists_eq
          have hends : NumeralEnds ('}' :: tail) := ⟨rfl, by decide, by decide, by decide⟩
          simp only [List.length_append, List.length_cons] at hcount
          obtain ⟨after, hafter, hread⟩ :=
            hspaced.exists_readValue hvalue n (by omega) hends
          simp only [List.append_assoc, List.cons_append]
          exact readFields_last hfront hkey hback hread (hafter.skipBlanks_cons rfl tail)
      | @more _ _ written others hfield hothers =>
          obtain ⟨front, quoted, back, spaced, hfront, hkey, hback, hspaced, rfl⟩ :=
            hfield.exists_eq
          have hends : NumeralEnds (',' :: (others ++ '}' :: tail)) :=
            ⟨rfl, by decide, by decide, by decide⟩
          simp only [List.length_append, List.length_cons] at hcount
          obtain ⟨after, hafter, hread⟩ :=
            hspaced.exists_readValue hvalue n (by omega) hends
          obtain ⟨m, rfl⟩ : ∃ m, n = m + 1 := ⟨n - 1, by omega⟩
          simp only [List.append_assoc, List.cons_append]
          rw [readFields_more hfront hkey hback hread (hafter.skipBlanks_cons rfl _),
            ih hothers hrest m (by omega)]
          rfl

/-- What is in the grammar is read. -/
theorem WrittenAs.parses {source : JsonSource} {text : List Char} (h : WrittenAs source text) :
    Parses source text := by
  induction source using JsonSource.induct generalizing text with
  | null =>
      cases h
      exact parses_of_succ (List.cons_ne_nil _ _) fun _ _ _ _ => rfl
  | bool b =>
      cases h with
      | true => exact parses_of_succ (List.cons_ne_nil _ _) fun _ _ _ _ => rfl
      | false => exact parses_of_succ (List.cons_ne_nil _ _) fun _ _ _ _ => rfl
  | number numeral whole =>
      cases h with
      | number hl =>
          have hstarts := numberStarts_literal hl
          refine parses_of_succ ?_ fun count rest _ hends => ?_
          · intro hnil
            rw [hnil] at hstarts
            exact hstarts
          · rw [readValue_of_numberStarts (hstarts.append rest), readNumber_literal hl hends]
  | string text =>
      cases h with
      | string hquoted =>
          refine parses_of_succ ?_ fun count rest _ _ => ?_
          · obtain ⟨_⟩ := hquoted
            exact List.cons_ne_nil _ _
          · obtain ⟨body, hbody, hread⟩ := hquoted.readString rest
            rw [hbody, readValue_mark, hread]
            rfl
  | array items ih =>
      cases h with
      | emptyArray hblanks =>
          refine parses_of_succ (List.cons_ne_nil _ _) fun count rest _ _ => ?_
          rw [List.cons_append, List.append_assoc, List.singleton_append, readValue_bracket,
            hblanks.skipBlanks_cons rfl]
          rfl
      | array hitems =>
          refine parses_of_succ (List.cons_ne_nil _ _) fun count rest hcount _ => ?_
          simp only [List.length_cons, List.length_append] at hcount
          rw [List.cons_append, List.append_assoc, readValue_array (hitems.not_closed _),
            List.singleton_append, hitems.readItems ih (by omega)]
          rfl
  | object fields ih =>
      cases h with
      | emptyObject hblanks =>
          refine parses_of_succ (List.cons_ne_nil _ _) fun count rest _ _ => ?_
          rw [List.cons_append, List.append_assoc, List.singleton_append, readValue_brace,
            hblanks.skipBlanks_cons rfl]
          rfl
      | object hfields =>
          refine parses_of_succ (List.cons_ne_nil _ _) fun count rest hcount _ => ?_
          simp only [List.length_cons, List.length_append] at hcount
          rw [List.cons_append, List.append_assoc, readValue_object (hfields.not_closed _),
            List.singleton_append, hfields.readFields ih (by omega)]
          rfl

/-- The texts that are read as a tree are those that the grammar has for it. -/
theorem ofChars?_eq_some_iff {text : List Char} {source : JsonSource} :
    ofChars? text = some source ↔ SpacedAs source text := by
  constructor
  · intro h
    rw [ofChars?] at h
    split at h
    · rename_i found rest hread
      split at h
      · rename_i hempty
        cases h
        obtain ⟨front, core, hfront, hcore, rfl⟩ := (startsWith_of_read _).1 hread
        obtain ⟨back, hback, hrest⟩ := exists_blanks rest
        rw [List.isEmpty_iff.1 hempty, List.append_nil] at hrest
        exact .intro hfront hcore (hrest ▸ hback)
      · cases h
    · cases h
  · intro h
    have hends : NumeralEnds [] := trivial
    obtain ⟨back, hback, hread⟩ :=
      h.exists_readValue WrittenAs.parses (2 * text.length + 1) (by omega) hends
    have hskip : skipBlanks back = [] := by
      have hall := hback.skipBlanks_append []
      rwa [List.append_nil] at hall
    rw [List.append_nil, List.append_nil] at hread
    rw [ofChars?, hread]
    simp only [hskip, List.isEmpty_nil, if_true]

end JsonSource

end JsonRules
