import JsonRules.Proofs.Blame
import JsonRules.Proofs.Guarantee
import JsonRules.Proofs.LogLines

/-!
Lines of the log as brackets.

Entering an operation `log` opens a bracket, and the line that it writes closes it.  What is between
the two is deeper (`Evaluates.bracketed`).  A bracket stays open only where an error came up within
the operation (`Evaluates.leftOpen_iff`), so none does in a run that comes to a value.
-/

namespace JsonRules

variable {σ : Type}

/-! ## Events with their places -/

def Event.Deeper (depth : Nat) : Event → Prop
  | .dispatch _ _ deeper => depth < deeper
  | .log deeper _ => depth < deeper
  | _ => False

theorem Event.Deeper.of_le {event : Event} {depth other : Nat} (h : event.Deeper depth)
    (hle : other ≤ depth) : event.Deeper other := by
  cases event with
  | dispatch name count deeper => exact Nat.lt_of_le_of_lt hle h
  | log deeper text => exact Nat.lt_of_le_of_lt hle h
  | unknownOperator name => exact h
  | depthLimit limit => exact h

/-- An event and the place of its operation. -/
structure Entry where
  place : List Nat
  event : Event

/-- The entry as one of the operation around its own. -/
def Entry.within (position : Nat) (entry : Entry) : Entry :=
  { entry with place := position :: entry.place }

namespace Mark

def placed? (mark : Mark) : Option Entry :=
  mark.occurrence.event?.map fun event => ⟨mark.place, event⟩

/-- The events among marks, with their places. -/
def entries (marks : List Mark) : List Entry := marks.filterMap placed?

theorem map_event_entries (marks : List Mark) : (entries marks).map Entry.event = events marks := by
  have hevent : ∀ mark : Mark, mark.placed?.map Entry.event = mark.occurrence.event? := by
    intro mark
    rw [placed?, Option.map_map]
    exact Option.map_id'
  rw [entries, List.map_filterMap, events, funext hevent]

theorem mem_entries {entry : Entry} {marks : List Mark} :
    entry ∈ entries marks ↔ ⟨entry.place, .event entry.event⟩ ∈ marks := by
  simp only [entries, List.mem_filterMap, placed?, Option.map_eq_some_iff]
  constructor
  · rintro ⟨⟨place, occurrence⟩, hmark, event, hevent, rfl⟩
    cases occurrence with
    | event other =>
        cases hevent
        exact hmark
    | _ => cases hevent
  · intro hmark
    exact ⟨_, hmark, entry.event, rfl, rfl⟩

theorem entries_append (marks others : List Mark) :
    entries (marks ++ others) = entries marks ++ entries others :=
  List.filterMap_append

theorem entries_within (position : Nat) (marks : List Mark) :
    entries (marks.map (within position)) = (entries marks).map (Entry.within position) := by
  have hentry : ∀ mark : Mark, (mark.within position).placed? =
      mark.placed?.map (Entry.within position) := by
    intro mark
    rw [placed?, placed?, Option.map_map]
    rfl
  rw [entries, entries, List.filterMap_map, List.map_filterMap, ← funext hentry]
  rfl

theorem entries_around (name : String) (count depth : Nat) (marks : List Mark) :
    entries (around name count depth marks) =
      ⟨[], .dispatch name count (depth + 1)⟩ :: entries marks := by
  have hinner : entries (marks ++ [.here (.depth depth)]) = entries marks := by
    rw [entries_append]
    exact List.append_nil _
  rw [← hinner]
  rfl

theorem entries_logging (depth : Nat) (inner : List Mark) (value : Value) :
    entries (logging depth inner value) = ⟨[], .dispatch "log" 1 (depth + 1)⟩ ::
      ((entries inner).map (Entry.within 0) ++ [⟨[], .log (depth + 1) value.display⟩]) := by
  rw [logging, entries_around, entries_append, entries_within]
  rfl

/-- What a refusal leaves is neither the entering of an operation nor a line of one. -/
theorem events_of_mem_refusal {e : RuleError} {entry : Entry} (h : entry ∈ entries e.refusal) :
    (∀ name count depth, entry.event ≠ .dispatch name count depth) ∧
      ∀ depth text, entry.event ≠ .log depth text := by
  rw [mem_entries] at h
  cases e <;> simp [RuleError.refusal, RuleError.events, here] at h <;> simp [h]

end Mark

/-! ## Brackets -/

/-- A list that is cut at an entry is cut in its first or in its second part. -/
theorem cut_append {α : Type} {first second before after : List α} {a : α}
    (h : first ++ second = before ++ a :: after) :
    (∃ rest, first = before ++ a :: rest ∧ after = rest ++ second) ∨
      ∃ rest, before = first ++ rest ∧ second = rest ++ a :: after := by
  rcases List.append_eq_append_iff.1 h with ⟨rest, hbefore, hsecond⟩ | ⟨rest, hfirst, hafter⟩
  · exact .inr ⟨rest, hbefore, hsecond⟩
  · cases rest with
    | nil => exact .inr ⟨[], by rw [hfirst, List.append_nil, List.append_nil], hafter.symm⟩
    | cons other rest =>
        obtain ⟨rfl, rfl⟩ := List.cons_eq_cons.1 hafter
        exact .inl ⟨rest, hfirst, rfl⟩

/-- Before each line of the log stands the entering of its operation `log`, at the same depth and
with one operand, and all events between the two are deeper. -/
def Bracketed (entries : List Entry) : Prop :=
  ∀ before place depth text after, entries = before ++ ⟨place, .log depth text⟩ :: after →
    ∃ earlier between, before = earlier ++ ⟨place, .dispatch "log" 1 depth⟩ :: between ∧
      ∀ entry ∈ between, entry.event.Deeper depth

namespace Bracketed

theorem of_no_line {entries : List Entry} (h : ∀ entry ∈ entries, ∀ depth text,
    entry.event ≠ .log depth text) : Bracketed entries := by
  rintro before place depth text after rfl
  exact absurd rfl (h ⟨place, .log depth text⟩ (by simp) depth text)

theorem append {entries others : List Entry} (h : Bracketed entries) (hothers : Bracketed others) :
    Bracketed (entries ++ others) := by
  intro before place depth text after hcut
  rcases cut_append hcut with ⟨rest, hfirst, -⟩ | ⟨rest, rfl, hsecond⟩
  · exact h before place depth text rest hfirst
  · obtain ⟨earlier, between, rfl, hdeeper⟩ := hothers rest place depth text after hsecond
    exact ⟨entries ++ earlier, between, (List.append_assoc _ _ _).symm, hdeeper⟩

theorem within {entries : List Entry} (h : Bracketed entries) (position : Nat) :
    Bracketed (entries.map (Entry.within position)) := by
  intro before place depth text after hcut
  obtain ⟨first, second, rfl, rfl, hsecond⟩ := List.map_eq_append_iff.1 hcut
  obtain ⟨⟨own, event⟩, rest, rfl, hline, rfl⟩ := List.map_eq_cons_iff.1 hsecond
  cases hline
  obtain ⟨earlier, between, rfl, hdeeper⟩ := h first own depth text rest rfl
  refine ⟨earlier.map (Entry.within position), between.map (Entry.within position), ?_, ?_⟩
  · rw [List.map_append, List.map_cons]
    rfl
  · exact List.forall_mem_map.2 hdeeper

/-- The entering of an operation and its line around events that are deeper. -/
theorem around {entries : List Entry} {depth : Nat} (h : Bracketed entries)
    (hdeeper : ∀ entry ∈ entries, entry.event.Deeper depth) (text : String) :
    Bracketed (⟨[], .dispatch "log" 1 depth⟩ :: (entries ++ [⟨[], .log depth text⟩])) := by
  have hopened : Bracketed ([⟨[], .dispatch "log" 1 depth⟩] ++ entries) :=
    (of_no_line (by simp)).append h
  intro before place line text' after hcut
  rw [← List.cons_append, ← List.singleton_append] at hcut
  rcases cut_append hcut with ⟨rest, hfirst, -⟩ | ⟨rest, rfl, hsecond⟩
  · exact hopened before place line text' rest hfirst
  · cases rest with
    | cons other rest => simp at hsecond
    | nil =>
        cases hsecond
        exact ⟨[], entries, by simp, hdeeper⟩

end Bracketed

/-- Some of the events after the entering of an operation `log` at a depth are its line and the
events before it, all of them deeper. -/
def Closing (depth : Nat) (after between : List Event) : Prop :=
  (∀ event ∈ between, event.Deeper depth) ∧ ∃ text rest, after = between ++ .log depth text :: rest

namespace Closing

variable {depth : Nat} {after between other : List Event}

theorem append (h : Closing depth after between) (events : List Event) :
    Closing depth (after ++ events) between := by
  obtain ⟨hdeeper, text, rest, rfl⟩ := h
  exact ⟨hdeeper, text, rest ++ events, by simp⟩

/-- The first of two lines that close the same bracket would be among the deeper events before the
second, and it is not deeper. -/
theorem unique (h : Closing depth after between) (hother : Closing depth after other) :
    between = other := by
  obtain ⟨hdeeper, text, rest, rfl⟩ := h
  obtain ⟨hother, text', rest', heq⟩ := hother
  have hnot : ∀ line, ¬Event.Deeper depth (.log depth line) := fun line => Nat.lt_irrefl depth
  rcases cut_append heq with ⟨shared, rfl, -⟩ | ⟨shared, rfl, hline⟩
  · exact absurd (hdeeper _ (by simp)) (hnot text')
  · cases shared with
    | nil => exact (List.append_nil between).symm
    | cons first shared =>
        cases hline
        exact absurd (hother _ (by simp)) (hnot text)

end Closing

/-- An operation `log` at a place was entered and wrote no line. -/
def LeftOpen (entries : List Entry) (place : List Nat) : Prop :=
  ∃ before count depth after, entries = before ++ ⟨place, .dispatch "log" count depth⟩ :: after ∧
    ∀ between, ¬Closing depth (after.map Entry.event) between

namespace LeftOpen

variable {entries others : List Entry} {place : List Nat}

theorem not_nil (place : List Nat) : ¬LeftOpen [] place := by
  rintro ⟨before, count, depth, after, hcut, -⟩
  simp at hcut

/-- Nothing is left open where no operation `log` is entered. -/
theorem cons_iff {entry : Entry} (h : ∀ count depth, entry.event ≠ .dispatch "log" count depth) :
    LeftOpen (entry :: entries) place ↔ LeftOpen entries place := by
  constructor
  · rintro ⟨before, count, depth, after, hcut, hopen⟩
    cases before with
    | nil =>
        cases hcut
        exact absurd rfl (h count depth)
    | cons first before =>
        cases hcut
        exact ⟨before, count, depth, after, rfl, hopen⟩
  · rintro ⟨before, count, depth, after, rfl, hopen⟩
    exact ⟨entry :: before, count, depth, after, rfl, hopen⟩

/-- Behind events that leave nothing open, what is left open is what the later events leave. -/
theorem append_iff (h : ∀ place, ¬LeftOpen entries place) :
    LeftOpen (entries ++ others) place ↔ LeftOpen others place := by
  constructor
  · rintro ⟨before, count, depth, after, hcut, hopen⟩
    rcases cut_append hcut with ⟨rest, hfirst, rfl⟩ | ⟨rest, -, hsecond⟩
    · rw [List.map_append] at hopen
      exact absurd ⟨before, count, depth, rest, hfirst, fun between hclosing =>
        hopen between (hclosing.append _)⟩ (h place)
    · exact ⟨rest, count, depth, after, hsecond, hopen⟩
  · rintro ⟨before, count, depth, after, rfl, hopen⟩
    exact ⟨entries ++ before, count, depth, after, (List.append_assoc _ _ _).symm, hopen⟩

theorem within_iff {position : Nat} :
    LeftOpen (entries.map (Entry.within position)) place ↔
      ∃ inner, place = position :: inner ∧ LeftOpen entries inner := by
  constructor
  · rintro ⟨before, count, depth, after, hcut, hopen⟩
    obtain ⟨first, second, rfl, rfl, hsecond⟩ := List.map_eq_append_iff.1 hcut
    obtain ⟨⟨own, event⟩, rest, rfl, hentry, rfl⟩ := List.map_eq_cons_iff.1 hsecond
    cases hentry
    rw [List.map_map] at hopen
    exact ⟨own, rfl, first, count, depth, rest, rfl, hopen⟩
  · rintro ⟨inner, rfl, before, count, depth, after, rfl, hopen⟩
    refine ⟨before.map (Entry.within position), count, depth, after.map (Entry.within position), ?_,
      ?_⟩
    · rw [List.map_append, List.map_cons]
      rfl
    · rw [List.map_map]
      exact hopen

/-- The entering of a `log` is left open if no later event is its line. -/
theorem entered_iff {depth count : Nat}
    (h : ∀ between, ¬Closing depth (entries.map Entry.event) between) :
    LeftOpen (⟨[], .dispatch "log" count depth⟩ :: entries) place ↔
      place = [] ∨ LeftOpen entries place := by
  constructor
  · rintro ⟨before, count, depth, after, hcut, hopen⟩
    cases before with
    | nil =>
        cases hcut
        exact .inl rfl
    | cons first before =>
        cases hcut
        exact .inr ⟨before, count, depth, after, rfl, hopen⟩
  · rintro (rfl | ⟨before, count, depth, after, rfl, hopen⟩)
    · exact ⟨[], count, depth, entries, rfl, h⟩
    · exact ⟨_ :: before, count, depth, after, rfl, hopen⟩

/-- Nothing is left open where a `log` writes its line and nothing within it is left open. -/
theorem not_around {depth count : Nat} {text : String} (h : ∀ place, ¬LeftOpen entries place)
    (hdeeper : ∀ entry ∈ entries, entry.event.Deeper depth) (place : List Nat) :
    ¬LeftOpen (⟨[], .dispatch "log" count depth⟩ :: (entries ++ [⟨[], .log depth text⟩]))
      place := by
  rintro ⟨before, count, depth, after, hcut, hopen⟩
  cases before with
  | nil =>
      cases hcut
      refine hopen (entries.map Entry.event) ⟨List.forall_mem_map.2 hdeeper, text, [], ?_⟩
      rw [List.map_append]
      rfl
  | cons first before =>
      have hrest : LeftOpen (entries ++ [⟨[], .log _ text⟩]) place :=
        ⟨before, count, depth, after, (List.cons_eq_cons.1 hcut).2, hopen⟩
      rw [append_iff h, cons_iff (by simp)] at hrest
      exact not_nil place hrest

end LeftOpen

/-! ## Runs -/

variable {context : Context σ}

/-- The events of a run that comes to a value are deeper than what is around it. -/
theorem Evaluates.events_deeper (hlog : context.operators.NamesLog) {depth : Nat} {rule : Rule}
    {value : Value} {marks : List Mark} (h : Evaluates context depth rule (.ok value) marks) :
    ∀ entry ∈ Mark.entries marks, entry.event.Deeper depth := by
  refine Evaluates.induct (motive := fun depth _ answer marks => ∀ value, answer = .ok value →
    ∀ entry ∈ Mark.entries marks, entry.event.Deeper depth)
    hlog ?literal ?refused ?silent ?logged ?failed rule h value rfl
  case literal =>
    intro depth literal value hok entry hentry
    cases hentry
  case refused =>
    intro depth rule e value hok
    cases hok
  case silent =>
    intro depth rule name operands script answer marks hrule _ hsilent hfollows ih value hok
    rw [Mark.entries_around]
    refine List.forall_mem_cons.2 ⟨Nat.lt_succ_self depth, fun ⟨place, event⟩ hentry => ?_⟩
    have hmark : ⟨place, .event event⟩ ∈ marks := Mark.mem_entries.1 hentry
    rcases hfollows.cases_of_silent hsilent _ hmark with ⟨-, hnone⟩ |
      ⟨index, operand, found, inner, hoperand, hinner, hfound, -, ⟨own, occurrence⟩, hown, heq⟩
    · cases hnone
    · obtain ⟨value, rfl⟩ : ∃ value, found = .ok value := by
        rcases hfound with rfl | hfound
        · exact ⟨value, hok⟩
        · exact hfound
      cases heq
      exact (ih operand (List.mem_of_getElem? hoperand) _ inner hinner value rfl ⟨own, event⟩
        (Mark.mem_entries.2 hown)).of_le (Nat.le_succ depth)
  case logged =>
    intro depth rule first value inner hrule hfirst _ ih _ _
    have hinner := ih value rfl
    rw [Mark.entries_logging]
    refine List.forall_mem_cons.2 ⟨Nat.lt_succ_self depth, List.forall_mem_append.2 ⟨?_, ?_⟩⟩
    · exact List.forall_mem_map.2 fun entry hentry =>
        (hinner entry hentry).of_le (Nat.le_succ depth)
    · exact List.forall_mem_singleton.2 (Nat.lt_succ_self depth)
  case failed =>
    intro depth rule first e inner hrule hfirst ih value hok
    cases hok

/-- What an operator that writes nothing leaves is bracketed if what its operands leave is. -/
theorem Follows.bracketed {depth position : Nat} {operands : List Rule} {script : Script}
    {answer : Except RuleError Value} {marks : List Mark} :
    Follows context depth position operands script answer marks → script.Silent →
      (∀ operand ∈ operands, ∀ answer inner,
        Evaluates context depth operand answer inner → Bracketed (Mark.entries inner)) →
        Bracketed (Mark.entries marks)
  | .ok, _, _ => .of_no_line (List.forall_mem_nil _)
  | .error, _, _ => .of_no_line (List.forall_mem_nil _)
  | .operand hfirst hnext, hsilent, hoperands => by
      obtain ⟨hoperand, hrest⟩ := List.forall_mem_cons.1 hoperands
      rw [Mark.entries_append, Mark.entries_within]
      exact ((hoperand _ _ hfirst).within _).append (hnext.bracketed (hsilent _) hrest)
  | .operandError hfirst, _, hoperands => by
      rw [Mark.entries_within]
      exact (hoperands _ List.mem_cons_self _ _ hfirst).within _
  | .skip hnext, hsilent, hoperands =>
      hnext.bracketed hsilent (List.forall_mem_cons.1 hoperands).2
  | .lookup hnext, hsilent, hoperands => hnext.bracketed (hsilent _) hoperands
  | .log _, hsilent, _ => hsilent.elim

/-- Each line of the log closes a bracket. -/
theorem Evaluates.bracketed (hlog : context.operators.NamesLog) {depth : Nat} {rule : Rule}
    {answer : Except RuleError Value} {marks : List Mark}
    (h : Evaluates context depth rule answer marks) : Bracketed (Mark.entries marks) := by
  have hentering : ∀ name count depth, Bracketed [⟨[], .dispatch name count depth⟩] :=
    fun name count depth => .of_no_line (by simp)
  refine Evaluates.induct (motive := fun _ _ _ marks => Bracketed (Mark.entries marks))
    hlog ?literal ?refused ?silent ?logged ?failed rule h
  case literal =>
    intro depth value
    exact .of_no_line (by simp [Mark.entries])
  case refused =>
    intro depth rule e
    exact .of_no_line fun entry hentry => (Mark.events_of_mem_refusal hentry).2
  case silent =>
    intro depth rule name operands script answer marks hrule _ hsilent hfollows ih
    rw [Mark.entries_around]
    exact (hentering name operands.length (depth + 1)).append (hfollows.bracketed hsilent ih)
  case logged =>
    intro depth rule first value inner hrule hfirst _ ih
    rw [Mark.entries_logging]
    exact (ih.within 0).around (List.forall_mem_map.2 (hfirst.events_deeper hlog)) value.display
  case failed =>
    intro depth rule first e inner hrule hfirst ih
    rw [Mark.entries_around, Mark.entries_within]
    exact (hentering "log" 1 (depth + 1)).append (ih.within 0)

/-- An error comes up in an operation within the one at a place. -/
def RaisedWithin (marks : List Mark) (place : List Nat) : Prop :=
  ∃ position inner e, ⟨place ++ position :: inner, .raised e⟩ ∈ marks

namespace RaisedWithin

variable {marks others : List Mark} {place : List Nat}

theorem not_of_quiet (h : Quiet marks) (place : List Nat) : ¬RaisedWithin marks place := by
  rintro ⟨position, inner, e, hmark⟩
  cases h _ hmark

theorem append_iff (h : Quiet marks) :
    RaisedWithin (marks ++ others) place ↔ RaisedWithin others place := by
  refine exists_congr fun position => exists_congr fun inner => exists_congr fun e => ?_
  rw [List.mem_append]
  refine or_iff_right fun hmark => ?_
  cases h _ hmark

theorem lookup_iff {path : String} :
    RaisedWithin (.here (.lookup path) :: marks) place ↔ RaisedWithin marks place :=
  append_iff (Quiet.cons rfl .nil : Quiet [.here (.lookup path)])

theorem within_iff {position first : Nat} :
    RaisedWithin (marks.map (Mark.within position)) (first :: place) ↔
      first = position ∧ RaisedWithin marks place := by
  constructor
  · rintro ⟨last, inner, e, hmark⟩
    obtain ⟨⟨own, occurrence⟩, hown, heq⟩ := List.mem_map.1 hmark
    cases heq
    exact ⟨rfl, last, inner, e, hown⟩
  · rintro ⟨rfl, last, inner, e, hmark⟩
    exact ⟨last, inner, e, List.mem_map.2 ⟨_, hmark, rfl⟩⟩

theorem around_iff {name : String} {count depth : Nat} :
    RaisedWithin (Mark.around name count depth marks) place ↔ RaisedWithin marks place := by
  refine exists_congr fun position => exists_congr fun inner => exists_congr fun e => ?_
  simp [Mark.around, Mark.here]

end RaisedWithin

/-- An operation `log` at a place within a rule that stands around an error. -/
def LogAroundError (rule : Rule) (marks : List Mark) (place : List Nat) : Prop :=
  rule.nameAt? place = some "log" ∧ RaisedWithin marks place

theorem Rule.nameAt?_cons_iff {rule : Rule} {name other : String} {operands : List Rule}
    {position : Nat} {place : List Nat} (hrule : rule.operation? = some (name, operands)) :
    rule.nameAt? (position :: place) = some other ↔
      ∃ operand, operands[position]? = some operand ∧ operand.nameAt? place = some other := by
  cases hoperand : operands[position]? with
  | none => simp [nameAt?, at?, hrule, hoperand]
  | some operand => simp [nameAt?, at?_cons hrule hoperand]

/-- Within an operand from a position on stands an operation `log` at a place, and around an
error. -/
def LogInOperand (position : Nat) (operands : List Rule) (marks : List Mark) (place : List Nat) :
    Prop :=
  ∃ index operand inner, place = (position + index) :: inner ∧ operands[index]? = some operand ∧
    operand.nameAt? inner = some "log" ∧ RaisedWithin marks place

/-- Around an error in an operation that is no `log` stands what stands in its operands. -/
theorem logAroundError_around_iff {rule : Rule} {name : String} {operands : List Rule}
    {marks : List Mark} {depth : Nat} {place : List Nat}
    (hrule : rule.operation? = some (name, operands)) (hname : name ≠ "log") :
    LogAroundError rule (Mark.around name operands.length depth marks) place ↔
      LogInOperand 0 operands marks place := by
  rw [LogAroundError, RaisedWithin.around_iff]
  cases place with
  | nil => simp [LogInOperand, Rule.nameAt?, hrule, hname]
  | cons position inner =>
      simp only [Rule.nameAt?_cons_iff hrule, LogInOperand, Nat.zero_add, List.cons.injEq]
      constructor
      · rintro ⟨⟨operand, hoperand, hlogs⟩, hraised⟩
        exact ⟨position, operand, inner, ⟨rfl, rfl⟩, hoperand, hlogs, hraised⟩
      · rintro ⟨index, operand, own, ⟨rfl, rfl⟩, hoperand, hlogs, hraised⟩
        exact ⟨⟨operand, hoperand, hlogs⟩, hraised⟩

/-- Around an error in the operand of a `log` stands the `log` as well. -/
theorem logAroundError_log_iff {rule first : Rule} {inner : List Mark} {failing : List Nat}
    {e : RuleError} {depth : Nat} {place : List Nat}
    (hrule : rule.operation? = some ("log", [first])) (hraised : ⟨failing, .raised e⟩ ∈ inner) :
    LogAroundError rule (Mark.around "log" 1 depth (inner.map (Mark.within 0))) place ↔
      place = [] ∨ ∃ own, place = 0 :: own ∧ LogAroundError first inner own := by
  rw [LogAroundError, RaisedWithin.around_iff]
  cases place with
  | nil =>
      refine iff_of_true ⟨by simp [Rule.nameAt?, hrule], 0, failing, e, ?_⟩ (.inl rfl)
      exact List.mem_map.2 ⟨_, hraised, rfl⟩
  | cons position own =>
      rw [Rule.nameAt?_cons_iff hrule, RaisedWithin.within_iff]
      constructor
      · rintro ⟨⟨operand, hoperand, hname⟩, rfl, hown⟩
        cases hoperand
        exact .inr ⟨own, rfl, hname, hown⟩
      · rintro (hnil | ⟨own, heq, hname, hown⟩)
        · cases hnil
        · cases heq
          exact ⟨⟨first, rfl, hname⟩, rfl, hown⟩

/-- Operations without errors within leave nothing open, if only errors do. -/
theorem not_leftOpen_within {rule : Rule} {inner : List Mark}
    (h : ∀ place, LeftOpen (Mark.entries inner) place ↔ LogAroundError rule inner place)
    (hquiet : Quiet inner) (position : Nat) (place : List Nat) :
    ¬LeftOpen ((Mark.entries inner).map (Entry.within position)) place := by
  rw [LeftOpen.within_iff]
  rintro ⟨own, -, hopen⟩
  exact RaisedWithin.not_of_quiet hquiet own ((h own).1 hopen).2

/-- An operator leaves no errors in the operands that it has gone past. -/
theorem Follows.logInOperand_iff {depth position : Nat} {operands : List Rule} {script : Script}
    {answer : Except RuleError Value} {marks : List Mark}
    (h : Follows context depth (position + 1) operands script answer marks)
    (hsilent : script.Silent) {first : Rule} {place : List Nat} :
    LogInOperand (position + 1) operands marks place ↔
      LogInOperand position (first :: operands) marks place := by
  constructor
  · rintro ⟨index, operand, inner, rfl, hoperand, hlogs⟩
    rw [Nat.add_right_comm] at hlogs ⊢
    exact ⟨index + 1, operand, inner, rfl, hoperand, hlogs⟩
  · rintro ⟨index, operand, inner, rfl, hoperand, hname, hraised⟩
    cases index with
    | succ index =>
        rw [← Nat.add_assoc, Nat.add_right_comm] at hraised ⊢
        exact ⟨index, operand, inner, rfl, hoperand, hname, hraised⟩
    | zero =>
        obtain ⟨last, rest, e, hmark⟩ := hraised
        rcases h.cases_of_silent hsilent _ hmark with ⟨hplace, -⟩ |
          ⟨index, -, -, marks, -, -, -, -, own, -, heq⟩
        · cases hplace
        · have hposition := (List.cons_eq_cons.1 (congrArg Mark.place heq)).1
          omega

/-- An operator that writes nothing leaves open what its operands do. -/
theorem Follows.leftOpen_iff {place : List Nat} {depth position : Nat} {operands : List Rule}
    {script : Script} {answer : Except RuleError Value} {marks : List Mark} :
    Follows context depth position operands script answer marks → script.Silent →
      (∀ operand ∈ operands, ∀ answer inner,
        Evaluates context depth operand answer inner → ∀ place,
          LeftOpen (Mark.entries inner) place ↔ LogAroundError operand inner place) →
        (LeftOpen (Mark.entries marks) place ↔ LogInOperand position operands marks place)
  | .ok, _, _ => by
      refine iff_of_false (LeftOpen.not_nil place) ?_
      rintro ⟨index, operand, inner, -, -, -, hraised⟩
      exact RaisedWithin.not_of_quiet .nil place hraised
  | .error, _, _ => by
      refine iff_of_false (LeftOpen.not_nil place) ?_
      rintro ⟨index, operand, inner, -, -, -, last, rest, e, hmark⟩
      have hplace : place ++ last :: rest = [] := congrArg Mark.place (List.mem_singleton.1 hmark)
      exact List.append_ne_nil_of_right_ne_nil place (List.cons_ne_nil last rest) hplace
  | .operand hfirst hnext, hsilent, hoperands => by
      obtain ⟨hoperand, hrest⟩ := List.forall_mem_cons.1 hoperands
      have hquiet := hfirst.quiet rfl
      rw [Mark.entries_append, Mark.entries_within,
        LeftOpen.append_iff (not_leftOpen_within (hoperand _ _ hfirst) hquiet position)]
      simp only [LogInOperand, RaisedWithin.append_iff (hquiet.within position)]
      exact (hnext.leftOpen_iff (hsilent _) hrest).trans (hnext.logInOperand_iff (hsilent _))
  | .operandError hfirst, _, hoperands => by
      rw [Mark.entries_within, LeftOpen.within_iff]
      have hfirst := hoperands _ List.mem_cons_self _ _ hfirst
      constructor
      · rintro ⟨inner, rfl, hopen⟩
        obtain ⟨hname, hraised⟩ := (hfirst inner).1 hopen
        exact ⟨0, _, inner, rfl, rfl, hname, RaisedWithin.within_iff.2 ⟨rfl, hraised⟩⟩
      · rintro ⟨index, operand, inner, rfl, hoperand, hname, hraised⟩
        obtain ⟨hposition, hinner⟩ := RaisedWithin.within_iff.1 hraised
        obtain rfl : index = 0 := by omega
        cases hoperand
        exact ⟨inner, rfl, (hfirst inner).2 ⟨hname, hinner⟩⟩
  | .skip hnext, hsilent, hoperands => by
      obtain ⟨-, hrest⟩ := List.forall_mem_cons.1 hoperands
      exact (hnext.leftOpen_iff hsilent hrest).trans (hnext.logInOperand_iff hsilent)
  | .lookup hnext, hsilent, hoperands => by
      simp only [LogInOperand, RaisedWithin.lookup_iff]
      exact hnext.leftOpen_iff (hsilent _) hoperands
  | .log _, hsilent, _ => hsilent.elim

/-- No line of an operand stands at the depth of the operation. -/
theorem Evaluates.not_closing (hlog : context.operators.NamesLog) {depth : Nat} {rule : Rule}
    {answer : Except RuleError Value} {marks : List Mark}
    (h : Evaluates context depth rule answer marks) (between : List Event) :
    ¬Closing depth (Mark.events marks) between := by
  rintro ⟨-, text, rest, heq⟩
  have hline : .log depth text ∈ (Mark.entries marks).map Entry.event := by
    rw [Mark.map_event_entries, heq]
    simp
  obtain ⟨⟨place, event⟩, hentry, rfl⟩ := List.mem_map.1 hline
  have hdepth := (h.logged hlog (Mark.mem_entries.1 hentry)).1
  omega

/-- A `log` is left open if an error comes up within its operand. -/
theorem Evaluates.leftOpen_iff (hlog : context.operators.NamesLog) {depth : Nat} {rule : Rule}
    {answer : Except RuleError Value} {marks : List Mark}
    (h : Evaluates context depth rule answer marks) (place : List Nat) :
    LeftOpen (Mark.entries marks) place ↔ LogAroundError rule marks place := by
  refine Evaluates.induct (motive := fun _ rule _ marks => ∀ place,
    LeftOpen (Mark.entries marks) place ↔ LogAroundError rule marks place)
    hlog ?literal ?refused ?silent ?logged ?failed rule h place
  case literal =>
    intro depth value place
    exact iff_of_false (LeftOpen.not_nil place) fun hlogs =>
      RaisedWithin.not_of_quiet .nil place hlogs.2
  case refused =>
    intro depth rule e place
    refine iff_of_false ?_ ?_
    · rintro ⟨before, count, depth, after, hcut, -⟩
      have hentry : ⟨place, .dispatch "log" count depth⟩ ∈ Mark.entries e.refusal := by simp [hcut]
      exact (Mark.events_of_mem_refusal hentry).1 "log" count depth rfl
    · rintro ⟨-, last, inner, other, hmark⟩
      simp [RuleError.refusal, Mark.here] at hmark
  case silent =>
    intro depth rule name operands script answer marks hrule hname hsilent hfollows ih place
    rw [Mark.entries_around, LeftOpen.cons_iff (by simpa using hname),
      hfollows.leftOpen_iff hsilent ih, logAroundError_around_iff hrule hname]
  case logged =>
    intro depth rule first value inner hrule hfirst hself ih place
    have hsettled := not_leftOpen_within ih (hfirst.quiet rfl) 0
    rw [Mark.entries_logging]
    refine iff_of_false (LeftOpen.not_around hsettled ?_ place) ?_
    · exact List.forall_mem_map.2 (hfirst.events_deeper hlog)
    · exact fun hlogs => RaisedWithin.not_of_quiet (hself.quiet rfl) place hlogs.2
  case failed =>
    intro depth rule first e inner hrule hfirst ih place
    have hunclosed : ∀ between, ¬Closing (depth + 1)
        (((Mark.entries inner).map (Entry.within 0)).map Entry.event) between := by
      rw [← Mark.entries_within, Mark.map_event_entries, Mark.events_within]
      exact hfirst.not_closing hlog
    obtain ⟨failing, -, before, after, hmarks, -⟩ := hfirst.blame rfl
    have hraised : ⟨failing, .raised e⟩ ∈ inner := by simp [hmarks]
    rw [Mark.entries_around, Mark.entries_within, LeftOpen.entered_iff hunclosed,
      LeftOpen.within_iff, logAroundError_log_iff hrule hraised]
    simp only [ih]

/-- The lines of a run of the standard operators close the entering of their operations `log` as
brackets do: before each line stands the entering of the same operation, at the same depth and with
one operand, and all events between the two are deeper; no entering has two lines; and the text of a
line is that of the value to which the operation comes, in a run that is a stretch of this one.  In
a run that comes to a value every `log` that is entered has its line, and in a run that comes to an
error those without one are the operations `log` around the operation in which the error comes
up. -/
theorem Engine.apply_brackets (options : Options) (budget : Nat) (rule data : Value) (state : σ) :
    ∃ report, Engine.apply ⟨.standard, options⟩ budget rule data state = some report ∧
      (Mark.entries report.marks).map Entry.event = report.events ∧
      (∀ before place depth text after,
        Mark.entries report.marks = before ++ ⟨place, .log depth text⟩ :: after →
          (∃ earlier between, before = earlier ++ ⟨place, .dispatch "log" 1 depth⟩ :: between ∧
            ∀ entry ∈ between, entry.event.Deeper depth) ∧
          ∃ node value inner, (Rule.ofValue rule).at? place = some node ∧
            node.run (.ofBudget budget) (Engine.context ⟨.standard, options⟩ data) place.length
              state = some ⟨.ok value, place.length, state, inner⟩ ∧
            text = value.display ∧ inner.map (Mark.inside place) <:+: report.marks) ∧
      (∀ before count depth after between other,
        report.events = before ++ .dispatch "log" count depth :: after →
          Closing depth after between → Closing depth after other → between = other) ∧
      (∀ value, report.answer = .ok value →
        ∀ place, ¬LeftOpen (Mark.entries report.marks) place) ∧
      ∀ e, report.answer = .error e → ∃ failing, Mark.errors report.marks = [(failing, e)] ∧
        ∀ place, LeftOpen (Mark.entries report.marks) place ↔
          (Rule.ofValue rule).nameAt? place = some "log" ∧
            ∃ position inner, failing = place ++ position :: inner := by
  obtain ⟨answer, marks, hevaluates, happly⟩ := Engine.exists_apply_eq
    (⟨.standard, options⟩ : Engine σ) Registry.onlyBuiltins_standard rule data
  have hlog : (Engine.context (⟨.standard, options⟩ : Engine σ) data).operators.NamesLog :=
    Registry.namesLog_standard
  have hopen := hevaluates.leftOpen_iff hlog
  refine ⟨_, happly budget state, Mark.map_event_entries marks, ?_, ?_, ?_, ?_⟩
  · intro before place depth text after hcut
    refine ⟨hevaluates.bracketed hlog before place depth text after hcut, ?_⟩
    have hentry : ⟨place, .log depth text⟩ ∈ Mark.entries marks := by simp [hcut]
    obtain ⟨-, node, value, inner, hat, hnode, htext, hstretch⟩ :=
      hevaluates.logged hlog (Mark.mem_entries.1 hentry)
    rw [Nat.zero_add] at hnode
    exact ⟨node, value, inner, hat, hnode.run_eq _ state, htext, hstretch⟩
  · intro before count depth after between other _ hclosing hother
    exact hclosing.unique hother
  · rintro value rfl place hleft
    exact RaisedWithin.not_of_quiet (hevaluates.quiet rfl) place ((hopen place).1 hleft).2
  · rintro e rfl
    obtain ⟨failing, -, hfails⟩ := hevaluates.blame rfl
    have hraised : ∀ place other, ⟨place, .raised other⟩ ∈ marks ↔ place = failing ∧ other = e := by
      intro place other
      rw [← Mark.mem_errors, hfails.errors_eq, List.mem_singleton, Prod.mk.injEq]
    refine ⟨failing, hfails.errors_eq, fun place =>
      (hopen place).trans (and_congr_right fun _ => ?_)⟩
    simp only [RaisedWithin, hraised, exists_and_left, exists_eq, and_true]
    exact exists_congr fun position => exists_congr fun inner => eq_comm

/-- Logs what it has logged. -/
def loggedTwiceRule : Value := .object [("log", .array [.object [("log", .array [.bool true])]])]

/-- Not only operations are entered between a `log` and its line: the lines of the `log` within it
stand there as well. -/
theorem Engine.line_between_brackets :
    ∃ report before after,
      Engine.apply (σ := Unit) ⟨.standard, .standard⟩ 0 loggedTwiceRule .null () = some report ∧
        report.events = before ++ .log 1 "true" :: after ∧
        ∀ earlier between, before = earlier ++ .dispatch "log" 1 1 :: between →
          .log 2 "true" ∈ between := by
  refine ⟨_, [.dispatch "log" 1 1, .dispatch "log" 1 2, .log 2 "true"], [], rfl, rfl, ?_⟩
  intro earlier between hcut
  cases earlier with
  | nil =>
      cases hcut
      decide
  | cons first rest =>
      have hrest : .dispatch "log" 1 1 ∈ [Event.dispatch "log" 1 2, .log 2 "true"] := by
        rw [(List.cons_eq_cons.1 hcut).2]
        simp
      exact absurd hrest (by decide)

end JsonRules
