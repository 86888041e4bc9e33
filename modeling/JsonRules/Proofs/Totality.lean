import JsonRules.Proofs.Visits

/-!
Every evaluation comes to an answer.

A run is stuck where an operand is looked at that is absent, where a part of a text is taken out of
range, and where a step of whole numbers leaves its range.  Standard operators never get there on as
many operands as they accept (`Builtin.run_answers`), and dispatching hands them no others.  They
start nothing but the operands themselves, so an evaluation goes from a rule to smaller rules only
(`Rule.sizeOf_lt_of_at?`) and ends, under whatever names the operators stand.
-/

namespace JsonRules

variable {σ : Type}

/-- The run comes to an answer wherever it starts. -/
def Run.Answers {α : Type} (run : Run σ α) : Prop :=
  ∀ depth state, ∃ report, run depth state = some report

namespace Run.Answers

variable {α β : Type}

theorem ofAnswer (answer : Except RuleError α) : (Run.ofAnswer answer : Run σ α).Answers :=
  fun _ _ => ⟨_, rfl⟩

theorem orRaise (answer : Except RuleError α) : (Run.orRaise answer : Run σ α).Answers := by
  cases answer with
  | ok a => exact ofAnswer (.ok a)
  | error e => exact fun _ _ => ⟨_, rfl⟩

/-- A run that goes on with a run that answers, whatever the value, answers. -/
theorem andThen {run : Run σ α} {next : α → Run σ β} (hrun : run.Answers)
    (hnext : ∀ a, (next a).Answers) : (run.andThen next).Answers := by
  intro depth state
  obtain ⟨⟨answer, last, left, marks⟩, hreport⟩ := hrun depth state
  cases answer with
  | error e => exact ⟨_, Run.andThen_of_error hreport next⟩
  | ok a =>
      obtain ⟨report, hnextReport⟩ := hnext a last left
      exact ⟨_, by rw [Run.andThen_of_ok hreport, hnextReport]; rfl⟩

end Run.Answers

/-- Following a script that fits the operands answers if these do. -/
theorem Script.run_answers {operator : String} {script : Script} {operands : List (Run σ Value)}
    (hfits : script.Fits operator operands.length) (hoperands : ∀ operand ∈ operands,
      operand.Answers) (data : Value) : (script.run data operands).Answers := by
  induction script generalizing operands with
  | finish answer => exact .orRaise answer
  | stuck => cases operands <;> exact hfits.elim
  | operand next ih =>
      cases operands with
      | nil => exact hfits.elim
      | cons first rest =>
          obtain ⟨hfirst, hrest⟩ := List.forall_mem_cons.1 hoperands
          exact hfirst.andThen fun value => ih value (hfits value) hrest
  | skip next ih =>
      cases operands with
      | nil => exact hfits.elim
      | cons first rest => exact ih hfits (List.forall_mem_cons.1 hoperands).2
  | lookup path next ih =>
      apply Run.Answers.andThen
      · exact fun depth state => ⟨_, Control.lookUp_apply data path depth state⟩
      · exact fun found => ih found (Script.fits_lookup.1 hfits found) hoperands
  | log value next ih =>
      apply Run.Answers.andThen
      · exact fun depth state => ⟨_, Builtin.logValue_apply value depth state⟩
      · exact fun _ => ih (Script.fits_log.1 hfits) hoperands

/-- A standard operator answers on as many operands as it accepts, if these do. -/
theorem Builtin.run_answers (b : Builtin) (data : Value) {operands : List (Run σ Value)}
    (haccepts : b.signature.arity.mismatch? operands.length = none)
    (hoperands : ∀ operand ∈ operands, operand.Answers) : (b.run data operands).Answers := by
  rw [Builtin.run_eq_script]
  exact Script.run_answers (b.script_fits haccepts) hoperands data

/-- For all texts that are shorter than a word can tell, and for all doubles, the positions of a
part are in order and within the text. -/
theorem Textual.part_of_doubles (text : List Char) (hlength : (text.length : Int) ≤ Word.highest)
    (start : Binary64) (size : Option Binary64) :
    ∃ first last,
      bounds text.length start.truncateToWord (size.map Binary64.truncateToWord) =
        some (first, last) ∧
      0 ≤ first ∧ first ≤ last ∧ last ≤ text.length ∧
      part ⟨text, hlength⟩ start.truncateToWord (size.map Binary64.truncateToWord) =
        some ((text.take last.toNat).drop first.toNat) := by
  have hsize : ∀ n ∈ size.map Binary64.truncateToWord, Word.lowest ≤ n := by
    intro n hn
    obtain ⟨x, -, rfl⟩ := Option.map_eq_some_iff.1 hn
    exact lowest_le_truncateToWord x
  obtain ⟨first, last, hbounds, hfirst, hle, hlast⟩ := bounds_eq_some
    (Int.natCast_nonneg text.length) hlength (lowest_le_truncateToWord start) hsize
  refine ⟨first, last, hbounds, hfirst, hle, hlast, ?_⟩
  rw [part_eq, hbounds]
  exact if_pos ⟨hfirst, hle, hlast⟩

/-- No more keys are missing than there are. -/
theorem Lookup.presentCount_missingKeys (data : Value) (keys : List Value) :
    presentCount keys (missingKeys data keys) =
      some (keys.length - (missingKeys data keys).length) :=
  if_pos (List.length_filter_le _ keys)

namespace Rule

theorem sizeOf_lt_of_mem {rule operand : Rule} {name : String} {operands : List Rule}
    (hrule : rule.operation? = some (name, operands)) (hoperand : operand ∈ operands) :
    sizeOf operand < sizeOf rule := by
  cases rule with
  | literal value => cases hrule
  | operation name' operands' =>
      cases hrule
      have hlt := List.sizeOf_lt_of_mem hoperand
      simp only [operation.sizeOf_spec]
      omega
  | shorthand name' operand' =>
      cases hrule
      rw [List.mem_singleton.1 hoperand]
      simp only [shorthand.sizeOf_spec]
      omega

/-- What stands within a rule is smaller than the rule. -/
theorem sizeOf_lt_of_at? {rule inner : Rule} {place : List Nat} (hplace : place ≠ [])
    (h : rule.at? place = some inner) : sizeOf inner < sizeOf rule := by
  induction place generalizing rule with
  | nil => exact absurd rfl hplace
  | cons position rest ih =>
      cases hrule : rule.operation? with
      | none => simp [at?, hrule] at h
      | some operation =>
          obtain ⟨name, operands⟩ := operation
          obtain ⟨operand, hoperand, hrest⟩ := exists_at?_of_cons hrule h
          have hlt := sizeOf_lt_of_mem hrule (List.mem_of_getElem? hoperand)
          by_cases hnil : rest = []
          · subst hnil
            rw [at?_nil, Option.some.injEq] at hrest
            exact hrest ▸ hlt
          · exact Nat.lt_trans (ih hnil hrest) hlt

end Rule

namespace Engine

/-- With standard operators under any names, every rule comes to an answer on all data, and none of
what a host operator could start is needed for that: the operations entered are the rule itself and
smaller ones within it, each in its place.  On as many operands as it accepts, every operator
answers: the positions of a part are in range for all doubles, and the count of present keys is
never below zero. -/
theorem answers_of_onlyBuiltins (engine : Engine σ) (honly : engine.operators.OnlyBuiltins) :
    (∀ rule data, ∃ answer marks,
      (∀ reentry state, (Rule.ofValue rule).run reentry (engine.context data) 0 state =
        some ⟨answer, 0, state, marks⟩) ∧
      (∀ budget state, engine.apply budget rule data state = some ⟨answer, 0, state, marks⟩) ∧
      (Mark.visited marks).Sublist (Rule.ofValue rule).nodes ∧
      ∀ node ∈ Mark.visited marks, ∃ inner operands,
        (Rule.ofValue rule).at? node.place = some inner ∧
        inner.operation? = some (node.name, operands) ∧ operands.length = node.count ∧
        (node.place ≠ [] → sizeOf inner < sizeOf (Rule.ofValue rule))) ∧
    (∀ (b : Builtin) data (operands : List (Run σ Value)),
      b.signature.arity.mismatch? operands.length = none →
        (∀ operand ∈ operands, operand.Answers) → (b.run data operands).Answers) ∧
    (∀ (text : List Char) (hlength : (text.length : Int) ≤ Word.highest) (start : Binary64)
      (size : Option Binary64), ∃ first last,
        Textual.bounds text.length start.truncateToWord (size.map Binary64.truncateToWord) =
          some (first, last) ∧
        0 ≤ first ∧ first ≤ last ∧ last ≤ text.length ∧
        Textual.part ⟨text, hlength⟩ start.truncateToWord (size.map Binary64.truncateToWord) =
          some ((text.take last.toNat).drop first.toNat)) ∧
    ∀ data keys, Lookup.presentCount keys (Lookup.missingKeys data keys) =
      some (keys.length - (Lookup.missingKeys data keys).length) := by
  refine ⟨fun rule data => ?_, fun b data operands => b.run_answers data,
    Textual.part_of_doubles, Lookup.presentCount_missingKeys⟩
  obtain ⟨answer, marks, hevaluates, happly⟩ := exists_apply_eq engine honly rule data
  have hsublist := hevaluates.visited_sublist
  refine ⟨answer, marks, fun reentry state => hevaluates.run_eq reentry state, happly, hsublist,
    fun node hnode => ?_⟩
  obtain ⟨inner, operands, hat, hinner, hcount⟩ := Rule.mem_nodes_iff.1 (hsublist.subset hnode)
  exact ⟨inner, operands, hat, hinner, hcount, fun hplace => Rule.sizeOf_lt_of_at? hplace hat⟩

/-- Parts of texts have another name here, and are no longer known by their own. -/
def renamed : Engine Unit :=
  ⟨(Registry.standard.insert "cut" (.builtin (.function .slice))).erase "substr", ⟨some 3⟩⟩

theorem onlyBuiltins_renamed : renamed.operators.OnlyBuiltins :=
  (Registry.onlyBuiltins_standard.insert "cut" (.function .slice)).erase "substr"

/-- A part that starts infinitely far before the end, and whose size is not a number. -/
def farthestPart : Value :=
  .object [("cut", .array [.string "abc", .number (.infinite true), .number .nan])]

theorem answers_farthestPart :
    (∃ marks, renamed.apply 0 farthestPart .null () = some ⟨.ok (.string ""), 0, (), marks⟩) ∧
      ∃ first last, Textual.bounds 3 (Binary64.infinite true).truncateToWord
          (some Binary64.nan.truncateToWord) = some (first, last) ∧
        0 ≤ first ∧ first ≤ last ∧ last ≤ 3 := by
  obtain ⟨hanswers, -, hparts, -⟩ := answers_of_onlyBuiltins renamed onlyBuiltins_renamed
  obtain ⟨answer, marks, -, happly, -⟩ := hanswers farthestPart .null
  have hanswer : (renamed.apply 0 farthestPart .null ()).map Report.answer =
      some (.ok (.string "")) := by rfl
  rw [happly] at hanswer
  obtain rfl : answer = .ok (.string "") := Option.some.inj hanswer
  obtain ⟨first, last, hbounds, hfirst, hle, hlast, -⟩ :=
    hparts ['a', 'b', 'c'] (by decide) (.infinite true) (some .nan)
  exact ⟨⟨marks, happly 0 ()⟩, first, last, hbounds, hfirst, hle, hlast⟩

end Engine

end JsonRules
