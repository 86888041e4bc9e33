import JsonRules.Proofs.Derivation

/-!
Who writes to the log.

Of the standard operators only `log` writes to the log, so the others leave no events but those of
their operands (`Follows.cases_of_silent`).  `Evaluates.induct` is induction on a run with `log` set
apart, and by it each line has the text of the value to which the operation `log` at its place
comes, in a run that is a stretch of the whole run (`Evaluates.logged`).
-/

namespace JsonRules

variable {σ : Type}

/-! ## Operators that write nothing -/

namespace Script

/-- The script writes nothing to the log, whatever the values of the operands and the data. -/
def Silent : Script → Prop
  | .finish _ => True
  | .stuck => True
  | .operand next => ∀ value, (next value).Silent
  | .skip next => next.Silent
  | .lookup _ next => ∀ found, (next found).Silent
  | .log _ _ => False

theorem silent_ending : ending.Silent := fun _ => trivial

theorem silent_ofResult (result : Result Value) : (ofResult result).Silent := by
  unfold ofResult
  split <;> trivial

theorem silent_gather {next : List Value → Script} (h : ∀ values, (next values).Silent)
    (count : Nat) : (gather count next).Silent := by
  induction count generalizing next with
  | zero => exact h []
  | succ count ih => exact fun value => ih fun values => h (value :: values)

theorem silent_firstWhere (passes : Value → Bool) (count : Nat) :
    (firstWhere passes count).Silent := by
  match count with
  | 0 => trivial
  | 1 => exact silent_ending
  | count + 2 =>
      intro value
      dsimp only
      split
      · trivial
      · exact silent_firstWhere passes (count + 1)

theorem silent_choose (count : Nat) : (choose count).Silent := by
  match count with
  | 0 => trivial
  | 1 => exact silent_ending
  | count + 2 =>
      intro value
      dsimp only
      split
      · exact silent_ending
      · exact silent_choose count

theorem silent_resolve (key : Value) {otherwise : Script} (h : otherwise.Silent) :
    (resolve key otherwise).Silent := by
  unfold resolve
  split
  · trivial
  · rintro (_ | value)
    · exact h
    · trivial

theorem silent_followReference (count : Nat) : (followReference count).Silent := by
  match count with
  | 0 => exact silent_resolve .null trivial
  | 1 => exact fun key => silent_resolve key trivial
  | _ + 2 => exact fun key => silent_resolve key silent_ending

theorem silent_askAll {next : List Value → Script} (h : ∀ missing, (next missing).Silent)
    (keys : List Value) : (askAll keys next).Silent := by
  induction keys generalizing next with
  | nil => exact h []
  | cons key rest ih => exact fun found => ih fun missing => h _

end Script

/-- `log` is the only standard operator that writes to the log. -/
theorem Builtin.script_silent {b : Builtin} (h : b ≠ .log) (count : Nat) :
    (b.script count).Silent := by
  cases b with
  | control c =>
      cases c with
      | reference => exact Script.silent_followReference count
      | conjunction => exact Script.silent_firstWhere _ count
      | disjunction => exact Script.silent_firstWhere _ count
      | choice => exact Script.silent_choose count
  | function f => exact Script.silent_gather (fun values => Script.silent_ofResult _) count
  | missing =>
      apply Script.silent_gather
      intro values
      have hend : ∀ missing, (Script.finish (.ok (.array missing))).Silent := fun missing => trivial
      exact Script.silent_askAll hend _
  | missingSome =>
      apply Script.silent_gather
      intro values
      dsimp only [Builtin.conclusion]
      split
      · trivial
      · trivial
      · exact Script.silent_askAll (fun missing => Script.silent_ofResult _) _
  | log => exact absurd rfl h

/-- An operation stands for the operator that writes to the log if its name is `log`. -/
def Registry.NamesLog (operators : Registry σ) : Prop :=
  ∀ name b, operators.get? name = some (.builtin b) → (b = .log ↔ name = "log")

theorem Registry.namesLog_standard : (standard : Registry σ).NamesLog := by
  have hnames : ∀ b ∈ Builtin.standard, ∀ name ∈ b.names, (b = .log ↔ name = "log") := by
    decide +kernel
  intro name b hget
  obtain ⟨other, hother, heq, hname⟩ := exists_mem_names_of_get? hget
  cases heq
  exact hnames b hother name hname

/-! ## What an operator leaves -/

/-- The mark as one of the operation around it, in which its operation stands at a place. -/
def Mark.inside (place : List Nat) (mark : Mark) : Mark :=
  { mark with place := place ++ mark.place }

theorem Mark.map_inside_nil (marks : List Mark) : marks.map (inside []) = marks :=
  List.map_id marks

theorem Mark.map_inside_cons (position : Nat) (place : List Nat) (marks : List Mark) :
    marks.map (inside (position :: place)) = (marks.map (inside place)).map (within position) := by
  rw [List.map_map]
  rfl

variable {context : Context σ}

/-- A mark is one of an operand from a position on.  The marks of the operand stand together, and it
came to a value unless the operator ended with its error. -/
def LeftByOperand (context : Context σ) (depth position : Nat) (operands : List Rule)
    (answer : Except RuleError Value) (marks : List Mark) (mark : Mark) : Prop :=
  ∃ index operand found inner, operands[index]? = some operand ∧
    Evaluates context depth operand found inner ∧ (found = answer ∨ ∃ value, found = .ok value) ∧
    inner.map (Mark.within (position + index)) <:+: marks ∧
    ∃ own ∈ inner, mark = own.within (position + index)

namespace LeftByOperand

variable {depth position : Nat} {operands : List Rule} {answer : Except RuleError Value}
  {marks : List Mark} {mark : Mark}

theorem append (h : LeftByOperand context depth position operands answer marks mark)
    (others : List Mark) :
    LeftByOperand context depth position operands answer (others ++ marks) mark := by
  obtain ⟨index, operand, found, inner, hoperand, hinner, hfound, hstretch, hown⟩ := h
  exact ⟨index, operand, found, inner, hoperand, hinner, hfound,
    hstretch.trans (List.suffix_append others marks).isInfix, hown⟩

theorem later (h : LeftByOperand context depth (position + 1) operands answer marks mark)
    (first : Rule) :
    LeftByOperand context depth position (first :: operands) answer marks mark := by
  obtain ⟨index, operand, found, inner, hoperand, hinner⟩ := h
  rw [Nat.add_right_comm] at hinner
  exact ⟨index + 1, operand, found, inner, hoperand, hinner⟩

/-- The marks of the operand at hand. -/
theorem first {first : Rule} {found : Except RuleError Value} {inner : List Mark}
    (hinner : Evaluates context depth first found inner)
    (hfound : found = answer ∨ ∃ value, found = .ok value) (rest : List Rule)
    (hstretch : inner.map (Mark.within position) <:+: marks)
    (hmark : mark ∈ inner.map (Mark.within position)) :
    LeftByOperand context depth position (first :: rest) answer marks mark := by
  obtain ⟨own, hown, rfl⟩ := List.mem_map.1 hmark
  exact ⟨0, first, found, inner, rfl, hinner, hfound, hstretch, own, hown, rfl⟩

end LeftByOperand

/-- What an operator that writes nothing leaves is no event, or it is left by an operand. -/
theorem Follows.cases_of_silent {depth position : Nat} {operands : List Rule} {script : Script}
    {answer : Except RuleError Value} {marks : List Mark} :
    Follows context depth position operands script answer marks → script.Silent →
      ∀ mark ∈ marks, (mark.place = [] ∧ mark.occurrence.event? = none) ∨
        LeftByOperand context depth position operands answer marks mark
  | .ok, _, _, hmark => by cases hmark
  | .error, _, _, hmark => by
      rw [List.mem_singleton.1 hmark]
      exact .inl ⟨rfl, rfl⟩
  | .operand hfirst hnext, hsilent, mark, hmark => by
      rcases List.mem_append.1 hmark with hmark | hmark
      · exact .inr (.first hfirst (.inr ⟨_, rfl⟩) _ (List.prefix_append _ _).isInfix hmark)
      · exact (hnext.cases_of_silent (hsilent _) mark hmark).imp_right
          fun hleft => (hleft.later _).append _
  | .operandError hfirst, _, _, hmark => .inr (.first hfirst (.inl rfl) _ List.infix_rfl hmark)
  | .skip hnext, hsilent, mark, hmark =>
      (hnext.cases_of_silent hsilent mark hmark).imp_right fun hleft => hleft.later _
  | .lookup hnext, hsilent, mark, hmark => by
      rcases List.mem_cons.1 hmark with rfl | hmark
      · exact .inl ⟨rfl, rfl⟩
      · exact (hnext.cases_of_silent (hsilent _) mark hmark).imp_right fun hleft => hleft.append [_]
  | .log _, hsilent, _, _ => hsilent.elim

/-- `log` comes to what its operand comes to, and writes a value of it. -/
theorem Follows.cases_of_log {depth : Nat} {operands : List Rule}
    {answer : Except RuleError Value} {marks : List Mark} (hcount : operands.length = 1)
    (h : Follows context depth 0 operands (Builtin.log.script operands.length) answer marks) :
    ∃ first inner, operands = [first] ∧ Evaluates context depth first answer inner ∧
      ((∃ value, answer = .ok value ∧ marks = inner.map (Mark.within 0) ++
          [.here (.event (.log depth value.display))]) ∨
        ∃ e, answer = .error e ∧ marks = inner.map (Mark.within 0)) := by
  obtain ⟨first, rfl⟩ := List.length_eq_one_iff.1 hcount
  cases h with
  | operand hfirst hnext =>
      cases hnext with
      | log hend =>
          cases hend with
          | ok => exact ⟨first, _, rfl, hfirst, .inl ⟨_, rfl, rfl⟩⟩
  | operandError hfirst => exact ⟨first, _, rfl, hfirst, .inr ⟨_, rfl, rfl⟩⟩

/-- The marks of an operation that writes to the log. -/
def Mark.logging (depth : Nat) (inner : List Mark) (value : Value) : List Mark :=
  around "log" 1 depth
    (inner.map (within 0) ++ [.here (.event (.log (depth + 1) value.display))])

/-- Induction on a run, with `log` set apart from the operators that write nothing. -/
theorem Evaluates.induct {motive : Nat → Rule → Except RuleError Value → List Mark → Prop}
    (hlog : context.operators.NamesLog)
    (literal : ∀ depth value, motive depth (.literal value) (.ok value) [])
    (refused : ∀ depth rule e, motive depth rule (.error e) e.refusal)
    (silent : ∀ depth rule name operands script answer marks,
      rule.operation? = some (name, operands) → name ≠ "log" → script.Silent →
        Follows context (depth + 1) 0 operands script answer marks →
          (∀ operand ∈ operands, ∀ answer marks,
            Evaluates context (depth + 1) operand answer marks →
              motive (depth + 1) operand answer marks) →
            motive depth rule answer (Mark.around name operands.length depth marks))
    (logged : ∀ depth rule first value inner, rule.operation? = some ("log", [first]) →
      Evaluates context (depth + 1) first (.ok value) inner →
        Evaluates context depth rule (.ok value) (Mark.logging depth inner value) →
          motive (depth + 1) first (.ok value) inner →
            motive depth rule (.ok value) (Mark.logging depth inner value))
    (failed : ∀ depth rule first e inner, rule.operation? = some ("log", [first]) →
      Evaluates context (depth + 1) first (.error e) inner →
        motive (depth + 1) first (.error e) inner →
          motive depth rule (.error e) (Mark.around "log" 1 depth (inner.map (Mark.within 0))))
    (rule : Rule) : ∀ {depth answer marks}, Evaluates context depth rule answer marks →
      motive depth rule answer marks := by
  induction rule using Rule.induct with
  | literal value =>
      intro depth answer marks h
      cases h with
      | literal => exact literal depth value
      | refused hrule => cases hrule
      | entered hrule => cases hrule
  | operation rule name operands hrule ih =>
      intro depth answer marks h
      cases hadmission : context.operators.admission context.options depth name operands.length with
      | error e =>
          obtain ⟨rfl, rfl⟩ := h.eq_of_refused hrule hadmission
          exact refused depth rule e
      | ok operator =>
          obtain ⟨b, inner, rfl, hfollows, rfl⟩ := h.exists_follows hrule hadmission
          obtain ⟨hget, haccepts, -⟩ := Registry.admission_eq_ok_iff.1 hadmission
          by_cases hb : b = .log
          · obtain rfl : name = "log" := (hlog name b hget).1 hb
            subst hb
            have hcount : operands.length = 1 := by
              have hfixed : Arity.mismatch? (.fixed 1) operands.length = none := haccepts
              by_cases hone : operands.length = 1
              · exact hone
              · rw [Arity.mismatch?, if_neg hone] at hfixed
                cases hfixed
            obtain ⟨first, marks, rfl, hfirst, ⟨value, rfl, rfl⟩ | ⟨e, rfl, rfl⟩⟩ :=
              hfollows.cases_of_log hcount
            · exact logged depth rule first value marks hrule hfirst h
                (ih first List.mem_cons_self hfirst)
            · exact failed depth rule first e marks hrule hfirst
                (ih first List.mem_cons_self hfirst)
          · exact silent depth rule name operands _ answer inner hrule
              (fun hname => hb ((hlog name b hget).2 hname)) (b.script_silent hb _) hfollows
              fun operand hoperand answer marks => ih operand hoperand

/-! ## What a line says -/

/-- A line of the log at a depth is that of the operation at a place: the operation comes to a value
with this text, and its run is a stretch of the marks. -/
def Rule.LogsAt (context : Context σ) (depth : Nat) (rule : Rule) (marks : List Mark)
    (place : List Nat) (line : Nat) (text : String) : Prop :=
  line = depth + place.length + 1 ∧ ∃ node value inner, rule.at? place = some node ∧
    Evaluates context (depth + place.length) node (.ok value) inner ∧ text = value.display ∧
    inner.map (Mark.inside place) <:+: marks

/-- A line of an operand is one of the operation around it. -/
theorem Rule.LogsAt.of_operand {depth position line : Nat} {rule operand : Rule}
    {name text : String} {operands : List Rule} {marks inner : List Mark} {place : List Nat}
    (h : operand.LogsAt context (depth + 1) inner place line text)
    (hrule : rule.operation? = some (name, operands))
    (hoperand : operands[position]? = some operand)
    (hstretch : inner.map (Mark.within position) <:+: marks) :
    rule.LogsAt context depth marks (position :: place) line text := by
  obtain ⟨hline, node, value, own, hat, hown, htext, hinside⟩ := h
  have hdepth : depth + (position :: place).length = depth + 1 + place.length := by
    rw [List.length_cons]
    omega
  rw [LogsAt, hdepth, Rule.at?_cons hrule hoperand]
  refine ⟨hline, node, value, own, hat, hown, htext, ?_⟩
  rw [Mark.map_inside_cons]
  exact (hinside.map (Mark.within position)).trans hstretch

/-- The marks that an operator leaves stand together among those of the operation. -/
theorem Mark.infix_around (name : String) (count depth : Nat) (marks : List Mark) :
    marks <:+: around name count depth marks := by
  have hinner : marks <:+: marks ++ [.here (.depth depth)] := (List.prefix_append _ _).isInfix
  exact hinner.trans (List.suffix_append [_, _] _).isInfix

/-- The lines of an operation are those that its operator leaves. -/
theorem Mark.mem_of_mem_around {name text : String} {count depth line : Nat} {marks : List Mark}
    {place : List Nat} (h : ⟨place, .event (.log line text)⟩ ∈ around name count depth marks) :
    ⟨place, .event (.log line text)⟩ ∈ marks := by
  simpa [around, here] using h

/-- Each line of the log is that of the operation at its place. -/
theorem Evaluates.logged (hlog : context.operators.NamesLog) {depth : Nat} {rule : Rule}
    {answer : Except RuleError Value} {marks : List Mark}
    (h : Evaluates context depth rule answer marks) {place : List Nat} {line : Nat} {text : String}
    (hmark : ⟨place, .event (.log line text)⟩ ∈ marks) :
    rule.LogsAt context depth marks place line text := by
  refine Evaluates.induct (motive := fun depth rule _ marks => ∀ place line text,
    ⟨place, .event (.log line text)⟩ ∈ marks → rule.LogsAt context depth marks place line text)
    hlog ?literal ?refused ?silent ?logged ?failed rule h place line text hmark
  case literal =>
    intro depth value place line text hmark
    cases hmark
  case refused =>
    intro depth rule e place line text hmark
    cases e <;> simp [RuleError.refusal, RuleError.events, Mark.here] at hmark
  case silent =>
    intro depth rule name operands script answer marks hrule _ hsilent hfollows ih place line text
      hmark
    rcases hfollows.cases_of_silent hsilent _ (Mark.mem_of_mem_around hmark) with ⟨-, hnone⟩ |
      ⟨index, operand, found, inner, hoperand, hinner, -, hstretch, ⟨own, occurrence⟩, hown, heq⟩
    · cases hnone
    · rw [Nat.zero_add] at heq hstretch
      cases heq
      exact (ih operand (List.mem_of_getElem? hoperand) found inner hinner own line text
        hown).of_operand hrule hoperand (hstretch.trans (Mark.infix_around _ _ _ _))
  case logged =>
    intro depth rule first value inner hrule hfirst hself ih place line text hmark
    rcases List.mem_append.1 (Mark.mem_of_mem_around hmark) with hmark | hmark
    · obtain ⟨⟨own, occurrence⟩, hown, heq⟩ := List.mem_map.1 hmark
      cases heq
      exact (ih own line text hown).of_operand hrule rfl
        ((List.prefix_append _ _).isInfix.trans (Mark.infix_around _ _ _ _))
    · cases List.mem_singleton.1 hmark
      refine ⟨rfl, rule, value, _, Rule.at?_nil rule, hself, rfl, [], [], ?_⟩
      rw [Mark.map_inside_nil, List.append_nil, List.nil_append]
  case failed =>
    intro depth rule first e inner hrule hfirst ih place line text hmark
    obtain ⟨⟨own, occurrence⟩, hown, heq⟩ := List.mem_map.1 (Mark.mem_of_mem_around hmark)
    cases heq
    exact (ih own line text hown).of_operand hrule rfl (Mark.infix_around _ _ _ _)

end JsonRules
