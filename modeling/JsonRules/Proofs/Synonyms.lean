import JsonRules.Proofs.Rejections
import JsonRules.Proofs.Surroundings

/-!
Names of the same operator.

Two names are synonyms in a registry if they stand for the same operator.  A `Renaming` puts one
name in place of another at some operations of a rule.  Where the names are synonyms the renamed
rule runs in step with the rule (`Evaluates.renamed`): each mark of the one is the mark of the other
at the same place, with the name as it is written there, and the check takes the same way
(`Rule.Rejects.renamed`).  Only an operation that is entered and an error about a number of operands
carry the name as it is written.
-/

namespace JsonRules

variable {σ : Type}

/-- Both names stand for the same operator. -/
def Registry.Synonyms (operators : Registry σ) (name other : String) : Prop :=
  ∃ operator, operators.get? name = some operator ∧ operators.get? other = some operator

/-- Another name for the operations of a name that stand at chosen places. -/
structure Renaming where
  source : String
  target : String
  chosen : List Nat → Bool

namespace Renaming

/-- What a name of an operation at a place becomes. -/
def nameAt (r : Renaming) (place : List Nat) (name : String) : String :=
  if name = r.source ∧ r.chosen place = true then r.target else name

/-- The renaming as it concerns the operand at a position. -/
def under (r : Renaming) (position : Nat) : Renaming :=
  { r with chosen := fun place => r.chosen (position :: place) }

/-- What an error that comes up at a place becomes: the number of operands is the one thing about
which an error names the operator as it is written. -/
def error (r : Renaming) (place : List Nat) : RuleError → RuleError
  | .operandCount name expected => .operandCount (r.nameAt place name) expected
  | e => e

/-- What happens at a place instead. -/
def occurrence (r : Renaming) (place : List Nat) : Occurrence → Occurrence
  | .event (.dispatch name count depth) => .event (.dispatch (r.nameAt place name) count depth)
  | .raised e => .raised (r.error place e)
  | other => other

def mark (r : Renaming) (mark : Mark) : Mark :=
  ⟨mark.place, r.occurrence mark.place mark.occurrence⟩

def node (r : Renaming) (node : Node) : Node := { node with name := r.nameAt node.place node.name }

end Renaming

mutual

/-- The rule with the chosen operations renamed.  Only operands are gone into: what stands in a
literal keeps its names. -/
def Value.renamed : Value → Renaming → Value
  | .object [(name, .array items)], r => .operation (r.nameAt [] name) (Value.renamedFrom 0 items r)
  | .object [(name, argument)], r => .object [(r.nameAt [] name, argument.renamed (r.under 0))]
  | value, _ => value

def Value.renamedFrom (position : Nat) : List Value → Renaming → List Value
  | [], _ => []
  | value :: rest, r => value.renamed (r.under position) :: Value.renamedFrom (position + 1) rest r

end

mutual

/-- The same for a rule that has been read. -/
def Rule.renamed : Rule → Renaming → Rule
  | .literal value, _ => .literal value
  | .operation name operands, r => .operation (r.nameAt [] name) (Rule.renamedFrom 0 operands r)
  | .shorthand name operand, r => .shorthand (r.nameAt [] name) (operand.renamed (r.under 0))

def Rule.renamedFrom (position : Nat) : List Rule → Renaming → List Rule
  | [], _ => []
  | rule :: rest, r => rule.renamed (r.under position) :: Rule.renamedFrom (position + 1) rest r

end

namespace Rule

mutual

/-- Renaming operations and reading the rule may be done in either order. -/
theorem ofValue_renamed : ∀ (value : Value) (r : Renaming),
    ofValue (value.renamed r) = (ofValue value).renamed r
  | .object [(name, .array items)], r => by
      rw [Value.renamed, Value.operation, ofValue, ofValue, renamed, ofValues_renamedFrom 0 items r]
  | .object [(name, .object fields)], r => by
      have h := ofValue_renamed (.object fields) (r.under 0)
      have hobject : ∃ others, Value.renamed (.object fields) (r.under 0) = .object others := by
        unfold Value.renamed
        split <;> exact ⟨_, rfl⟩
      obtain ⟨others, hothers⟩ := hobject
      rw [hothers] at h
      simp [Value.renamed, hothers, ofValue, renamed, h]
  | .object [(name, .null)], r => by simp [Value.renamed, ofValue, renamed]
  | .object [(name, .bool _)], r => by simp [Value.renamed, ofValue, renamed]
  | .object [(name, .number _)], r => by simp [Value.renamed, ofValue, renamed]
  | .object [(name, .string _)], r => by simp [Value.renamed, ofValue, renamed]
  | .object [], r => by simp [Value.renamed, ofValue, renamed]
  | .object (_ :: _ :: _), r => by simp [Value.renamed, ofValue, renamed]
  | .null, r => by simp [Value.renamed, ofValue, renamed]
  | .bool _, r => by simp [Value.renamed, ofValue, renamed]
  | .number _, r => by simp [Value.renamed, ofValue, renamed]
  | .string _, r => by simp [Value.renamed, ofValue, renamed]
  | .array _, r => by simp [Value.renamed, ofValue, renamed]

theorem ofValues_renamedFrom (position : Nat) : ∀ (values : List Value) (r : Renaming),
    ofValues (Value.renamedFrom position values r) = renamedFrom position (ofValues values) r
  | [], _ => rfl
  | value :: rest, r => by
      rw [Value.renamedFrom, ofValues, ofValues, renamedFrom, ofValue_renamed value,
        ofValues_renamedFrom (position + 1) rest r]

end

theorem operation?_renamed {rule : Rule} {name : String} {operands : List Rule}
    (hrule : rule.operation? = some (name, operands)) (r : Renaming) :
    (rule.renamed r).operation? = some (r.nameAt [] name, renamedFrom 0 operands r) := by
  cases rule with
  | literal value => cases hrule
  | operation name operands =>
      cases hrule
      rw [renamed, operation?]
  | shorthand name operand =>
      cases hrule
      rfl

theorem length_renamedFrom (position : Nat) (operands : List Rule) (r : Renaming) :
    (renamedFrom position operands r).length = operands.length := by
  induction operands generalizing position with
  | nil => rfl
  | cons operand rest ih => rw [renamedFrom, List.length_cons, ih, List.length_cons]

theorem renamedFrom_append (position : Nat) (operands others : List Rule) (r : Renaming) :
    renamedFrom position (operands ++ others) r =
      renamedFrom position operands r ++ renamedFrom (position + operands.length) others r := by
  induction operands generalizing position with
  | nil => rfl
  | cons operand rest ih =>
      have hlater : position + 1 + rest.length = position + (rest.length + 1) := by omega
      rw [List.cons_append, renamedFrom, renamedFrom, ih, hlater]
      rfl

theorem nodesFrom_renamedFrom (position : Nat) {operands : List Rule}
    (h : ∀ operand ∈ operands, ∀ r, (operand.renamed r).nodes = operand.nodes.map r.node)
    (r : Renaming) :
    nodesFrom position (renamedFrom position operands r) =
      (nodesFrom position operands).map r.node := by
  induction operands generalizing position with
  | nil => rfl
  | cons operand rest ih =>
      obtain ⟨hoperand, hrest⟩ := List.forall_mem_cons.1 h
      rw [renamedFrom, nodesFrom, nodesFrom, hoperand, ih (position + 1) hrest, List.map_append,
        List.map_map, List.map_map]
      rfl

/-- The renamed rule has the operations of the rule, under their new names. -/
theorem nodes_renamed (rule : Rule) (r : Renaming) :
    (rule.renamed r).nodes = rule.nodes.map r.node := by
  induction rule using Rule.induct generalizing r with
  | literal value => rfl
  | operation rule name operands hrule ih =>
      rw [nodes_of_operation? (operation?_renamed hrule r), nodes_of_operation? hrule,
        length_renamedFrom, nodesFrom_renamedFrom 0 ih]
      rfl

end Rule

namespace Renaming

variable {r : Renaming}

theorem error_of_ownedBy {operator : String} {e : RuleError} (h : e.OwnedBy operator)
    (place : List Nat) : r.error place e = e := by
  cases e with
  | operandCount name expected => exact h.elim
  | _ => rfl

theorem map_mark_refusal (e : RuleError) : e.refusal.map r.mark = (r.error [] e).refusal := by
  cases e <;> rfl

theorem map_mark_within (position : Nat) (marks : List Mark) :
    (marks.map (Mark.within position)).map r.mark =
      (marks.map (r.under position).mark).map (Mark.within position) := by
  rw [List.map_map, List.map_map]
  refine List.map_congr_left fun mark _ => ?_
  obtain ⟨place, occurrence⟩ := mark
  cases occurrence with
  | event event => cases event <;> rfl
  | raised e => cases e <;> rfl
  | _ => rfl

theorem map_mark_around (name : String) (count depth : Nat) (marks : List Mark) :
    (Mark.around name count depth marks).map r.mark =
      Mark.around (r.nameAt [] name) count depth (marks.map r.mark) := by
  simp only [Mark.around, List.map_cons, List.map_append]
  rfl

/-- The answer of a run that leaves some marks, and that of the run of the renamed rule. -/
inductive Answers (r : Renaming) (marks : List Mark) :
    Except RuleError Value → Except RuleError Value → Prop
  | ok (value : Value) : Answers r marks (.ok value) (.ok value)
  | error {place : List Nat} {e : RuleError} (hfails : FailsAt place e marks) :
      Answers r marks (.error e) (.error (r.error place e))

namespace Answers

variable {marks others : List Mark} {answer other : Except RuleError Value}

theorem append (h : r.Answers marks answer other) (hothers : Quiet others) :
    r.Answers (others ++ marks) answer other := by
  cases h with
  | ok value => exact .ok value
  | error hfails => exact .error (hfails.append hothers)

theorem around (h : r.Answers marks answer other) (name : String) (count depth : Nat) :
    r.Answers (Mark.around name count depth marks) answer other := by
  cases h with
  | ok value => exact .ok value
  | error hfails => exact .error (hfails.around name count depth)

theorem within {position : Nat} (h : (r.under position).Answers marks answer other) :
    r.Answers (marks.map (Mark.within position)) answer other := by
  cases h with
  | ok value => exact .ok value
  | @error place e hfails =>
      have herror : (r.under position).error place e = r.error (position :: place) e := by
        cases e <;> rfl
      rw [herror]
      exact .error (hfails.within position)

end Answers

end Renaming

/-! ## Running a renamed rule -/

namespace Registry

variable {operators : Registry σ} {r : Renaming}

/-- A name that has no operator is not renamed, and a new name has the operator of the old. -/
theorem get?_nameAt (h : operators.Synonyms r.source r.target) (place : List Nat) (name : String) :
    operators.get? (r.nameAt place name) = operators.get? name ∧
      (operators.get? name = none → r.nameAt place name = name) := by
  obtain ⟨operator, hsource, htarget⟩ := h
  unfold Renaming.nameAt
  split
  · rename_i hchosen
    rw [hchosen.1, hsource, htarget]
    exact ⟨rfl, fun hnone => by cases hnone⟩
  · exact ⟨rfl, fun _ => rfl⟩

/-- A renamed operation is admitted or refused as it was before, and an error about its operands has
its new name. -/
theorem admission_nameAt (h : operators.Synonyms r.source r.target) (options : Options)
    (depth : Nat) (name : String) (count : Nat) :
    operators.admission options depth (r.nameAt [] name) count =
      (operators.admission options depth name count).mapError (r.error []) := by
  obtain ⟨hsame, hnone⟩ := get?_nameAt h [] name
  cases hget : operators.get? name with
  | none =>
      rw [hnone hget]
      simp only [admission, hget]
      rfl
  | some operator =>
      rw [admission_of_get? hget, admission_of_get? (hsame.trans hget)]
      unfold Arity.check
      cases operator.signature.arity.mismatch? count with
      | some expected => rfl
      | none =>
          cases hlevel : options.level depth with
          | ok _ => rfl
          | error e =>
              obtain ⟨limit, rfl⟩ := Options.exists_limit_of_level_eq_error hlevel
              rfl

/-- The same is true of its check. -/
theorem checkNode_nameAt (h : operators.Synonyms r.source r.target) (options : Options)
    (depth : Nat) (name : String) (count : Nat) :
    operators.checkNode options depth (r.nameAt [] name) count =
      (operators.checkNode options depth name count).mapError (r.error []) := by
  obtain ⟨hsame, hnone⟩ := get?_nameAt h [] name
  cases hget : operators.get? name with
  | none =>
      rw [hnone hget]
      simp only [checkNode, hget]
      rfl
  | some operator =>
      rw [checkNode_of_get? hget, checkNode_of_get? (hsame.trans hget)]
      cases hlevel : options.level depth with
      | error e =>
          obtain ⟨limit, rfl⟩ := Options.exists_limit_of_level_eq_error hlevel
          rfl
      | ok _ =>
          unfold Arity.check
          cases operator.signature.arity.mismatch? count <;> rfl

end Registry

variable {context : Context σ}

mutual

/-- A renamed rule runs in step with the rule. -/
theorem Evaluates.renamed {depth : Nat} {rule : Rule} {answer : Except RuleError Value}
    {marks : List Mark} (r : Renaming) (hnames : context.operators.Synonyms r.source r.target) :
    Evaluates context depth rule answer marks →
      ∃ other, Evaluates context depth (rule.renamed r) other (marks.map r.mark) ∧
        r.Answers marks answer other
  | .literal => ⟨_, .literal, .ok _⟩
  | .refused (e := e) hrule hrefused => by
      refine ⟨.error (r.error [] e), ?_, .error (.refusal e)⟩
      rw [Renaming.map_mark_refusal]
      apply Evaluates.refused (Rule.operation?_renamed hrule r)
      rw [Registry.admission_nameAt hnames, Rule.length_renamedFrom, hrefused]
      rfl
  | .entered (b := b) hrule hadmitted hfollows => by
      rename_i name operands inner
      have hfits := b.script_fits (Registry.admission_eq_ok_iff.1 hadmitted).2.1
      obtain ⟨other, hothers, hanswers⟩ := hfollows.renamed hfits r hnames
      refine ⟨other, ?_, hanswers.around _ _ _⟩
      have hlength := Rule.length_renamedFrom 0 operands r
      rw [Renaming.map_mark_around, ← hlength]
      refine Evaluates.entered (Rule.operation?_renamed hrule r) ?_ (hlength ▸ hothers)
      rw [Registry.admission_nameAt hnames, hlength, hadmitted]
      rfl

/-- A script is followed in step with operands that are renamed. -/
theorem Follows.renamed {operator : String} {depth position : Nat} {operands : List Rule}
    {script : Script} {answer : Except RuleError Value} {marks : List Mark} :
    Follows context depth position operands script answer marks →
      script.Fits operator operands.length → ∀ r : Renaming,
      context.operators.Synonyms r.source r.target →
        ∃ other, Follows context depth position (Rule.renamedFrom position operands r) script other
          (marks.map r.mark) ∧ r.Answers marks answer other
  | .ok, _, _, _ => ⟨_, .ok, .ok _⟩
  | .error (e := e), hfits, r, _ => by
      have howned := Script.fits_finish.1 hfits e rfl
      have hsame := r.error_of_ownedBy howned []
      have hanswers : r.Answers [.here (.raised e)] (.error e) (.error (r.error [] e)) :=
        .error (.here e)
      rw [hsame] at hanswers
      refine ⟨.error e, ?_, hanswers⟩
      have hmark : r.mark (.here (.raised e)) = .here (.raised e) := by
        rw [Renaming.mark, Mark.here, Renaming.occurrence, hsame]
      rw [List.map_cons, hmark]
      exact .error
  | .operand hfirst hnext, hfits, r, hnames => by
      obtain ⟨other, hfirst', hvalue⟩ := hfirst.renamed (r.under position) hnames
      cases hvalue with
      | ok value =>
          obtain ⟨last, hnext', hanswers⟩ := hnext.renamed (hfits _) r hnames
          have hquiet := (hfirst.quiet rfl).within position
          refine ⟨last, ?_, hanswers.append hquiet⟩
          rw [List.map_append, Renaming.map_mark_within]
          exact .operand hfirst' hnext'
  | .operandError hfirst, _, r, hnames => by
      obtain ⟨other, hfirst', hanswers⟩ := hfirst.renamed (r.under position) hnames
      refine ⟨other, ?_, hanswers.within⟩
      rw [Renaming.map_mark_within]
      cases hanswers with
      | error hfails => exact .operandError hfirst'
  | .skip hnext, hfits, r, hnames => by
      obtain ⟨other, hnext', hanswers⟩ := hnext.renamed hfits r hnames
      exact ⟨other, .skip hnext', hanswers⟩
  | .lookup hnext, hfits, r, hnames => by
      obtain ⟨other, hnext', hanswers⟩ := hnext.renamed (Script.fits_lookup.1 hfits _) r hnames
      exact ⟨other, .lookup hnext', hanswers.append (.cons rfl .nil)⟩
  | .log hnext, hfits, r, hnames => by
      obtain ⟨other, hnext', hanswers⟩ := hnext.renamed (Script.fits_log.1 hfits) r hnames
      exact ⟨other, .log hnext', hanswers.append (.cons rfl .nil)⟩

end

/-! ## Checking a renamed rule -/

namespace Rule

variable {operators : Registry σ} {options : Options} {depth : Nat} {rule : Rule} {r : Renaming}

theorem Rejects.check_eq_error {place : List Nat} {e : RuleError}
    (h : Rejects operators options depth rule place e) :
    rule.check operators options depth = .error e := by
  induction h with
  | here hrule hnode =>
      rw [check_of_operation? hrule, hnode]
      rfl
  | @operand depth rule operand name before after place e hrule hnode hbefore hoperand ih =>
      rw [check_of_operation? hrule, hnode]
      change checkAll operators options (depth + 1) (before ++ operand :: after) = .error e
      clear hrule hnode
      induction before with
      | nil =>
          rw [List.nil_append, checkAll, ih]
          rfl
      | cons first rest ihRest =>
          obtain ⟨hfirst, hrest⟩ := List.forall_mem_cons.1 hbefore
          rw [List.cons_append, checkAll, hfirst]
          exact ihRest hrest

theorem mem_renamedFrom {position : Nat} {operands : List Rule} {other : Rule}
    (h : other ∈ renamedFrom position operands r) :
    ∃ operand ∈ operands, ∃ index, other = operand.renamed (r.under index) := by
  induction operands generalizing position with
  | nil => cases h
  | cons operand rest ih =>
      rw [renamedFrom, List.mem_cons] at h
      rcases h with rfl | h
      · exact ⟨operand, List.mem_cons_self, position, rfl⟩
      · obtain ⟨found, hfound, index, rfl⟩ := ih h
        exact ⟨found, List.mem_cons_of_mem operand hfound, index, rfl⟩

/-- A rule that passes the check does so under its new names. -/
theorem check_renamed_eq_ok (hnames : operators.Synonyms r.source r.target)
    (h : rule.check operators options depth = .ok ()) :
    (rule.renamed r).check operators options depth = .ok () := by
  induction rule using Rule.induct generalizing r depth with
  | literal value => exact h
  | operation rule name operands hrule ih =>
      rw [check_of_operation? hrule] at h
      rw [check_of_operation? (operation?_renamed hrule r), length_renamedFrom,
        Registry.checkNode_nameAt hnames]
      cases hnode : operators.checkNode options depth name operands.length with
      | error e =>
          rw [hnode] at h
          cases h
      | ok mode =>
          rw [hnode] at h
          cases mode with
          | raw => rfl
          | eager =>
              refine checkAll_eq_ok_iff.2 fun other hother => ?_
              obtain ⟨operand, hoperand, index, rfl⟩ := mem_renamedFrom hother
              exact ih operand hoperand (r := r.under index) hnames
                (checkAll_eq_ok_iff.1 h operand hoperand)

/-- A rule that is rejected at a place is rejected there under its new names. -/
theorem Rejects.renamed {place : List Nat} {e : RuleError}
    (h : Rejects operators options depth rule place e)
    (hnames : operators.Synonyms r.source r.target) :
    Rejects operators options depth (rule.renamed r) place (r.error place e) := by
  induction h generalizing r with
  | here hrule hnode =>
      apply Rejects.here (operation?_renamed hrule r)
      rw [Registry.checkNode_nameAt hnames, length_renamedFrom, hnode]
      rfl
  | @operand depth rule operand name before after place e hrule hnode hbefore hoperand ih =>
      have hoperation := operation?_renamed hrule r
      rw [renamedFrom_append, renamedFrom, Nat.zero_add] at hoperation
      have hlength : (renamedFrom 0 before r ++ operand.renamed (r.under before.length) ::
          renamedFrom (before.length + 1) after r).length =
            (before ++ operand :: after).length := by
        simp [length_renamedFrom]
      have herror : (r.under before.length).error place e = r.error (before.length :: place) e := by
        cases e <;> rfl
      have hrejects : Rejects operators options depth (rule.renamed r)
          ((renamedFrom 0 before r).length :: place) (r.error (before.length :: place) e) := by
        refine .operand hoperation ?_ (fun other hother => ?_) ?_
        · rw [hlength, Registry.checkNode_nameAt hnames, hnode]
          rfl
        · obtain ⟨found, hfound, index, rfl⟩ := mem_renamedFrom hother
          exact check_renamed_eq_ok (r := r.under index) hnames (hbefore found hfound)
        · rw [← herror]
          exact ih hnames
      rwa [length_renamedFrom] at hrejects

end Rule

/-! ## Names in errors and events -/

theorem Rule.nameAt?_of_at? {rule node : Rule} {place : List Nat} {name : String}
    {operands : List Rule} (hat : rule.at? place = some node)
    (hnode : node.operation? = some (name, operands)) : rule.nameAt? place = some name := by
  simp [nameAt?, hat, hnode]

/-- An operator to blame for an error of its own is the one that the operation at the place
names. -/
theorem Blame.exists_own {depth : Nat} {rule : Rule} {place : List Nat} {e : RuleError}
    (h : Blame context depth rule place e) (he : ¬e.OfDispatch) :
    ∃ name b, rule.nameAt? place = some name ∧
      context.operators.get? name = some (.builtin b) ∧ e.OwnedBy b.name := by
  induction h with
  | refused hrule hrefused => exact (he (Registry.ofDispatch_of_admission hrefused)).elim
  | own hrule hadmitted howned =>
      exact ⟨_, _, Rule.nameAt?_of_at? (Rule.at?_nil _) hrule,
        (Registry.admission_eq_ok_iff.1 hadmitted).1, howned⟩
  | operand hrule hadmitted hoperand hblame ih =>
      obtain ⟨name, b, hname, hget, howned⟩ := ih he
      refine ⟨name, b, ?_, hget, howned⟩
      rw [Rule.nameAt?, Rule.at?_cons hrule hoperand]
      exact hname

/-- How the errors among the marks of a rule name operators: by the name of the operation, as it is
written, where they are about the number of its operands, and by the operator's own name where they
are about what an operand comes to. -/
structure Rule.NamesErrors (operators : Registry σ) (rule : Rule) (marks : List Mark) : Prop where
  written : ∀ place name expected, ⟨place, .raised (.operandCount name expected)⟩ ∈ marks →
    rule.nameAt? place = some name
  own : ∀ place e, ⟨place, .raised e⟩ ∈ marks → ¬e.OfDispatch →
    ∃ name b, rule.nameAt? place = some name ∧ operators.get? name = some (.builtin b) ∧
      e.OwnedBy b.name

theorem Evaluates.namesErrors {depth : Nat} {rule : Rule} {answer : Except RuleError Value}
    {marks : List Mark} (h : Evaluates context depth rule answer marks) :
    rule.NamesErrors context.operators marks := by
  have hblame : ∀ place e, ⟨place, .raised e⟩ ∈ marks → Blame context depth rule place e := by
    intro place e hraised
    cases answer with
    | ok value => cases h.quiet rfl _ hraised
    | error other =>
        obtain ⟨found, hblame, hfails⟩ := h.blame rfl
        have herrors := Mark.mem_errors.2 hraised
        rw [hfails.errors_eq, List.mem_singleton] at herrors
        cases herrors
        exact hblame
  refine ⟨fun place name expected hraised => ?_, fun place e hraised he => ?_⟩
  · obtain ⟨node, found, operands, hat, hnode, hrefused⟩ :=
      (hblame place _ hraised).refusesAt trivial
    rcases Registry.admission_eq_error_iff.1 hrefused with ⟨-, hunknown⟩ |
      ⟨operator, other, -, -, hcount⟩ | ⟨operator, limit, -, -, -, -, hdepth⟩
    · cases hunknown
    · cases hcount
      exact Rule.nameAt?_of_at? hat hnode
    · cases hdepth
  · exact (hblame place e hraised).exists_own he

/-- The events are the same, or they are those of entering an operation under the two names. -/
def Renaming.Alike (r : Renaming) (event other : Event) : Prop :=
  event = other ∨ ∃ count depth, event = .dispatch r.source count depth ∧
    other = .dispatch r.target count depth

theorem Renaming.alike_dispatch (r : Renaming) (place : List Nat) (name : String)
    (count depth : Nat) :
    r.Alike (.dispatch name count depth) (.dispatch (r.nameAt place name) count depth) := by
  unfold nameAt
  split
  · rename_i hchosen
    rw [hchosen.1]
    exact .inr ⟨count, depth, rfl, rfl⟩
  · exact .inl rfl

theorem Renaming.alike_events (r : Renaming) (marks : List Mark) :
    List.Forall₂ r.Alike (Mark.events marks) (Mark.events (marks.map r.mark)) := by
  induction marks with
  | nil => exact .nil
  | cons mark rest ih =>
      obtain ⟨place, occurrence⟩ := mark
      cases occurrence with
      | event event =>
          cases event with
          | dispatch name count depth => exact .cons (r.alike_dispatch place name count depth) ih
          | unknownOperator name => exact .cons (.inl rfl) ih
          | depthLimit limit => exact .cons (.inl rfl) ih
          | log depth text => exact .cons (.inl rfl) ih
      | _ => exact ih

namespace Engine

/-- A rule runs and is checked alike under names of the same operator.  Where all operators are
standard ones and two names are synonyms, one may be put in place of the other at any of the
operations of a rule: every mark of the run, on whatever data and under whatever limit, is the mark
that was there before with the name of its operation as it is written now, so the events differ in
names of operations that are entered and in nothing else; the answer is the same value or the same
error, which names the operator as it is written if it is about the number of operands; and the
check passes the rule or rejects it at the same operation.  Errors about what an operand comes to
keep the operator's own name. -/
theorem apply_renamed {operators : Registry σ} (honly : operators.OnlyBuiltins) {r : Renaming}
    (hnames : operators.Synonyms r.source r.target) (options : Options) (budget : Nat)
    (rule data : Value) (state : σ) :
    (Rule.ofValue (rule.renamed r)).nodes = (Rule.ofValue rule).nodes.map r.node ∧
    (∃ report renamed, apply ⟨operators, options⟩ budget rule data state = some report ∧
      apply ⟨operators, options⟩ budget (rule.renamed r) data state = some renamed ∧
      renamed.marks = report.marks.map r.mark ∧
      List.Forall₂ r.Alike report.events renamed.events ∧
      ((∃ value, report.answer = .ok value ∧ renamed.answer = .ok value) ∨
        ∃ place e, Mark.errors report.marks = [(place, e)] ∧ report.answer = .error e ∧
          renamed.answer = .error (r.error place e)) ∧
      (Rule.ofValue rule).NamesErrors operators report.marks ∧
      (Rule.ofValue (rule.renamed r)).NamesErrors operators renamed.marks) ∧
    ((verdict ⟨operators, options⟩ rule = .ok () ∧
        verdict ⟨operators, options⟩ (rule.renamed r) = .ok ()) ∨
      ∃ place e, (Rule.ofValue rule).Rejects operators options 0 place e ∧
        verdict ⟨operators, options⟩ rule = .error e ∧
        verdict ⟨operators, options⟩ (rule.renamed r) = .error (r.error place e)) := by
  refine ⟨?_, ?_, ?_⟩
  · rw [Rule.ofValue_renamed, Rule.nodes_renamed]
  · obtain ⟨answer, marks, hevaluates, happly⟩ :=
      exists_apply_eq ⟨operators, options⟩ honly rule data
    obtain ⟨other, hrenamed, hanswers⟩ := hevaluates.renamed r hnames
    rw [← Rule.ofValue_renamed] at hrenamed
    refine ⟨_, _, happly budget state, hrenamed.run_eq (.ofBudget budget) state, rfl,
      r.alike_events marks, ?_, hevaluates.namesErrors, hrenamed.namesErrors⟩
    cases hanswers with
    | ok value => exact .inl ⟨value, rfl, rfl⟩
    | @error place e hfails => exact .inr ⟨place, e, hfails.errors_eq, rfl, rfl⟩
  · rw [verdict_eq, verdict_eq, Rule.ofValue_renamed]
    cases hcheck : (Rule.ofValue rule).check operators options 0 with
    | ok _ => exact .inl ⟨rfl, Rule.check_renamed_eq_ok hnames hcheck⟩
    | error e =>
        obtain ⟨place, hrejects⟩ := Rule.exists_rejects_of_check_eq_error hcheck
        exact .inr ⟨place, e, hrejects, rfl, (hrejects.renamed hnames).check_eq_error⟩

/-- Three negations within one another, of which the innermost has two operands. -/
def crowdedNegation : Value :=
  .object [("!", .object [("!", .object [("!", .array [.bool true, .bool false])])])]

/-- A second name for all negations but the outermost. -/
def innerNegations : Renaming := ⟨"!", "not", fun place => place ≠ []⟩

/-- The error and the second event name the negations as they are written. -/
theorem apply_renamed_crowdedNegation :
    (Registry.standard.insert "not" (.builtin (.function .negation)) : Registry Unit).Synonyms
      innerNegations.source innerNegations.target ∧
    ∃ report renamed,
      apply ⟨Registry.standard.insert "not" (.builtin (.function .negation)), .standard⟩ 0
        crowdedNegation .null () = some report ∧
      apply ⟨Registry.standard.insert "not" (.builtin (.function .negation)), .standard⟩ 0
        (crowdedNegation.renamed innerNegations) .null () = some renamed ∧
      report.answer = .error (.operandCount "!" (.exactly 1)) ∧
      renamed.answer = .error (.operandCount "not" (.exactly 1)) ∧
      renamed.events = [.dispatch "!" 1 1, .dispatch "not" 1 2] := by
  have honly : (Registry.standard.insert "not" (.builtin (.function .negation)) :
      Registry Unit).OnlyBuiltins :=
    Registry.onlyBuiltins_standard.insert "not" (.function .negation)
  have hnames : (Registry.standard.insert "not" (.builtin (.function .negation)) :
      Registry Unit).Synonyms innerNegations.source innerNegations.target := by
    refine ⟨.builtin (.function .negation), ?_, ?_⟩
    · rw [Registry.get?_insert]
      exact Registry.get?_standard_name (b := .function .negation) (by decide)
    · rw [Registry.get?_insert]
      rfl
  obtain ⟨-, ⟨report, renamed, happly, hrenamed, hmarks, -, hanswers, -, -⟩, -⟩ :=
    apply_renamed honly hnames .standard 0 crowdedNegation .null ()
  have hreport : (apply (σ := Unit)
      ⟨Registry.standard.insert "not" (.builtin (.function .negation)), .standard⟩ 0
        crowdedNegation .null ()).map (fun report => (report.answer, report.marks)) =
      some (.error (.operandCount "!" (.exactly 1)), [.here (.depth 1),
        .here (.event (.dispatch "!" 1 1)), ⟨[0], .depth 2⟩, ⟨[0], .event (.dispatch "!" 1 2)⟩,
        ⟨[0, 0], .raised (.operandCount "!" (.exactly 1))⟩, ⟨[0], .depth 1⟩, .here (.depth 0)]) :=
    rfl
  rw [happly, Option.map_some, Option.some.injEq, Prod.mk.injEq] at hreport
  obtain ⟨hanswer, hplaces⟩ := hreport
  refine ⟨hnames, report, renamed, happly, hrenamed, hanswer, ?_, ?_⟩
  · rcases hanswers with ⟨value, hvalue, -⟩ | ⟨place, e, herrors, herror, hother⟩
    · rw [hanswer] at hvalue
      cases hvalue
    · rw [hplaces] at herrors
      cases herrors
      exact hother
  · rw [Report.events, hmarks, hplaces]
    rfl

end Engine

end JsonRules
