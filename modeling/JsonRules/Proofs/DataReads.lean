import JsonRules.Proofs.Derivation
import JsonRules.Proofs.Nodes

/-!
What a rule sees of the data.

The data comes into a run of standard operators through the paths that it looks up, and these are
among its marks.  Whether a path is looked up may depend on what was found at the paths before it,
so the paths are those of a run, not of a rule.  A derivation can be carried over to all data that
has the same at the paths of its own marks (`Evaluates.onData`), and a rule without operators that
look anything up has one derivation for all data (`Evaluates.lookups_eq_nil`).
-/

namespace JsonRules

variable {σ : Type}

namespace Mark

def lookups (marks : List Mark) : List String :=
  marks.filterMap fun mark => mark.occurrence.lookup?

theorem lookups_append (marks others : List Mark) :
    lookups (marks ++ others) = lookups marks ++ lookups others :=
  List.filterMap_append

theorem lookups_within (position : Nat) (marks : List Mark) :
    lookups (marks.map (within position)) = lookups marks := by
  rw [lookups, List.filterMap_map]
  rfl

theorem lookups_lookup (path : String) (marks : List Mark) :
    lookups (.here (.lookup path) :: marks) = path :: lookups marks := rfl

theorem lookups_around (name : String) (count depth : Nat) (marks : List Mark) :
    lookups (around name count depth marks) = lookups marks := by
  have hinner : lookups (marks ++ [.here (.depth depth)]) = lookups marks := by
    rw [lookups_append]
    exact List.append_nil _
  rw [← hinner]
  rfl

theorem lookups_refusal (e : RuleError) : lookups e.refusal = [] := by
  cases e <;> rfl

end Mark

/-- Other data has the same at each of these paths. -/
def Value.SameAt (data other : Value) (paths : List String) : Prop :=
  ∀ path ∈ paths, Path.get? other path = Path.get? data path

theorem Value.SameAt.of_append {data other : Value} {paths more : List String}
    (h : data.SameAt other (paths ++ more)) :
    data.SameAt other paths ∧ data.SameAt other more :=
  List.forall_mem_append.1 h

def Context.onData (context : Context σ) (data : Value) : Context σ :=
  { context with data := data }

variable {context : Context σ}

mutual

/-- A rule evaluates in the same way on data that has the same at all paths looked up. -/
theorem Evaluates.onData {other : Value} {depth : Nat} {rule : Rule}
    {answer : Except RuleError Value} {marks : List Mark} :
    Evaluates context depth rule answer marks →
      context.data.SameAt other (Mark.lookups marks) →
        Evaluates (context.onData other) depth rule answer marks
  | .literal, _ => .literal
  | .refused hrule hrefused, _ => .refused hrule hrefused
  | .entered hrule hadmitted hfollows, hsame => by
      rw [Mark.lookups_around] at hsame
      exact .entered hrule hadmitted (hfollows.onData hsame)

theorem Follows.onData {other : Value} {depth position : Nat} {operands : List Rule}
    {script : Script} {answer : Except RuleError Value} {marks : List Mark} :
    Follows context depth position operands script answer marks →
      context.data.SameAt other (Mark.lookups marks) →
        Follows (context.onData other) depth position operands script answer marks
  | .ok, _ => .ok
  | .error, _ => .error
  | .operand hfirst hnext, hsame => by
      rw [Mark.lookups_append, Mark.lookups_within] at hsame
      obtain ⟨hmarks, hothers⟩ := hsame.of_append
      exact .operand (hfirst.onData hmarks) (hnext.onData hothers)
  | .operandError hfirst, hsame => by
      rw [Mark.lookups_within] at hsame
      exact .operandError (hfirst.onData hsame)
  | .skip hnext, hsame => .skip (hnext.onData hsame)
  | .lookup hnext, hsame => by
      rw [Mark.lookups_lookup] at hsame
      obtain ⟨hpath, hothers⟩ := List.forall_mem_cons.1 hsame
      have hcarried := hnext.onData hothers
      rw [← hpath] at hcarried
      exact .lookup hcarried
  | .log hnext, hsame => .log (hnext.onData hsame)

end

namespace Script

/-- The script looks nothing up, whatever the values of the operands. -/
def Blind : Script → Prop
  | .finish _ => True
  | .stuck => True
  | .operand next => ∀ value, (next value).Blind
  | .skip next => next.Blind
  | .lookup _ _ => False
  | .log _ next => next.Blind

theorem blind_ending : ending.Blind := fun _ => trivial

theorem blind_ofResult (result : Result Value) : (ofResult result).Blind := by
  unfold ofResult
  split <;> trivial

theorem blind_gather {next : List Value → Script} (h : ∀ values, (next values).Blind)
    (count : Nat) : (gather count next).Blind := by
  induction count generalizing next with
  | zero => exact h []
  | succ count ih => exact fun value => ih fun values => h (value :: values)

theorem blind_firstWhere (passes : Value → Bool) (count : Nat) :
    (firstWhere passes count).Blind := by
  match count with
  | 0 => trivial
  | 1 => exact blind_ending
  | count + 2 =>
      intro value
      dsimp only
      split
      · trivial
      · exact blind_firstWhere passes (count + 1)

theorem blind_choose (count : Nat) : (choose count).Blind := by
  match count with
  | 0 => trivial
  | 1 => exact blind_ending
  | count + 2 =>
      intro value
      dsimp only
      split
      · exact blind_ending
      · exact blind_choose count

end Script

/-- Whether a standard operator looks paths up. -/
def Builtin.readsData : Builtin → Bool
  | .control .reference => true
  | .missing => true
  | .missingSome => true
  | _ => false

theorem Builtin.script_blind {b : Builtin} (h : b.readsData = false) (count : Nat) :
    (b.script count).Blind := by
  cases b with
  | control c =>
      cases c with
      | reference => cases h
      | conjunction => exact Script.blind_firstWhere _ count
      | disjunction => exact Script.blind_firstWhere _ count
      | choice => exact Script.blind_choose count
  | function f => exact Script.blind_gather (fun values => Script.blind_ofResult _) count
  | missing => cases h
  | missingSome => cases h
  | log =>
      apply Script.blind_gather
      intro values
      cases values <;> trivial

namespace Registry

/-- None of these names stands for an operator that looks paths up. -/
def BlindOn (operators : Registry σ) (names : List String) : Prop :=
  ∀ name ∈ names, ∀ b, operators.get? name = some (.builtin b) → b.readsData = false

/-- The names of the standard operators that look paths up. -/
def readingNames : List String := ["var", "missing", "missing_some"]

theorem blindOn_standard {names : List String} (h : ∀ name ∈ readingNames, name ∉ names) :
    (standard : Registry σ).BlindOn names := by
  have hreads : ∀ b ∈ Builtin.standard, b.readsData = true → ∀ name ∈ b.names,
      name ∈ readingNames := by decide +kernel
  intro name hname b hget
  obtain ⟨other, hother, heq, hnames⟩ := exists_mem_names_of_get? hget
  cases heq
  apply Bool.eq_false_iff.2
  intro hb
  exact h name (hreads b hother hb name hnames) hname

end Registry

mutual

/-- A rule whose names stand for no operator that looks paths up looks none up. -/
theorem Evaluates.lookups_eq_nil {depth : Nat} {rule : Rule} {answer : Except RuleError Value}
    {marks : List Mark} :
    Evaluates context depth rule answer marks → context.operators.BlindOn rule.names →
      Mark.lookups marks = []
  | .literal, _ => rfl
  | .refused (e := e) _ _, _ => Mark.lookups_refusal e
  | .entered hrule hadmitted hfollows, hblind => by
      have hget := (Registry.admission_eq_ok_iff.1 hadmitted).1
      have hb := hblind _ (Rule.mem_names_of_operation? hrule) _ hget
      rw [Mark.lookups_around]
      apply hfollows.lookups_eq_nil (Builtin.script_blind hb _)
      intro operand hoperand name hname
      exact hblind name (Rule.mem_names_of_operand hrule hoperand hname)

theorem Follows.lookups_eq_nil {depth position : Nat} {operands : List Rule} {script : Script}
    {answer : Except RuleError Value} {marks : List Mark} :
    Follows context depth position operands script answer marks → script.Blind →
      (∀ operand ∈ operands, context.operators.BlindOn operand.names) →
        Mark.lookups marks = []
  | .ok, _, _ => rfl
  | .error, _, _ => rfl
  | .operand hfirst hnext, hblind, hoperands => by
      obtain ⟨hoperand, hrest⟩ := List.forall_mem_cons.1 hoperands
      rw [Mark.lookups_append, Mark.lookups_within, hfirst.lookups_eq_nil hoperand,
        hnext.lookups_eq_nil (hblind _) hrest, List.append_nil]
  | .operandError hfirst, _, hoperands => by
      rw [Mark.lookups_within]
      exact hfirst.lookups_eq_nil (hoperands _ List.mem_cons_self)
  | .skip hnext, hblind, hoperands =>
      hnext.lookups_eq_nil hblind (List.forall_mem_cons.1 hoperands).2
  | .lookup _, hblind, _ => hblind.elim
  | .log hnext, hblind, hoperands => hnext.lookups_eq_nil hblind hoperands

end

namespace Engine

/-- A run of standard operators, which comes to an answer on all data, sees of the data what it has
at the paths that the run looks up: on other data that has the same there, the run is the same.  A
rule that has none of the operations that look paths up behaves the same on all data. -/
theorem apply_eq_of_sameAt_lookups (options : Options) (budget : Nat) (rule data : Value)
    (state : σ) :
    ∃ report, apply ⟨.standard, options⟩ budget rule data state = some report ∧
      (∀ other, data.SameAt other report.lookups →
        apply ⟨.standard, options⟩ budget rule other state = some report) ∧
      ((∀ name ∈ Registry.readingNames, name ∉ (Rule.ofValue rule).names) →
        report.lookups = [] ∧
          ∀ other, apply ⟨.standard, options⟩ budget rule other state = some report) := by
  obtain ⟨answer, marks, hevaluates, happly⟩ := Engine.exists_apply_eq
    (⟨.standard, options⟩ : Engine σ) Registry.onlyBuiltins_standard rule data
  have hsame : ∀ other, data.SameAt other (Mark.lookups marks) →
      apply ⟨.standard, options⟩ budget rule other state = some ⟨answer, 0, state, marks⟩ :=
    fun other hother => (hevaluates.onData hother).run_eq (.ofBudget budget) state
  refine ⟨_, happly budget state, hsame, fun hunused => ?_⟩
  have hnone : Mark.lookups marks = [] :=
    hevaluates.lookups_eq_nil (Registry.blindOn_standard hunused)
  refine ⟨hnone, fun other => hsame other ?_⟩
  rw [hnone]
  exact List.forall_mem_nil _

/-- Looks a path up that it has found in the data itself. -/
def pointerRule : Value :=
  .object [("var", .array [.object [("var", .string "key")], .string "none"])]

def pointerData : Value := .object [("key", .string "name"), ("name", .string "Ada")]

/-- The run looks two paths up, so a third field makes no difference. -/
theorem apply_pointerRule :
    ∃ report, apply (σ := Unit) ⟨.standard, .standard⟩ 0 pointerRule pointerData () = some report ∧
      report.answer = .ok (.string "Ada") ∧ report.lookups = ["key", "name"] ∧
      apply (σ := Unit) ⟨.standard, .standard⟩ 0 pointerRule
        (.object [("age", .bool true), ("key", .string "name"), ("name", .string "Ada")]) () =
          some report := by
  obtain ⟨report, happly, hsame, -⟩ := apply_eq_of_sameAt_lookups (σ := Unit) .standard 0
    pointerRule pointerData ()
  have hrun : (apply (σ := Unit) ⟨.standard, .standard⟩ 0 pointerRule pointerData ()).map
      (fun report => (report.answer, report.lookups)) =
        some (.ok (.string "Ada"), ["key", "name"]) := by rfl
  rw [happly] at hrun
  obtain ⟨hanswer, hpaths⟩ := Prod.mk.inj (Option.some.inj hrun)
  refine ⟨report, happly, hanswer, hpaths, hsame _ ?_⟩
  rw [hpaths]
  simp only [Value.SameAt, List.forall_mem_cons]
  exact ⟨rfl, rfl, List.forall_mem_nil _⟩

end Engine

end JsonRules
