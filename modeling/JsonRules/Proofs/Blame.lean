import JsonRules.Proofs.Derivation

/-!
Where errors come from.

An error that ends the run of a rule has an operation to blame: one that was refused, or one whose
standard operator raised an error of its own.  `Blame` follows the error from the rule down to that
operation, and `Evaluates.blame` says that the marks agree: the error comes up there, it is the
first, and after it the run only goes up.
-/

namespace JsonRules

variable {σ : Type}

/-- The errors that come up among marks, each with the place of its operation. -/
def Mark.errors (marks : List Mark) : List (List Nat × RuleError) :=
  marks.filterMap fun mark => mark.occurrence.raised?.map fun e => (mark.place, e)

theorem Mark.mem_errors {place : List Nat} {e : RuleError} {marks : List Mark} :
    (place, e) ∈ errors marks ↔ ⟨place, .raised e⟩ ∈ marks := by
  simp only [errors, List.mem_filterMap, Option.map_eq_some_iff, Prod.mk.injEq]
  constructor
  · rintro ⟨⟨found, occurrence⟩, hmark, other, hraised, rfl, rfl⟩
    cases occurrence with
    | raised e =>
        cases hraised
        exact hmark
    | _ => cases hraised
  · intro hmark
    exact ⟨_, hmark, e, rfl, rfl, rfl⟩

/-- No error comes up among the marks. -/
def Quiet (marks : List Mark) : Prop := ∀ mark ∈ marks, mark.occurrence.raised? = none

/-- The marks are those of going from level to level. -/
def OnlyDepths (marks : List Mark) : Prop := ∀ mark ∈ marks, ∃ depth, mark.occurrence = .depth depth

/-- An error comes up at a place, no other before it, and then the marks are those of going up. -/
def FailsAt (place : List Nat) (e : RuleError) (marks : List Mark) : Prop :=
  ∃ before after, marks = before ++ ⟨place, .raised e⟩ :: after ∧ Quiet before ∧ OnlyDepths after

namespace Quiet

theorem nil : Quiet [] := List.forall_mem_nil _

theorem cons {mark : Mark} (hmark : mark.occurrence.raised? = none) {marks : List Mark}
    (h : Quiet marks) : Quiet (mark :: marks) :=
  List.forall_mem_cons.2 ⟨hmark, h⟩

theorem append {marks others : List Mark} (h : Quiet marks) (hothers : Quiet others) :
    Quiet (marks ++ others) :=
  List.forall_mem_append.2 ⟨h, hothers⟩

theorem within {marks : List Mark} (h : Quiet marks) (position : Nat) :
    Quiet (marks.map (Mark.within position)) :=
  List.forall_mem_map.2 h

theorem around {marks : List Mark} (h : Quiet marks) (name : String) (count depth : Nat) :
    Quiet (Mark.around name count depth marks) :=
  cons rfl (cons rfl (h.append (cons rfl nil)))

theorem errors_eq_nil {marks : List Mark} (h : Quiet marks) : Mark.errors marks = [] := by
  refine List.filterMap_eq_nil_iff.2 fun mark hmark => ?_
  rw [h mark hmark]
  rfl

end Quiet

namespace OnlyDepths

theorem nil : OnlyDepths [] := List.forall_mem_nil _

theorem within {marks : List Mark} (h : OnlyDepths marks) (position : Nat) :
    OnlyDepths (marks.map (Mark.within position)) :=
  List.forall_mem_map.2 h

theorem concat {marks : List Mark} (h : OnlyDepths marks) (depth : Nat) :
    OnlyDepths (marks ++ [.here (.depth depth)]) :=
  List.forall_mem_append.2 ⟨h, List.forall_mem_singleton.2 ⟨depth, rfl⟩⟩

theorem quiet {marks : List Mark} (h : OnlyDepths marks) : Quiet marks := by
  intro mark hmark
  obtain ⟨depth, hdepth⟩ := h mark hmark
  rw [hdepth]
  rfl

end OnlyDepths

namespace FailsAt

variable {place : List Nat} {e : RuleError} {marks : List Mark}

theorem here (e : RuleError) : FailsAt [] e [.here (.raised e)] :=
  ⟨[], [], rfl, Quiet.nil, OnlyDepths.nil⟩

theorem refusal (e : RuleError) : FailsAt [] e e.refusal := by
  refine ⟨e.events.map fun event => .here (.event event), [], rfl, ?_, OnlyDepths.nil⟩
  exact List.forall_mem_map.2 fun event _ => rfl

theorem append {others : List Mark} (hothers : Quiet others) (h : FailsAt place e marks) :
    FailsAt place e (others ++ marks) := by
  obtain ⟨before, after, rfl, hbefore, hafter⟩ := h
  exact ⟨others ++ before, after, by simp, hothers.append hbefore, hafter⟩

theorem within (h : FailsAt place e marks) (position : Nat) :
    FailsAt (position :: place) e (marks.map (Mark.within position)) := by
  obtain ⟨before, after, rfl, hbefore, hafter⟩ := h
  exact ⟨before.map (Mark.within position), after.map (Mark.within position),
    by simp [Mark.within], hbefore.within position, hafter.within position⟩

theorem around (h : FailsAt place e marks) (name : String) (count depth : Nat) :
    FailsAt place e (Mark.around name count depth marks) := by
  obtain ⟨before, after, rfl, hbefore, hafter⟩ := h
  refine ⟨.here (.depth (depth + 1)) :: .here (.event (.dispatch name count (depth + 1))) ::
    before, after ++ [.here (.depth depth)], by simp [Mark.around], ?_, hafter.concat depth⟩
  exact .cons rfl (.cons rfl hbefore)

/-- No other error comes up, and this one nowhere else. -/
theorem errors_eq (h : FailsAt place e marks) : Mark.errors marks = [(place, e)] := by
  obtain ⟨before, after, rfl, hbefore, hafter⟩ := h
  have hbefore' := hbefore.errors_eq_nil
  have hafter' := hafter.quiet.errors_eq_nil
  simp only [Mark.errors] at hbefore' hafter' ⊢
  rw [List.filterMap_append, hbefore', List.filterMap_cons, hafter']
  rfl

end FailsAt

variable {context : Context σ}

mutual

/-- No error comes up where a rule evaluates to a value. -/
theorem Evaluates.quiet {depth : Nat} {rule : Rule} {answer : Except RuleError Value}
    {marks : List Mark} {value : Value} :
    Evaluates context depth rule answer marks → answer = .ok value → Quiet marks
  | .literal, _ => Quiet.nil
  | .refused _ _, hok => by cases hok
  | .entered _ _ hfollows, hok => (hfollows.quiet hok).around _ _ _

/-- No error comes up where a script ends with a value. -/
theorem Follows.quiet {depth position : Nat} {operands : List Rule} {script : Script}
    {answer : Except RuleError Value} {marks : List Mark} {value : Value} :
    Follows context depth position operands script answer marks → answer = .ok value →
      Quiet marks
  | .ok, _ => Quiet.nil
  | .error, hok => by cases hok
  | .operand hfirst hnext, hok => ((hfirst.quiet rfl).within _).append (hnext.quiet hok)
  | .operandError _, hok => by cases hok
  | .skip hnext, hok => hnext.quiet hok
  | .lookup hnext, hok => .cons rfl (hnext.quiet hok)
  | .log hnext, hok => .cons rfl (hnext.quiet hok)

end

/-- The operation at a place within a rule is to blame for an error. -/
inductive Blame (context : Context σ) : Nat → Rule → List Nat → RuleError → Prop
  | refused {depth : Nat} {rule : Rule} {name : String} {operands : List Rule} {e : RuleError}
      (hrule : rule.operation? = some (name, operands))
      (hrefused : context.operators.admission context.options depth name operands.length =
        .error e) :
      Blame context depth rule [] e
  | own {depth : Nat} {rule : Rule} {name : String} {operands : List Rule} {b : Builtin}
      {e : RuleError} (hrule : rule.operation? = some (name, operands))
      (hadmitted : context.operators.admission context.options depth name operands.length =
        .ok (.builtin b))
      (howned : e.OwnedBy b.name) :
      Blame context depth rule [] e
  | operand {depth position : Nat} {rule operand : Rule} {name : String}
      {operands : List Rule} {b : Builtin} {place : List Nat} {e : RuleError}
      (hrule : rule.operation? = some (name, operands))
      (hadmitted : context.operators.admission context.options depth name operands.length =
        .ok (.builtin b))
      (hoperand : operands[position]? = some operand)
      (hblame : Blame context (depth + 1) operand place e) :
      Blame context depth rule (position :: place) e

/-- An error in which an operator of a name ends is one of its own, or an operand from a position on
is to blame for it. -/
def Traced (context : Context σ) (operator : String) (depth position : Nat)
    (operands : List Rule) (e : RuleError) (marks : List Mark) : Prop :=
  (e.OwnedBy operator ∧ FailsAt [] e marks) ∨
    ∃ index operand place, operands[index]? = some operand ∧
      Blame context depth operand place e ∧ FailsAt ((position + index) :: place) e marks

namespace Traced

variable {operator : String} {depth position : Nat} {operands : List Rule} {e : RuleError}
  {marks : List Mark}

theorem append {others : List Mark} (hothers : Quiet others)
    (h : Traced context operator depth position operands e marks) :
    Traced context operator depth position operands e (others ++ marks) := by
  rcases h with ⟨howned, hfails⟩ | ⟨index, operand, place, hoperand, hblame, hfails⟩
  · exact .inl ⟨howned, hfails.append hothers⟩
  · exact .inr ⟨index, operand, place, hoperand, hblame, hfails.append hothers⟩

theorem cons {mark : Mark} (hmark : mark.occurrence.raised? = none)
    (h : Traced context operator depth position operands e marks) :
    Traced context operator depth position operands e (mark :: marks) :=
  h.append (.cons hmark .nil)

theorem later (h : Traced context operator depth (position + 1) operands e marks) (first : Rule) :
    Traced context operator depth position (first :: operands) e marks := by
  rcases h with ⟨howned, hfails⟩ | ⟨index, operand, place, hoperand, hblame, hfails⟩
  · exact .inl ⟨howned, hfails⟩
  · rw [Nat.add_right_comm] at hfails
    exact .inr ⟨index + 1, operand, place, hoperand, hblame, hfails⟩

end Traced

mutual

/-- An error that a rule evaluates to has an operation to blame, at which it comes up. -/
theorem Evaluates.blame {depth : Nat} {rule : Rule} {answer : Except RuleError Value}
    {marks : List Mark} {e : RuleError} :
    Evaluates context depth rule answer marks → answer = .error e →
      ∃ place, Blame context depth rule place e ∧ FailsAt place e marks
  | .literal, herror => by cases herror
  | .refused hrule hrefused, herror => by
      cases herror
      exact ⟨[], .refused hrule hrefused, .refusal e⟩
  | .entered (b := b) hrule hadmitted hfollows, herror => by
      have hfits := b.script_fits (Registry.admission_eq_ok_iff.1 hadmitted).2.1
      rcases hfollows.traced herror hfits with ⟨howned, hfails⟩ |
        ⟨position, operand, place, hoperand, hblame, hfails⟩
      · exact ⟨[], .own hrule hadmitted howned, hfails.around _ _ _⟩
      · rw [Nat.zero_add] at hfails
        exact ⟨position :: place, .operand hrule hadmitted hoperand hblame, hfails.around _ _ _⟩

/-- An error in which a script ends is one of the operator's own or has an operand to blame. -/
theorem Follows.traced {operator : String} {depth position : Nat} {operands : List Rule}
    {script : Script} {answer : Except RuleError Value} {marks : List Mark} {e : RuleError} :
    Follows context depth position operands script answer marks → answer = .error e →
      script.Fits operator operands.length →
        Traced context operator depth position operands e marks
  | .ok, herror, _ => by cases herror
  | .error, herror, hfits => by
      cases herror
      exact .inl ⟨Script.fits_finish.1 hfits e rfl, .here e⟩
  | .operand hfirst hnext, herror, hfits => by
      have hquiet := (hfirst.quiet rfl).within position
      exact ((hnext.traced herror (hfits _)).later _).append hquiet
  | .operandError hfirst, herror, _ => by
      obtain ⟨place, hblame, hfails⟩ := hfirst.blame herror
      exact .inr ⟨0, _, place, rfl, hblame, hfails.within position⟩
  | .skip hnext, herror, hfits => (hnext.traced herror hfits).later _
  | .lookup hnext, herror, hfits => (hnext.traced herror (Script.fits_lookup.1 hfits _)).cons rfl
  | .log hnext, herror, hfits => (hnext.traced herror (Script.fits_log.1 hfits)).cons rfl

end

end JsonRules
