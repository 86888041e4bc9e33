import JsonRules.Operator.Sample
import JsonRules.Proofs.Nesting
import JsonRules.Proofs.Statelessness
import Mathlib.Data.List.Chain

/-!
Evaluating rules in one context.

Whatever operators are registered, evaluating a rule leaves the nesting depth at which it started,
and the depth only moves by one level at a time on the way.  So a context can be used again after
any answer: where no operator keeps a state, evaluating rules in turn is evaluating each of them by
itself (`evaluateInTurn_eq_mapM`).
-/

namespace JsonRules

variable {σ : Type}

namespace Excursion

variable {limit : Option Nat} {depth : Nat} {depths : List Nat}

/-- Each step on the way goes one level down or one level up, also the one to what follows. -/
theorem isChain_append (h : Excursion limit depth depths) {after : List Nat}
    (hafter : (depth :: after).IsChain fun d e => e = d + 1 ∨ d = e + 1) :
    (depth :: (depths ++ after)).IsChain fun d e => e = d + 1 ∨ d = e + 1 := by
  induction h generalizing after with
  | nil => exact hafter
  | @round depth inner rest _ _ _ ihinner ihrest =>
      have hback := List.IsChain.cons_cons (.inr rfl) (ihrest hafter)
      have hround := List.IsChain.cons_cons (.inl rfl) (ihinner hback)
      simpa using hround

/-- Each step on the way goes one level down or one level up. -/
theorem isChain (h : Excursion limit depth depths) :
    (depth :: depths).IsChain fun d e => e = d + 1 ∨ d = e + 1 := by
  have hchain := h.isChain_append (List.isChain_singleton depth)
  rwa [List.append_nil] at hchain

end Excursion

theorem evaluate_keepsDepth (budget : Nat) (context : Context σ) (rule : Value) :
    (evaluate budget context rule).KeepsDepth context.options.maxDepth :=
  Rule.keepsDepth_run (Reentry.keepsDepth_ofBudget budget) context (.ofValue rule)

theorem evaluate_keepsState (budget : Nat) {context : Context σ}
    (hoperators : context.operators.Stateless) (rule : Value) :
    (evaluate budget context rule).KeepsState :=
  Rule.keepsState_run (Reentry.keepsState_ofBudget budget) hoperators (.ofValue rule)

/-- Without a state to keep, evaluating rules in turn is evaluating each of them by itself, errors
or not. -/
theorem evaluateInTurn_eq_mapM (budget : Nat) {context : Context σ}
    (hoperators : context.operators.Stateless) (rules : List Value) (depth : Nat) (state : σ) :
    evaluateInTurn budget context rules depth state =
      rules.mapM fun rule => evaluate budget context rule depth state := by
  induction rules with
  | nil => rfl
  | cons rule rest ih =>
      rw [evaluateInTurn, List.mapM_cons]
      cases hrule : evaluate budget context rule depth state with
      | none => rfl
      | some report =>
          have hdepth := (evaluate_keepsDepth budget context rule depth state report hrule).depth_eq
          have hstate := evaluate_keepsState budget hoperators rule depth state report hrule
          simp only [Option.bind_eq_bind, Option.bind_some, hdepth, hstate, ih]

/-- How evaluating accounts for nesting, with any operators of the host and under any limit.  It
leaves the depth at which it started, whatever the answer, and on the way no depth is above the
start or beyond the limit.  Each step there goes one level down or one level up, so that leaving a
level never meets the outermost one.  Where operators have no state, rules that are evaluated in
turn in one context come to what each of them comes to in a context of its own. -/
theorem evaluate_accounts_for_depth (budget : Nat) (context : Context σ) :
    (∀ rule depth state report, evaluate budget context rule depth state = some report →
      report.depth = depth ∧
      (∀ d ∈ report.depths, depth ≤ d ∧ ∀ max, context.options.maxDepth = some max → d ≤ max) ∧
      (depth :: report.depths).IsChain fun d e => e = d + 1 ∨ d = e + 1) ∧
    (context.operators.Stateless → ∀ rules depth state,
      evaluateInTurn budget context rules depth state =
        rules.mapM fun rule => evaluate budget context rule depth state) := by
  constructor
  · intro rule depth state report hreport
    have hkeeps := evaluate_keepsDepth budget context rule depth state report hreport
    exact ⟨hkeeps.depth_eq, hkeeps.excursion.between, hkeeps.excursion.isChain⟩
  · intro hoperators rules depth state
    exact evaluateInTurn_eq_mapM budget hoperators rules depth state

/-- A negation and an operator that goes on after an error, at most two levels deep. -/
def recoveringContext : Context Nat :=
  ⟨.null, (Registry.empty.insert "!" (.builtin (.function .negation))).insert "try"
    (.host (Sample.attempt.operator ⟨.fixed 1, .raw⟩)), ⟨some 2⟩⟩

/-- A rule that fails on its second level. -/
def failingRule : Value := .object [("!", .object [("frobnicate", .null)])]

/-- A rule in which reaching the limit is passed over. -/
def recoveringRule : Value := .object [("try", .object [("!", failingRule)])]

theorem Sample.stateless_gather (rules : List Value) (values : List Value) :
    (Sample.gather σ rules values).Stateless := by
  induction rules generalizing values with
  | nil => trivial
  | cons rule rest ih =>
      intro answer
      cases answer with
      | ok value => exact ih _
      | error e => exact ih _

theorem stateless_recoveringContext : recoveringContext.operators.Stateless := by
  intro name operator hget
  simp only [recoveringContext, Registry.get?_insert, Registry.get?_empty] at hget
  split at hget
  · cases hget
    exact fun view operands => Sample.stateless_gather operands []
  · split at hget
    · cases hget
      trivial
    · cases hget

theorem evaluate_recoveringContext :
    (∃ report, evaluate 1 recoveringContext recoveringRule 0 7 = some report ∧
      report.answer = .ok (.array [.string "error: Maximum rule depth of 2 exceeded."]) ∧
      report.depth = 0 ∧ report.depths = [1, 2, 1, 0] ∧
      (0 :: report.depths).IsChain fun d e => e = d + 1 ∨ d = e + 1) ∧
    recoveringContext.operators.Stateless ∧
    evaluateInTurn 1 recoveringContext [failingRule, recoveringRule] 0 7 =
      [failingRule, recoveringRule].mapM fun rule => evaluate 1 recoveringContext rule 0 7 := by
  obtain ⟨hreports, hturn⟩ := evaluate_accounts_for_depth 1 recoveringContext
  have hrun : ∃ report, evaluate 1 recoveringContext recoveringRule 0 7 = some report ∧
      report.answer = .ok (.array [.string "error: Maximum rule depth of 2 exceeded."]) ∧
      report.depths = [1, 2, 1, 0] := ⟨_, rfl, rfl, rfl⟩
  obtain ⟨report, hreport, hanswer, hdepths⟩ := hrun
  obtain ⟨hdepth, -, hchain⟩ := hreports recoveringRule 0 7 report hreport
  refine ⟨⟨report, hreport, hanswer, hdepth, hdepths, hchain⟩, stateless_recoveringContext, ?_⟩
  exact hturn stateless_recoveringContext _ 0 7

end JsonRules
