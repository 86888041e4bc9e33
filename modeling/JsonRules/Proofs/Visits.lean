import JsonRules.Proofs.Derivation
import JsonRules.Proofs.Nodes

/-!
Which nodes of a rule a run enters.

A run of standard operators enters nodes of its rule only, none of them twice, in the order of
`Rule.nodes` and each after the one around it: operators go through their operands from left to
right, and evaluate neither a value from the data nor one that they have made themselves.  Eager
operators leave none of their operands out.
-/

namespace JsonRules

variable {σ : Type}

def Event.isDispatch : Event → Bool
  | .dispatch .. => true
  | _ => false

namespace Mark

/-- The node that was entered. -/
def node? (mark : Mark) : Option Node :=
  match mark.occurrence with
  | .event (.dispatch name count _) => some ⟨mark.place, name, count⟩
  | _ => none

def visited (marks : List Mark) : List Node := marks.filterMap node?

theorem visited_append (marks others : List Mark) :
    visited (marks ++ others) = visited marks ++ visited others :=
  List.filterMap_append

theorem node?_within (position : Nat) (mark : Mark) :
    (mark.within position).node? = mark.node?.map (Node.within position) := by
  obtain ⟨place, occurrence⟩ := mark
  cases occurrence with
  | event event => cases event <;> rfl
  | _ => rfl

theorem visited_within (position : Nat) (marks : List Mark) :
    visited (marks.map (within position)) = (visited marks).map (Node.within position) := by
  induction marks with
  | nil => rfl
  | cons first rest ih =>
      simp only [visited] at ih
      cases hfirst : first.node? <;>
        simp [visited, node?_within, hfirst, ih]

theorem visited_around (name : String) (count depth : Nat) (marks : List Mark) :
    visited (around name count depth marks) = ⟨[], name, count⟩ :: visited marks := by
  have hinner : visited (marks ++ [.here (.depth depth)]) = visited marks := by
    rw [visited_append]
    exact List.append_nil _
  rw [← hinner]
  rfl

theorem visited_refusal (e : RuleError) : visited e.refusal = [] := by
  cases e <;> rfl

end Mark

/-- The nodes that were entered in a run, in order. -/
def Report.visited {α : Type} (report : Report σ α) : List Node := Mark.visited report.marks

/-- The event of entering a node, if the operations around it are nested so deep already. -/
def Node.event (depth : Nat) (node : Node) : Event :=
  .dispatch node.name node.count (depth + node.place.length)

theorem Node.event_within (depth position : Nat) (node : Node) :
    (node.within position).event depth = node.event (depth + 1) := by
  rw [Node.event, Node.event, Nat.add_assoc, Nat.add_comm 1]
  rfl

variable {context : Context σ}

/-- The events of entering are those of entering some nodes, from a depth on. -/
def Dispatches (depth : Nat) (marks : List Mark) : Prop :=
  (Mark.events marks).filter Event.isDispatch = (Mark.visited marks).map (Node.event depth)

namespace Dispatches

variable {depth : Nat} {marks others : List Mark}

theorem append (h : Dispatches depth marks) (hothers : Dispatches depth others) :
    Dispatches depth (marks ++ others) := by
  rw [Dispatches, Mark.events_append, List.filter_append, h, hothers, Mark.visited_append,
    List.map_append]

theorem within (h : Dispatches (depth + 1) marks) (position : Nat) :
    Dispatches depth (marks.map (Mark.within position)) := by
  rw [Dispatches, Mark.events_within, h, Mark.visited_within, List.map_map]
  exact List.map_congr_left fun node _ => (Node.event_within depth position node).symm

theorem around (h : Dispatches (depth + 1) marks) (name : String) (count : Nat) :
    Dispatches (depth + 1) (Mark.around name count depth marks) := by
  rw [Dispatches, Mark.events_around, Mark.visited_around, List.filter_cons_of_pos rfl, h]
  rfl

theorem refusal (depth : Nat) (e : RuleError) : Dispatches depth e.refusal := by
  rw [Dispatches, Mark.events_refusal, Mark.visited_refusal]
  cases e <;> rfl

end Dispatches

mutual

/-- The events of entering tell how deep the nodes are nested. -/
theorem Evaluates.dispatches {depth : Nat} {rule : Rule} {answer : Except RuleError Value}
    {marks : List Mark} :
    Evaluates context depth rule answer marks → Dispatches (depth + 1) marks
  | .literal => rfl
  | .refused _ _ => .refusal _ _
  | .entered _ _ hfollows => hfollows.dispatches.around _ _

theorem Follows.dispatches {depth position : Nat} {operands : List Rule} {script : Script}
    {answer : Except RuleError Value} {marks : List Mark} :
    Follows context depth position operands script answer marks → Dispatches depth marks
  | .ok => rfl
  | .error => rfl
  | .operand hfirst hnext => (hfirst.dispatches.within _).append hnext.dispatches
  | .operandError hfirst => hfirst.dispatches.within _
  | .skip hnext => hnext.dispatches
  | .lookup hnext => hnext.dispatches
  | .log hnext => hnext.dispatches

end

mutual

/-- A run enters nodes of its rule, in their order and each at most once. -/
theorem Evaluates.visited_sublist {depth : Nat} {rule : Rule} {answer : Except RuleError Value}
    {marks : List Mark} :
    Evaluates context depth rule answer marks → (Mark.visited marks).Sublist rule.nodes
  | .literal => List.nil_sublist _
  | .refused (e := e) _ _ => by
      rw [Mark.visited_refusal e]
      exact List.nil_sublist _
  | .entered hrule _ hfollows => by
      have hinner := hfollows.visited_sublist
      rw [Mark.visited_around, Rule.nodes_of_operation? hrule]
      exact hinner.cons_cons _

/-- A script enters nodes of the operands that are left. -/
theorem Follows.visited_sublist {depth position : Nat} {operands : List Rule} {script : Script}
    {answer : Except RuleError Value} {marks : List Mark} :
    Follows context depth position operands script answer marks →
      (Mark.visited marks).Sublist (Rule.nodesFrom position operands)
  | .ok => List.nil_sublist _
  | .error => List.nil_sublist _
  | .operand hfirst hnext => by
      have hinner := hfirst.visited_sublist
      have hothers := hnext.visited_sublist
      rw [Mark.visited_append, Mark.visited_within, Rule.nodesFrom]
      exact (hinner.map _).append hothers
  | .operandError hfirst => by
      have hinner := hfirst.visited_sublist
      rw [Mark.visited_within, Rule.nodesFrom]
      exact (hinner.map _).trans (List.sublist_append_left _ _)
  | .skip hnext => by
      have hothers := hnext.visited_sublist
      rw [Rule.nodesFrom]
      exact hothers.trans (List.sublist_append_right _ _)
  | .lookup hnext => hnext.visited_sublist
  | .log hnext => hnext.visited_sublist

end

/-- The node around every node is among them, the rule itself apart. -/
def Enclosed (nodes : List Node) : Prop :=
  ∀ node ∈ nodes, ∀ outer position, node.place = outer ++ [position] →
    ∃ enclosing ∈ nodes, enclosing.place = outer

namespace Enclosed

variable {root : Node} {nodes others : List Node}

theorem nil : Enclosed [] := by
  intro node hnode
  cases hnode

theorem single (hroot : root.place = []) : Enclosed [root] := by
  intro node hnode outer position hplace
  rw [List.mem_singleton.1 hnode, hroot] at hplace
  simp at hplace

theorem append (h : Enclosed (root :: nodes)) (hothers : Enclosed (root :: others)) :
    Enclosed (root :: (nodes ++ others)) := by
  intro node hnode outer position hplace
  rw [← List.cons_append] at hnode ⊢
  rcases List.mem_append.1 hnode with hnode | hnode
  · obtain ⟨enclosing, henclosing, houter⟩ := h node hnode outer position hplace
    exact ⟨enclosing, List.mem_append_left others henclosing, houter⟩
  · obtain ⟨enclosing, henclosing, houter⟩ :=
      hothers node (List.mem_cons_of_mem root hnode) outer position hplace
    rcases List.mem_cons.1 henclosing with rfl | henclosing
    · exact ⟨enclosing, List.mem_cons_self, houter⟩
    · exact ⟨enclosing, List.mem_append_right _ henclosing, houter⟩

theorem within (hroot : root.place = []) (h : Enclosed nodes) (position : Nat) :
    Enclosed (root :: nodes.map (Node.within position)) := by
  intro node hnode outer last hplace
  rcases List.mem_cons.1 hnode with rfl | hnode
  · rw [hroot] at hplace
    simp at hplace
  · obtain ⟨inner, hinner, rfl⟩ := List.mem_map.1 hnode
    cases outer with
    | nil => exact ⟨root, List.mem_cons_self, hroot⟩
    | cons first rest =>
        obtain ⟨hfirst, hrest⟩ := List.cons_eq_cons.1 hplace
        obtain ⟨enclosing, henclosing, houter⟩ := h inner hinner rest last hrest
        refine ⟨enclosing.within position, ?_, ?_⟩
        · exact List.mem_cons_of_mem root (List.mem_map_of_mem henclosing)
        · rw [Node.within, houter, hfirst]

/-- Among nodes in ascending order, the one around another comes before it. -/
theorem precedes (h : Enclosed nodes)
    (hascending : nodes.Pairwise fun node other => node.place < other.place)
    {before after : List Node} {node : Node} (hnodes : nodes = before ++ node :: after)
    {outer : List Nat} {position : Nat} (hplace : node.place = outer ++ [position]) :
    ∃ enclosing ∈ before, enclosing.place = outer := by
  subst hnodes
  have houterLt : outer < node.place := by
    have happend : outer ++ [] < outer ++ [position] :=
      List.append_left_lt (List.nil_lt_cons position [])
    rwa [List.append_nil, ← hplace] at happend
  obtain ⟨enclosing, henclosing, houter⟩ := h node (by simp) outer position hplace
  rcases List.mem_append.1 henclosing with hbefore | hafter
  · exact ⟨enclosing, hbefore, houter⟩
  · have hnot : ¬node.place < enclosing.place := by
      rw [houter]
      exact List.lt_asymm houterLt
    rcases List.mem_cons.1 hafter with rfl | hafter
    · rw [houter] at houterLt
      exact (List.lt_irrefl _ houterLt).elim
    · have hlater := List.rel_of_pairwise_cons (List.pairwise_append.1 hascending).2.1 hafter
      exact (hnot hlater).elim

end Enclosed

mutual

/-- A run enters no node before it has entered the one around it. -/
theorem Evaluates.enclosed {depth : Nat} {rule : Rule} {answer : Except RuleError Value}
    {marks : List Mark} :
    Evaluates context depth rule answer marks → Enclosed (Mark.visited marks)
  | .literal => .nil
  | .refused (e := e) _ _ => by
      rw [Mark.visited_refusal e]
      exact .nil
  | .entered _ _ hfollows => by
      rw [Mark.visited_around]
      exact hfollows.enclosed ⟨[], _, _⟩ rfl

theorem Follows.enclosed {depth position : Nat} {operands : List Rule} {script : Script}
    {answer : Except RuleError Value} {marks : List Mark} (root : Node)
    (hroot : root.place = []) :
    Follows context depth position operands script answer marks →
      Enclosed (root :: Mark.visited marks)
  | .ok => .single hroot
  | .error => .single hroot
  | .operand hfirst hnext => by
      have hinner := hfirst.enclosed
      have hothers := hnext.enclosed root hroot
      rw [Mark.visited_append, Mark.visited_within]
      exact (hinner.within hroot _).append hothers
  | .operandError hfirst => by
      have hinner := hfirst.enclosed
      rw [Mark.visited_within]
      exact hinner.within hroot _
  | .skip hnext => hnext.enclosed root hroot
  | .lookup hnext => by
      have hinner := hnext.enclosed root hroot
      exact hinner
  | .log hnext => by
      have hinner := hnext.enclosed root hroot
      exact hinner

end

/-- A script that comes to a value only after it has evaluated as many operands. -/
def Script.Exhausts : Nat → Script → Prop
  | 0, _ => True
  | _ + 1, .finish (.ok _) => False
  | _ + 1, .finish (.error _) => True
  | _ + 1, .stuck => True
  | count + 1, .operand next => ∀ value, (next value).Exhausts count
  | _ + 1, .skip _ => False
  | count + 1, .lookup _ next => ∀ found, (next found).Exhausts (count + 1)
  | count + 1, .log _ next => next.Exhausts (count + 1)

namespace Script

theorem exhausts_zero (script : Script) : script.Exhausts 0 := by
  cases script <;> trivial

theorem exhausts_gather (count : Nat) (next : List Value → Script) :
    (gather count next).Exhausts count := by
  induction count generalizing next with
  | zero => exact exhausts_zero _
  | succ count ih => exact fun value => ih _

theorem Exhausts.lookup {count : Nat} {path : String} {next : Option Value → Script}
    (h : (Script.lookup path next).Exhausts count) (found : Option Value) :
    (next found).Exhausts count := by
  cases count with
  | zero => exact exhausts_zero _
  | succ count => exact h found

theorem Exhausts.log {count : Nat} {value : Value} {next : Script}
    (h : (Script.log value next).Exhausts count) : next.Exhausts count := by
  cases count with
  | zero => exact exhausts_zero _
  | succ count => exact h

theorem Exhausts.eq_zero {count : Nat} {value : Value}
    (h : (Script.finish (.ok value)).Exhausts count) : count = 0 := by
  cases count with
  | zero => rfl
  | succ count => exact h.elim

end Script

/-- An eager operator evaluates all its operands before it comes to a value. -/
theorem Builtin.script_exhausts {b : Builtin} (heager : b.signature.mode = .eager) (count : Nat) :
    (b.script count).Exhausts count := by
  cases b with
  | control c => cases heager
  | function f => exact Script.exhausts_gather count _
  | missing => exact Script.exhausts_gather count _
  | missingSome => exact Script.exhausts_gather count _
  | log => exact Script.exhausts_gather count _

/-- All nodes name eager operators. -/
def Registry.EagerOn (operators : Registry σ) (nodes : List Node) : Prop :=
  ∀ node ∈ nodes, ∃ operator, operators.get? node.name = some operator ∧
    operator.signature.mode = .eager

mutual

/-- A run of eager operators that comes to a value has entered all nodes. -/
theorem Evaluates.visited_eq {depth : Nat} {rule : Rule} {answer : Except RuleError Value}
    {marks : List Mark} {value : Value} :
    Evaluates context depth rule answer marks → answer = .ok value →
      context.operators.EagerOn rule.nodes → Mark.visited marks = rule.nodes
  | .literal, _, _ => rfl
  | .refused _ _, hok, _ => by cases hok
  | .entered hrule hadmitted hfollows, hok, heager => by
      rw [Rule.nodes_of_operation? hrule] at heager ⊢
      obtain ⟨operator, hget, hmode⟩ := heager _ List.mem_cons_self
      rw [(Registry.admission_eq_ok_iff.1 hadmitted).1, Option.some.injEq] at hget
      subst hget
      have hinner := hfollows.visited_eq hok (Builtin.script_exhausts hmode _)
        fun node hnode => heager node (List.mem_cons_of_mem _ hnode)
      rw [Mark.visited_around, hinner]

theorem Follows.visited_eq {depth position : Nat} {operands : List Rule} {script : Script}
    {answer : Except RuleError Value} {marks : List Mark} {value : Value} :
    Follows context depth position operands script answer marks → answer = .ok value →
      script.Exhausts operands.length →
        context.operators.EagerOn (Rule.nodesFrom position operands) →
          Mark.visited marks = Rule.nodesFrom position operands
  | .ok, _, hexhausts, _ => by
      rw [List.length_eq_zero_iff.1 hexhausts.eq_zero]
      rfl
  | .error, hok, _, _ => by cases hok
  | .operand hfirst hnext, hok, hexhausts, heager => by
      rw [Rule.nodesFrom] at heager ⊢
      have hinner := hfirst.visited_eq rfl fun node hnode =>
        heager (node.within position) (List.mem_append_left _ (List.mem_map_of_mem hnode))
      have hothers := hnext.visited_eq hok (hexhausts _) fun node hnode =>
        heager node (List.mem_append_right _ hnode)
      rw [Mark.visited_append, Mark.visited_within, hinner, hothers]
  | .operandError hfirst, hok, _, _ => by cases hok
  | .skip hnext, _, hexhausts, _ => hexhausts.elim
  | .lookup hnext, hok, hexhausts, heager => hnext.visited_eq hok (hexhausts.lookup _) heager
  | .log hnext, hok, hexhausts, heager => hnext.visited_eq hok hexhausts.log heager

end

/-- What a run of the standard operators enters: nodes of the rule, at their own levels, in the
order of `Rule.nodes`, none of them twice and each after the one around it.  If all nodes name eager
operators, then a run that comes to a value has entered all of them. -/
theorem Engine.visited_of_apply (options : Options) (budget : Nat) (rule data : Value)
    (state : σ) :
    ∃ report, Engine.apply ⟨.standard, options⟩ budget rule data state = some report ∧
      report.events.filter Event.isDispatch =
        report.visited.map (fun node => .dispatch node.name node.count node.level) ∧
      report.visited.Sublist (Rule.ofValue rule).nodes ∧
      (report.visited.map Node.place).Nodup ∧
      (∀ before node after outer position, report.visited = before ++ node :: after →
        node.place = outer ++ [position] → ∃ enclosing ∈ before, enclosing.place = outer) ∧
      ((Registry.standard : Registry σ).EagerOn (Rule.ofValue rule).nodes →
        ∀ value, report.answer = .ok value → report.visited = (Rule.ofValue rule).nodes) := by
  obtain ⟨answer, marks, hevaluates, happly⟩ := Engine.exists_apply_eq
    (⟨.standard, options⟩ : Engine σ) Registry.onlyBuiltins_standard rule data
  have hsublist := hevaluates.visited_sublist
  have hascending := (Rule.nodes_ascending (.ofValue rule)).sublist hsublist
  refine ⟨_, happly budget state, ?_, hsublist, ?_, ?_, fun heager value hok => ?_⟩
  · refine hevaluates.dispatches.trans (List.map_congr_left fun node _ => ?_)
    rw [Node.event, Node.level, Nat.add_comm, Nat.zero_add]
  · rw [List.Nodup, List.pairwise_map]
    refine hascending.imp fun {node other} hlt => ?_
    intro heq
    rw [heq] at hlt
    exact List.lt_irrefl _ hlt
  · intro before node after outer position hvisited hplace
    exact hevaluates.enclosed.precedes hascending hvisited hplace
  · exact hevaluates.visited_eq hok heager

end JsonRules
