import JsonRules.Proofs.Operations

/-!
The nodes of a rule.

`Rule.nodes` lists the operations of a rule, each with its place, its name and the number of its
operands, and each before those in its operands.  The places ascend in lexicographic order
(`Rule.nodes_ascending`), and there is a node for exactly the operations of the rule
(`Rule.mem_nodes_iff`).
-/

namespace JsonRules

/-- An operation of a rule. -/
structure Node where
  place : List Nat
  name : String
  count : Nat
  deriving DecidableEq

namespace Node

def within (position : Nat) (node : Node) : Node := { node with place := position :: node.place }

/-- How deep a node is nested.  The rule itself is on the first level. -/
def level (node : Node) : Nat := node.place.length + 1

end Node

namespace Rule

mutual

/-- The operations of a rule, from the outside in and from left to right. -/
def nodes : Rule → List Node
  | .literal _ => []
  | .operation name operands => ⟨[], name, operands.length⟩ :: nodesFrom 0 operands
  | .shorthand name operand => ⟨[], name, 1⟩ :: operand.nodes.map (Node.within 0)

/-- The operations of the operands from a position on. -/
def nodesFrom (position : Nat) : List Rule → List Node
  | [] => []
  | operand :: rest => operand.nodes.map (Node.within position) ++ nodesFrom (position + 1) rest

end

theorem nodes_of_operation? {rule : Rule} {name : String} {operands : List Rule}
    (hrule : rule.operation? = some (name, operands)) :
    rule.nodes = ⟨[], name, operands.length⟩ :: nodesFrom 0 operands := by
  cases rule with
  | literal value => cases hrule
  | operation name' operands' =>
      cases hrule
      rw [nodes]
  | shorthand name' operand =>
      cases hrule
      simp [nodes, nodesFrom]

/-- A node of some operands is a node of one of them. -/
theorem mem_nodesFrom_iff {position : Nat} {operands : List Rule} {node : Node} :
    node ∈ nodesFrom position operands ↔ ∃ index, ∃ operand : Rule, ∃ inner : Node,
      operands[index]? = some operand ∧ inner ∈ operand.nodes ∧
        inner.within (position + index) = node := by
  induction operands generalizing position with
  | nil => simp [nodesFrom]
  | cons first rest ih =>
      rw [nodesFrom, List.mem_append, ih, List.mem_map]
      constructor
      · rintro (⟨inner, hinner, rfl⟩ | ⟨index, operand, inner, hoperand, hinner, rfl⟩)
        · exact ⟨0, first, inner, rfl, hinner, rfl⟩
        · exact ⟨index + 1, operand, inner, hoperand, hinner, by rw [Nat.add_right_comm]; rfl⟩
      · rintro ⟨index, operand, inner, hoperand, hinner, rfl⟩
        cases index with
        | zero =>
            cases hoperand
            exact .inl ⟨inner, hinner, rfl⟩
        | succ index =>
            exact .inr ⟨index, operand, inner, hoperand, hinner, by rw [Nat.add_right_comm]; rfl⟩

theorem nodesFrom_ascending (position : Nat) {operands : List Rule}
    (h : ∀ operand ∈ operands, operand.nodes.Pairwise fun node other => node.place < other.place) :
    (nodesFrom position operands).Pairwise fun node other => node.place < other.place := by
  induction operands generalizing position with
  | nil => exact .nil
  | cons first rest ih =>
      rw [nodesFrom, List.pairwise_append]
      refine ⟨?_, ih (position + 1) fun operand hoperand =>
        h operand (List.mem_cons_of_mem first hoperand), fun node hnode other hother => ?_⟩
      · refine List.pairwise_map.2 ((h first List.mem_cons_self).imp fun hplace => ?_)
        exact List.cons_lt_cons_self.2 hplace
      · obtain ⟨inner, -, rfl⟩ := List.mem_map.1 hnode
        obtain ⟨index, operand, inner', -, -, rfl⟩ := mem_nodesFrom_iff.1 hother
        exact List.cons_lt_cons_iff.2 (.inl (by omega))

/-- There is a node for exactly the operations of a rule. -/
theorem mem_nodes_iff {rule : Rule} {node : Node} :
    node ∈ rule.nodes ↔ ∃ inner operands, rule.at? node.place = some inner ∧
      inner.operation? = some (node.name, operands) ∧ operands.length = node.count := by
  induction rule using Rule.induct generalizing node with
  | literal value =>
      rcases node with ⟨_ | ⟨position, rest⟩, name, count⟩
      · simp [nodes, operation?]
      · simp [nodes, at?, operation?]
  | operation rule name operands hrule ih =>
      rw [nodes_of_operation? hrule, List.mem_cons, mem_nodesFrom_iff]
      constructor
      · rintro (rfl | ⟨index, operand, inner, hoperand, hinner, rfl⟩)
        · exact ⟨rule, operands, at?_nil rule, hrule, rfl⟩
        · obtain ⟨found, others, hat, hfound, hcount⟩ :=
            (ih operand (List.mem_of_getElem? hoperand)).1 hinner
          refine ⟨found, others, ?_, hfound, hcount⟩
          rw [Nat.zero_add]
          exact (at?_cons hrule hoperand inner.place).trans hat
      · rintro ⟨found, others, hat, hfound, hcount⟩
        obtain ⟨place, name', count⟩ := node
        cases place with
        | nil =>
            rw [at?_nil, Option.some.injEq] at hat
            subst hat
            rw [hrule] at hfound
            cases hfound
            cases hcount
            exact .inl rfl
        | cons position rest =>
            obtain ⟨operand, hoperand, hrest⟩ := exists_at?_of_cons hrule hat
            exact .inr ⟨position, operand, ⟨rest, name', count⟩, hoperand,
              (ih operand (List.mem_of_getElem? hoperand)).2 ⟨found, others, hrest, hfound, hcount⟩,
              by rw [Nat.zero_add]; rfl⟩

def names (rule : Rule) : List String := rule.nodes.map Node.name

theorem map_name_nodesFrom (position : Nat) (operands : List Rule) :
    (nodesFrom position operands).map Node.name = operands.flatMap names := by
  induction operands generalizing position with
  | nil => rfl
  | cons operand rest ih =>
      rw [nodesFrom, List.map_append, ih, List.map_map, List.flatMap_cons]
      rfl

theorem names_of_operation? {rule : Rule} {name : String} {operands : List Rule}
    (hrule : rule.operation? = some (name, operands)) :
    rule.names = name :: operands.flatMap names := by
  rw [names, nodes_of_operation? hrule, List.map_cons, map_name_nodesFrom]

theorem mem_names_of_operation? {rule : Rule} {name : String} {operands : List Rule}
    (hrule : rule.operation? = some (name, operands)) : name ∈ rule.names := by
  rw [names_of_operation? hrule]
  exact List.mem_cons_self

theorem mem_names_of_operand {rule operand : Rule} {name other : String} {operands : List Rule}
    (hrule : rule.operation? = some (name, operands)) (hoperand : operand ∈ operands)
    (hother : other ∈ operand.names) : other ∈ rule.names := by
  rw [names_of_operation? hrule]
  exact List.mem_cons_of_mem name (List.mem_flatMap.2 ⟨operand, hoperand, hother⟩)

/-- The places of the nodes ascend: an operation comes before those within it, and these come
operand by operand. -/
theorem nodes_ascending (rule : Rule) :
    rule.nodes.Pairwise (fun node other => node.place < other.place) := by
  induction rule using Rule.induct with
  | literal value => exact .nil
  | operation rule name operands hrule ih =>
      rw [nodes_of_operation? hrule]
      refine .cons (fun node hnode => ?_) (nodesFrom_ascending 0 ih)
      obtain ⟨index, operand, inner, -, -, rfl⟩ := mem_nodesFrom_iff.1 hnode
      exact List.nil_lt_cons _ _

end Rule

end JsonRules
