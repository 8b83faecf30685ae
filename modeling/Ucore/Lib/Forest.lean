import Mathlib

/-! Finitely many nodes that each have at most one parent. If the way up from every node ends
at the root, the way down comes to an end too. -/

namespace Ucore.Lib

universe u

/-- `up node parent` holds for at most one parent. -/
structure Forest {α : Type u} (up : α → α → Prop) (root : α) (nodes : List α) : Prop where
  single : ∀ node parent other, up node parent → up node other → parent = other
  top : ∀ parent, ¬ up root parent
  climbs : ∀ node ∈ nodes, Relation.ReflTransGen up node root

namespace Forest

variable {α : Type u} {up : α → α → Prop} {root node : α} {nodes : List α}

private theorem no_cycle (forest : Forest up root nodes) (member : node ∈ nodes) : ¬ Relation.TransGen up node node := by
  have path := forest.climbs node member
  clear member
  induction path using Relation.ReflTransGen.head_induction_on with
  | refl =>
    intro cycle
    obtain ⟨parent, first, _⟩ := Relation.TransGen.head'_iff.mp cycle
    exact forest.top parent first
  | head edge _ ih =>
    intro cycle
    obtain ⟨parent, first, back⟩ := Relation.TransGen.head'_iff.mp cycle
    cases forest.single _ _ _ edge first
    exact ih (Relation.TransGen.tail' back edge)

theorem wellFounded (forest : Forest up root nodes) :
    WellFounded (Relation.TransGen fun child node : {node // node ∈ nodes} => up child node) := by
  have shorter : ∀ {child node : {node // node ∈ nodes}}, Relation.TransGen (fun child node : {node // node ∈ nodes} => up child node)
      child node → Relation.TransGen up child.1 node.1 := by
    intro child node path
    induction path with
    | single edge => exact .single edge
    | tail _ edge ih => exact ih.tail edge
  have irreflexive : Std.Irrefl (Relation.TransGen fun child node : {node // node ∈ nodes} => up child node) :=
    ⟨fun node cycle => forest.no_cycle node.2 (shorter cycle)⟩
  have finite : Finite {node // node ∈ nodes} := List.finite_toSet nodes
  exact Finite.wellFounded_of_trans_of_irrefl _

/-- Going down from a node that is `good`, to a child that is `good` as well, comes to one that is `last`. -/
theorem descend (forest : Forest up root nodes) {good last : α → Prop}
    (down : ∀ node ∈ nodes, good node → last node ∨ ∃ child ∈ nodes, up child node ∧ good child) (member : node ∈ nodes)
    (start : good node) : ∃ lowest ∈ nodes, Relation.ReflTransGen up lowest node ∧ last lowest := by
  have all : ∀ node : {node // node ∈ nodes}, good node → ∃ lowest ∈ nodes, Relation.ReflTransGen up lowest node ∧ last lowest := by
    intro node
    induction node using forest.wellFounded.induction with
    | _ node ih =>
      intro held
      rcases down node node.2 held with ended | ⟨child, inside, edge, kept⟩
      · exact ⟨node, node.2, Relation.ReflTransGen.refl, ended⟩
      · obtain ⟨lowest, present, path, ended⟩ := ih ⟨child, inside⟩ (.single edge) kept
        exact ⟨lowest, present, path.tail edge, ended⟩
  exact all ⟨node, member⟩ start

end Forest

end Ucore.Lib
