import Mathlib
import Ucore.SkewHeap

/-! The skew heap of `skew_heap.h` for an arbitrary order: inserting a node, and removing
any node, keep it well-formed, whatever the nodes outside of it hold. -/

namespace Ucore
open Lib

variable {α : Type} [DecidableEq α] {comp : α → α → Int} {nodes after other : HeapNodes α} {tree left right : SkewTree α} {b p : α}

section Cut

omit [DecidableEq α] in
private theorem Stored.child_mem (stored : nodes.Stored tree) (inside : p ∈ tree.elems)
    (child : nodes.left p = some b ∨ nodes.right p = some b) : b ∈ tree.elems := by
  induction tree with
  | leaf => cases inside
  | node left value right leftIh rightIh =>
    obtain ⟨leftChild, rightChild, -, -, leftStored, rightStored⟩ := stored
    simp only [SkewTree.elems_node, List.mem_cons, List.mem_append] at inside ⊢
    rcases inside with rfl | inside | inside
    · rcases child with here | here
      · exact Or.inr (Or.inl (SkewTree.root_mem (leftChild.symm.trans here)))
      · exact Or.inr (Or.inr (SkewTree.root_mem (rightChild.symm.trans here)))
    · exact Or.inr (Or.inl (leftIh leftStored inside))
    · exact Or.inr (Or.inr (rightIh rightStored inside))

/-- `b` is below `p`, outside of whose reach `p` is. -/
structure Below (nodes : HeapNodes α) (b p : α) (left right : SkewTree α) : Prop where
  parent : nodes.parent b = some p
  child : nodes.left p = some b ∨ nodes.right p = some b
  apart : p ∉ (SkewTree.node left b right).elems

omit [DecidableEq α] in
private theorem Stored.find (stored : nodes.Stored tree) (distinct : tree.elems.Nodup) (member : b ∈ tree.elems) :
    ∃ left right, nodes.Stored (.node left b right) ∧ (tree = .node left b right ∨
      ((SkewTree.node left b right).elems.Sublist tree.elems.tail ∧ ∃ p ∈ tree.elems, Below nodes b p left right)) := by
  induction tree with
  | leaf => cases member
  | node leftTree value rightTree leftIh rightIh =>
    obtain ⟨fresh, rest⟩ := List.nodup_cons.mp distinct
    obtain ⟨leftDistinct, rightDistinct, disjoint⟩ := List.nodup_append.mp rest
    have stored' := stored
    obtain ⟨leftChild, rightChild, leftParent, rightParent, leftStored, rightStored⟩ := stored'
    rcases List.mem_cons.mp member with rfl | lower
    · exact ⟨leftTree, rightTree, stored, Or.inl rfl⟩
    rcases List.mem_append.mp lower with inside | inside
    · obtain ⟨left, right, found, place⟩ := leftIh leftStored leftDistinct inside
      refine ⟨left, right, found, Or.inr ?_⟩
      rcases place with rfl | ⟨sublist, p, above, below⟩
      · refine ⟨List.sublist_append_left _ _, value, List.mem_cons_self, leftParent b rfl, Or.inl leftChild, ?_⟩
        exact fun same => fresh (List.mem_append_left _ same)
      · refine ⟨(sublist.trans (List.tail_sublist _)).trans (List.sublist_append_left _ _), p, ?_, below⟩
        exact List.mem_cons_of_mem _ (List.mem_append_left _ above)
    · obtain ⟨left, right, found, place⟩ := rightIh rightStored rightDistinct inside
      refine ⟨left, right, found, Or.inr ?_⟩
      rcases place with rfl | ⟨sublist, p, above, below⟩
      · refine ⟨List.sublist_append_right _ _, value, List.mem_cons_self, rightParent b rfl, Or.inr rightChild, ?_⟩
        exact fun same => fresh (List.mem_append_right _ same)
      · refine ⟨(sublist.trans (List.tail_sublist _)).trans (List.sublist_append_right _ _), p, ?_, below⟩
        exact List.mem_cons_of_mem _ (List.mem_append_right _ above)

/-- `after` is `nodes` with `rep` in the place of `b` below `p`, and with the nodes of
`cut` written. -/
structure Cut (nodes after : HeapNodes α) (b p : α) (rep : Option α) (cut : List α) : Prop where
  parent : ∀ node, node ∉ cut → after.parent node = nodes.parent node
  left : ∀ node, node ∉ cut → node ≠ p → after.left node = nodes.left node
  right : ∀ node, node ∉ cut → node ≠ p → after.right node = nodes.right node
  place : if nodes.left p = some b then after.left p = rep ∧ after.right p = nodes.right p
    else after.left p = nodes.left p ∧ after.right p = rep
  up : ∀ top ∈ rep, after.parent top = some p

private theorem Cut.stored {rep : Option α} {members : List α} (cut : Cut nodes after b p rep members) (stored : nodes.Stored tree)
    (away : ∀ node ∈ tree.elems, node ∉ members) (apart : p ∉ tree.elems) : after.Stored tree := by
  apply stored.frame
  · exact fun node inside => cut.left node (away node inside) (ne_of_mem_of_not_mem inside apart)
  · exact fun node inside => cut.right node (away node inside) (ne_of_mem_of_not_mem inside apart)
  · exact fun node inside => cut.parent node (away node (List.mem_of_mem_tail inside))

private theorem erase_root {before : α → α → Bool} (away : tree.root ≠ some b) : (tree.erase before b).root = tree.root := by
  cases tree with
  | leaf => rfl
  | node left top right =>
    rw [SkewTree.erase, if_neg (fun same => away (congrArg some same))]
    rfl

section Side

variable {before : α → α → Bool} {value : α} (below : Below nodes b p left right) (subtree : nodes.Stored (.node left b right))
  (merged : after.Stored (SkewTree.merge before left right))
  (cut : Cut nodes after b p (SkewTree.merge before left right).root (SkewTree.node left b right).elems)
include below subtree merged cut

private theorem Cut.side (stored : nodes.Stored tree) (distinct : tree.elems.Nodup) (member : b ∈ tree.elems)
    (up : ∀ child ∈ tree.root, nodes.parent child = some value)
    (inner : tree.root ≠ some b → after.Stored (tree.erase before b)) :
    (∀ node ∈ (SkewTree.node left b right).elems, node ∈ tree.elems) ∧ after.Stored (tree.erase before b) ∧
      (∀ child ∈ (tree.erase before b).root, after.parent child = some value) ∧
      ((p = value ∧ tree.root = some b ∧ (tree.erase before b).root = (SkewTree.merge before left right).root) ∨
        (p ∈ tree.elems ∧ (tree.erase before b).root = tree.root)) := by
  obtain ⟨left', right', found, place⟩ := Stored.find stored distinct member
  cases found.unique subtree rfl
  rcases place with rfl | ⟨sublist, p', above, below'⟩
  · have own : p = value := Option.some.inj (below.parent.symm.trans (up b rfl))
    have gone : (SkewTree.node left b right).erase before b = SkewTree.merge before left right := by
      rw [SkewTree.erase, if_pos rfl]
    rw [gone]
    exact ⟨fun _ inside => inside, merged, own ▸ cut.up, Or.inl ⟨own, rfl, rfl⟩⟩
  · cases Option.some.inj (below'.parent.symm.trans below.parent)
    have away : tree.root ≠ some b := fun same => SkewTree.root_above distinct same (sublist.subset List.mem_cons_self)
    rw [erase_root away]
    refine ⟨fun node inside => List.mem_of_mem_tail (sublist.subset inside), inner away, ?_, Or.inr ⟨above, rfl⟩⟩
    intro child top
    rw [cut.parent child (fun inside => SkewTree.root_above distinct top (sublist.subset inside))]
    exact up child top

private theorem Cut.erased (stored : nodes.Stored tree) (distinct : tree.elems.Nodup) (member : b ∈ tree.elems)
    (inner : tree.root ≠ some b) : after.Stored (tree.erase before b) := by
  induction tree with
  | leaf => cases member
  | node leftTree value rightTree leftIh rightIh =>
    obtain ⟨fresh, rest⟩ := List.nodup_cons.mp distinct
    obtain ⟨leftDistinct, rightDistinct, disjoint⟩ := List.nodup_append.mp rest
    obtain ⟨leftChild, rightChild, leftParent, rightParent, leftStored, rightStored⟩ := stored
    have away : value ≠ b := fun same => inner (congrArg some same)
    rw [SkewTree.erase, if_neg away]
    have lower := (List.mem_cons.mp member).resolve_left away.symm
    rw [List.mem_append, not_or] at fresh
    rcases List.mem_append.mp lower with inside | inside
    · have absent : b ∉ rightTree.elems := fun inside' => disjoint b inside b inside' rfl
      have outside : p ∉ rightTree.elems := fun inside' => absent (Stored.child_mem rightStored inside' below.child)
      obtain ⟨within, stored', up, place⟩ := cut.side below subtree merged leftStored leftDistinct inside leftParent
        (leftIh leftStored leftDistinct inside)
      have clear : ∀ node ∈ rightTree.elems, node ∉ (SkewTree.node left b right).elems :=
        fun node inside' member' => disjoint node (within node member') node inside' rfl
      have untouched : value ∉ (SkewTree.node left b right).elems := fun member' => fresh.1 (within value member')
      have children : after.left value = (leftTree.erase before b).root ∧ after.right value = rightTree.root := by
        rcases place with ⟨rfl, top, root⟩ | ⟨above, root⟩
        · have placed := cut.place
          rw [if_pos (leftChild.trans top)] at placed
          exact ⟨placed.1.trans root.symm, placed.2.trans rightChild⟩
        · have other : value ≠ p := (ne_of_mem_of_not_mem above fresh.1).symm
          rw [cut.left value untouched other, cut.right value untouched other, root]
          exact ⟨leftChild, rightChild⟩
      rw [SkewTree.erase_absent absent]
      refine ⟨children.1, children.2, up, ?_, stored', cut.stored rightStored clear outside⟩
      intro child top
      rw [cut.parent child (clear child (SkewTree.root_mem top))]
      exact rightParent child top
    · have absent : b ∉ leftTree.elems := fun inside' => disjoint b inside' b inside rfl
      have outside : p ∉ leftTree.elems := fun inside' => absent (Stored.child_mem leftStored inside' below.child)
      obtain ⟨within, stored', up, place⟩ := cut.side below subtree merged rightStored rightDistinct inside rightParent
        (rightIh rightStored rightDistinct inside)
      have clear : ∀ node ∈ leftTree.elems, node ∉ (SkewTree.node left b right).elems :=
        fun node inside' member' => disjoint node inside' node (within node member') rfl
      have untouched : value ∉ (SkewTree.node left b right).elems := fun member' => fresh.2 (within value member')
      have children : after.left value = leftTree.root ∧ after.right value = (rightTree.erase before b).root := by
        rcases place with ⟨rfl, top, root⟩ | ⟨above, root⟩
        · have elsewhere : nodes.left p ≠ some b := fun same => absent (SkewTree.root_mem (leftChild.symm.trans same))
          have placed := cut.place
          rw [if_neg elsewhere] at placed
          exact ⟨placed.1.trans leftChild, placed.2.trans root.symm⟩
        · have other : value ≠ p := (ne_of_mem_of_not_mem above fresh.2).symm
          rw [cut.left value untouched other, cut.right value untouched other, root]
          exact ⟨leftChild, rightChild⟩
      rw [SkewTree.erase_absent absent]
      refine ⟨children.1, children.2, ?_, up, cut.stored leftStored clear outside, stored'⟩
      intro child top
      rw [cut.parent child (clear child (SkewTree.root_mem top))]
      exact leftParent child top

end Side

end Cut

private theorem skewHeapRemove_inner {fuel : Nat} {a rep : Option α} {middle : HeapNodes α}
    (merged : skewHeapMerge comp fuel (nodes.left b) (nodes.right b) nodes = .ok (rep, middle)) (parent : nodes.parent b = some p) :
    ∃ after, skewHeapRemove comp fuel a b nodes = .ok (a, after) ∧ (∀ node, rep ≠ some node → after.parent node = middle.parent node) ∧
      (∀ top ∈ rep, after.parent top = some p) ∧
      if middle.left p = some b then after.left = Function.update middle.left p rep ∧ after.right = middle.right
      else after.left = middle.left ∧ after.right = Function.update middle.right p rep := by
  rw [skewHeapRemove, merged, parent, ok_bind]
  cases rep with
  | none =>
    dsimp only
    by_cases here : middle.left p = some b
    · rw [if_pos here]
      exact ⟨_, rfl, fun _ _ => rfl, fun _ top => absurd top (Option.not_mem_none _), by rw [if_pos here]; exact ⟨rfl, rfl⟩⟩
    · rw [if_neg here]
      exact ⟨_, rfl, fun _ _ => rfl, fun _ top => absurd top (Option.not_mem_none _), by rw [if_neg here]; exact ⟨rfl, rfl⟩⟩
  | some child =>
    have others : ∀ node, some child ≠ some node → Function.update middle.parent child (some p) node = middle.parent node :=
      fun node away => Function.update_of_ne (fun same => away (congrArg some same.symm)) _ _
    have own : ∀ top ∈ some child, Function.update middle.parent child (some p) top = some p := by
      intro top here
      cases here
      exact Function.update_self _ _ _
    dsimp only
    by_cases here : middle.left p = some b
    · rw [if_pos here]
      exact ⟨_, rfl, others, own, by rw [if_pos here]; exact ⟨rfl, rfl⟩⟩
    · rw [if_neg here]
      exact ⟨_, rfl, others, own, by rw [if_neg here]; exact ⟨rfl, rfl⟩⟩

variable (comp) in
/-- Removing any node of the heap. -/
theorem skewHeapRemove_spec (fuel : Nat) (enough : tree.elems.length ≤ fuel) (distinct : tree.elems.Nodup)
    (stored : nodes.Stored tree) (top : ∀ root ∈ tree.root, nodes.parent root = none) (member : b ∈ tree.elems) :
    ∃ after, skewHeapRemove comp fuel tree.root b nodes = .ok ((tree.erase (firstBy comp) b).root, after) ∧
      after.Stored (tree.erase (firstBy comp) b) ∧ HeapFrame nodes after tree.elems ∧
      ∀ root ∈ (tree.erase (firstBy comp) b).root, after.parent root = none := by
  obtain ⟨left, right, subtree, place⟩ := Stored.find stored distinct member
  rcases place with rfl | ⟨sublist, p, above, below⟩
  · rw [SkewTree.elems_node, List.length_cons, List.length_append] at enough
    rw [SkewTree.erase, if_pos rfl]
    exact skewHeapRemove_root comp fuel left right b (by omega) distinct stored (top b rfl)
  · have within : (SkewTree.node left b right).elems.Sublist tree.elems := sublist.trans (List.tail_sublist _)
    have inner : tree.root ≠ some b := fun same => SkewTree.root_above distinct same (sublist.subset List.mem_cons_self)
    have apart : (left.elems ++ right.elems).Nodup := (List.nodup_cons.mp (distinct.sublist within)).2
    have size := within.length_le
    rw [SkewTree.elems_node, List.length_cons, List.length_append] at size
    have whole := subtree
    obtain ⟨leftChild, rightChild, -, -, leftStored, rightStored⟩ := subtree
    obtain ⟨middle, merged, mergedStored, frame, -⟩ := skewHeapMerge_spec comp fuel left right (by omega) apart leftStored rightStored
    rw [← leftChild, ← rightChild] at merged
    obtain ⟨after, done, others, up, place⟩ := skewHeapRemove_inner merged below.parent (a := tree.root)
    have inside : ∀ node ∈ (SkewTree.merge (firstBy comp) left right).elems, node ∈ left.elems ++ right.elems :=
      fun node member => (SkewTree.merge_elems (firstBy comp) left right).subset member
    have outside : ∀ node, node ∉ (SkewTree.node left b right).elems → node ∉ left.elems ++ right.elems :=
      fun node away member => away (List.mem_cons_of_mem _ member)
    have pLeft : middle.left p = nodes.left p := frame.left p (outside p below.apart)
    have pRight : middle.right p = nodes.right p := frame.right p (outside p below.apart)
    have leftOf : ∀ node, node ≠ p → after.left node = middle.left node := by
      intro node away
      split at place
      · rw [place.1, Function.update_of_ne away]
      · rw [place.1]
    have rightOf : ∀ node, node ≠ p → after.right node = middle.right node := by
      intro node away
      split at place
      · rw [place.2]
      · rw [place.2, Function.update_of_ne away]
    have parentOf : ∀ node, node ∉ (SkewTree.merge (firstBy comp) left right).elems → after.parent node = middle.parent node :=
      fun node away => others node (fun same => away (SkewTree.root_mem same))
    have cut : Cut nodes after b p (SkewTree.merge (firstBy comp) left right).root (SkewTree.node left b right).elems := by
      refine ⟨?_, ?_, ?_, ?_, up⟩
      · intro node away
        rw [parentOf node (fun member => outside node away (inside node member))]
        exact frame.parent node (outside node away)
      · intro node away apart
        rw [leftOf node apart]
        exact frame.left node (outside node away)
      · intro node away apart
        rw [rightOf node apart]
        exact frame.right node (outside node away)
      · rw [pLeft] at place
        split at place
        · rename_i here
          rw [if_pos here, place.1, place.2, Function.update_self]
          exact ⟨rfl, pRight⟩
        · rename_i here
          rw [if_neg here, place.1, place.2, Function.update_self]
          exact ⟨pLeft, rfl⟩
    have kept : after.Stored (SkewTree.merge (firstBy comp) left right) := by
      have away : ∀ node ∈ (SkewTree.merge (firstBy comp) left right).elems, node ≠ p := by
        rintro node member rfl
        exact below.apart (List.mem_cons_of_mem _ (inside node member))
      apply mergedStored.frame
      · exact fun node member => leftOf node (away node member)
      · exact fun node member => rightOf node (away node member)
      · intro node member
        apply others node
        intro same
        exact SkewTree.root_above ((SkewTree.merge_elems _ _ _).nodup_iff.mpr apart) same member
    have root : (tree.erase (firstBy comp) b).root = tree.root := erase_root inner
    rw [root]
    refine ⟨after, done, cut.erased below whole kept stored distinct member inner, ⟨?_, ?_, ?_⟩, ?_⟩
    · intro node away
      exact cut.parent node (fun member => away (within.subset member))
    · intro node away
      exact cut.left node (fun member => away (within.subset member)) (fun same => away (same ▸ above))
    · intro node away
      exact cut.right node (fun member => away (within.subset member)) (fun same => away (same ▸ above))
    · intro child here
      rw [cut.parent child (fun member => SkewTree.root_above distinct here (sublist.subset member))]
      exact top child here

section Order

/-- A total preorder as a comparison function. -/
structure Compares (comp : α → α → Int) : Prop where
  values : ∀ a b, comp a b = -1 ∨ comp a b = 0 ∨ comp a b = 1
  swap : ∀ a b, comp a b = -1 ↔ comp b a = 1
  trans : ∀ a b c, comp a b ≠ 1 → comp b c ≠ 1 → comp a c ≠ 1

omit [DecidableEq α] in
theorem Compares.over_iff (compares : Compares comp) (above below : α) :
    SkewTree.Over (firstBy comp) above below ↔ comp below above ≠ -1 := by
  rw [SkewTree.Over, firstBy, firstBy, decide_eq_true_eq, decide_eq_false_iff_not, compares.swap above below]
  omega

omit [DecidableEq α] in
theorem Compares.transitive (compares : Compares comp) (a b c : α) (first : SkewTree.Over (firstBy comp) a b)
    (second : SkewTree.Over (firstBy comp) b c) : SkewTree.Over (firstBy comp) a c := by
  rw [compares.over_iff, Ne, compares.swap] at first second ⊢
  exact compares.trans a b c first second

/-- The heap at `a` is `tree`. -/
structure HeapFormed (comp : α → α → Int) (nodes : HeapNodes α) (a : Option α) (tree : SkewTree α) : Prop where
  root : tree.root = a
  stored : nodes.Stored tree
  distinct : tree.elems.Nodup
  top : ∀ root ∈ a, nodes.parent root = none
  order : tree.Edges (fun above below => comp below above ≠ -1)

/-- The pointers of `members` are the same. -/
structure AgreeOn (nodes other : HeapNodes α) (members : List α) : Prop where
  parent : ∀ node ∈ members, other.parent node = nodes.parent node
  left : ∀ node ∈ members, other.left node = nodes.left node
  right : ∀ node ∈ members, other.right node = nodes.right node

/-- `operation` returns a heap of `members` with a minimal root. It writes no pointer
outside of `written`, and what the nodes outside of `reads` hold makes no difference to it. -/
def Returns (comp : α → α → Int) (nodes : HeapNodes α) (operation : HeapNodes α → Kern (Option α × HeapNodes α))
    (reads written members : List α) : Prop :=
  ∃ root after tree, operation nodes = .ok (root, after) ∧ HeapFormed comp after root tree ∧ tree.elems.Perm members ∧
    (∀ top ∈ root, ∀ node ∈ members, comp node top ≠ -1) ∧ HeapFrame nodes after written ∧
    ∀ other, AgreeOn nodes other reads → ∃ after', operation other = .ok (root, after') ∧ AgreeOn after after' members

variable {a : Option α} {first second result : SkewTree α} {reads written members : List α}

omit [DecidableEq α] in
theorem HeapFormed.congr (formed : HeapFormed comp nodes a tree) (agree : AgreeOn nodes other reads) (within : tree.elems ⊆ reads) :
    HeapFormed comp other a tree := by
  obtain ⟨root, stored, distinct, top, order⟩ := formed
  refine ⟨root, stored.frame ?_ ?_ ?_, distinct, ?_, order⟩
  · exact fun node inside => agree.left node (within inside)
  · exact fun node inside => agree.right node (within inside)
  · exact fun node inside => agree.parent node (within (List.mem_of_mem_tail inside))
  · intro child here
    rw [agree.parent child (within (SkewTree.root_mem (root.trans here)))]
    exact top child here

omit [DecidableEq α] in
theorem HeapFormed.agree (formed : HeapFormed comp nodes a tree) (formed' : HeapFormed comp other a tree) :
    AgreeOn nodes other tree.elems := by
  obtain ⟨children, parents⟩ := formed.stored.alike formed'.stored
  refine ⟨?_, fun node inside => (children node inside).1, fun node inside => (children node inside).2⟩
  intro node inside
  cases tree with
  | leaf => cases inside
  | node left value right =>
    rcases List.mem_cons.mp inside with rfl | lower
    · exact (formed'.top node formed.root.symm).trans (formed.top node formed.root.symm).symm
    · exact parents node lower

omit [DecidableEq α] in
private theorem Returns.intro {operation : HeapNodes α → Kern (Option α × HeapNodes α)} (compares : Compares comp)
    (members_eq : result.elems.Perm members) (distinct : result.elems.Nodup) (order : result.Edges (SkewTree.Over (firstBy comp)))
    (spec : ∀ other, AgreeOn nodes other reads → ∃ after, operation other = .ok (result.root, after) ∧ after.Stored result ∧
      HeapFrame other after written ∧ ∀ root ∈ result.root, after.parent root = none) :
    Returns comp nodes operation reads written members := by
  have edges : result.Edges (fun above below => comp below above ≠ -1) :=
    order.congr (fun above _ below _ edge => (compares.over_iff above below).mp edge)
  obtain ⟨after, done, stored, frame, top⟩ := spec nodes ⟨fun _ _ => rfl, fun _ _ => rfl, fun _ _ => rfl⟩
  have formed : HeapFormed comp after result.root result := ⟨rfl, stored, distinct, top, edges⟩
  refine ⟨result.root, after, result, done, formed, members_eq, ?_, frame, ?_⟩
  · intro root here node member
    rw [← compares.over_iff]
    refine order.root_le ?_ (fun a _ b _ c _ => compares.transitive a b c) here (members_eq.symm.subset member)
    intro a _
    rw [compares.over_iff, Ne, compares.swap]
    intro positive
    have negative := (compares.swap a a).mpr positive
    omega
  · intro other agree
    obtain ⟨after', done', stored', -, top'⟩ := spec other agree
    have formed' : HeapFormed comp after' result.root result := ⟨rfl, stored', distinct, top', edges⟩
    have same := formed.agree formed'
    exact ⟨after', done', fun node member => same.parent node (members_eq.symm.subset member),
      fun node member => same.left node (members_eq.symm.subset member),
      fun node member => same.right node (members_eq.symm.subset member)⟩

omit [DecidableEq α] in
theorem HeapFormed.edges (formed : HeapFormed comp nodes a tree) (compares : Compares comp) :
    tree.Edges (SkewTree.Over (firstBy comp)) :=
  formed.order.congr (fun above _ below _ edge => (compares.over_iff above below).mpr edge)

theorem skewHeapMerge_returns (compares : Compares comp) {a b : Option α} (left : HeapFormed comp nodes a first)
    (right : HeapFormed comp nodes b second) (apart : (first.elems ++ second.elems).Nodup) {fuel : Nat}
    (enough : first.elems.length + second.elems.length ≤ fuel) :
    Returns comp nodes (skewHeapMerge comp fuel a b) (first.elems ++ second.elems) (first.elems ++ second.elems)
      (first.elems ++ second.elems) := by
  have same := SkewTree.merge_elems (firstBy comp) first second
  refine .intro compares same (same.nodup_iff.mpr apart) (SkewTree.merge_edges (left.edges compares) (right.edges compares)) ?_
  intro other agree
  have left' := left.congr agree (List.subset_append_left _ _)
  have right' := right.congr agree (List.subset_append_right _ _)
  obtain ⟨after, done, stored, frame, parent⟩ := skewHeapMerge_spec comp fuel first second enough apart left'.stored right'.stored
  rw [left'.root, right'.root] at done
  refine ⟨after, done, stored, frame, ?_⟩
  intro root here
  rw [parent root here]
  rcases SkewTree.merge_root (firstBy comp) first second with old | old
  · exact left'.top root (left'.root ▸ old ▸ here)
  · exact right'.top root (right'.root ▸ old ▸ here)

theorem skewHeapInsert_returns (compares : Compares comp) (formed : HeapFormed comp nodes a tree) (fresh : b ∉ tree.elems)
    {fuel : Nat} (enough : tree.elems.length + 1 ≤ fuel) :
    Returns comp nodes (skewHeapInsert comp fuel a b) tree.elems (b :: tree.elems) (b :: tree.elems) := by
  have same : (SkewTree.merge (firstBy comp) tree (.node .leaf b .leaf)).elems.Perm (b :: tree.elems) :=
    (SkewTree.merge_elems _ _ _).trans (List.perm_append_singleton b tree.elems)
  refine .intro compares same (same.nodup_iff.mpr (List.nodup_cons.mpr ⟨fresh, formed.distinct⟩))
    (SkewTree.merge_edges (formed.edges compares) (SkewTree.edges_single _ b)) ?_
  intro other agree
  have formed' := formed.congr agree (List.Subset.refl _)
  have spec := skewHeapInsert_spec comp fuel tree b enough fresh formed'.distinct formed'.stored (formed'.root ▸ formed'.top)
  rw [formed'.root] at spec
  exact spec

theorem skewHeapRemove_returns (compares : Compares comp) (formed : HeapFormed comp nodes a tree) (member : b ∈ tree.elems)
    {fuel : Nat} (enough : tree.elems.length ≤ fuel) :
    Returns comp nodes (skewHeapRemove comp fuel a b) tree.elems tree.elems (tree.elems.erase b) := by
  have same : (tree.erase (firstBy comp) b).elems.Perm (tree.elems.erase b) := SkewTree.erase_elems formed.distinct
  refine .intro compares same (same.nodup_iff.mpr (formed.distinct.erase b))
    (SkewTree.erase_edges (formed.edges compares) compares.transitive).1 ?_
  intro other agree
  have formed' := formed.congr agree (List.Subset.refl _)
  have spec := skewHeapRemove_spec comp fuel enough formed'.distinct formed'.stored (formed'.root ▸ formed'.top) member
  rw [formed'.root] at spec
  exact spec

/-- Merging, inserting and removing in well-formed heaps, with as many calls of
`skew_heap_merge` as there are nodes. -/
theorem skew_heap : ∀ (comp : α → α → Int), Compares comp →
    (∀ nodes a b first second, HeapFormed comp nodes a first → HeapFormed comp nodes b second →
      (first.elems ++ second.elems).Nodup → ∀ fuel, first.elems.length + second.elems.length ≤ fuel →
      Returns comp nodes (skewHeapMerge comp fuel a b) (first.elems ++ second.elems) (first.elems ++ second.elems)
        (first.elems ++ second.elems)) ∧
    (∀ nodes a tree, HeapFormed comp nodes a tree → ∀ b ∉ tree.elems, ∀ fuel, tree.elems.length + 1 ≤ fuel →
      Returns comp nodes (skewHeapInsert comp fuel a b) tree.elems (b :: tree.elems) (b :: tree.elems)) ∧
    ∀ nodes a tree, HeapFormed comp nodes a tree → ∀ c ∈ tree.elems, ∀ fuel, tree.elems.length ≤ fuel →
      Returns comp nodes (skewHeapRemove comp fuel a c) tree.elems tree.elems (tree.elems.erase c) := by
  intro comp compares
  refine ⟨?_, ?_, ?_⟩
  · intro nodes a b first second left right apart fuel enough
    exact skewHeapMerge_returns compares left right apart enough
  · intro nodes a tree formed b fresh fuel enough
    exact skewHeapInsert_returns compares formed fresh enough
  · intro nodes a tree formed c member fuel enough
    exact skewHeapRemove_returns compares formed member enough

def byNumber (a b : Nat) : Int := ((a : Int) - b).sign

theorem byNumber_compares : Compares byNumber := by
  refine ⟨?_, ?_, ?_⟩
  · intro a b
    rcases Int.sign_trichotomy ((a : Int) - b) with one | zero | minus
    · exact Or.inr (Or.inr one)
    · exact Or.inr (Or.inl zero)
    · exact Or.inl minus
  · intro a b
    rw [byNumber, byNumber, Int.sign_eq_neg_one_iff_neg, Int.sign_eq_one_iff_pos]
    omega
  · intro a b c
    simp only [byNumber, Ne, Int.sign_eq_one_iff_pos]
    omega

/-- The numbers 1, 2 and 3 one below the other. -/
def threeDown : HeapNodes Nat where
  parent node := if node = 2 then some 1 else if node = 3 then some 2 else none
  left node := if node = 1 then some 2 else none
  right node := if node = 2 then some 3 else none

def threeTree : SkewTree Nat := .node (.node .leaf 2 (.node .leaf 3 .leaf)) 1 .leaf

theorem threeDown_formed : HeapFormed byNumber threeDown (some 1) threeTree := by
  refine ⟨rfl, ?_, by decide, ?_, ?_⟩
  · simp [threeTree, threeDown, HeapNodes.Stored]
  · intro root top
    cases top
    rfl
  · simp [threeTree, SkewTree.Edges, byNumber]

/-- The node in the middle is removed. -/
theorem skew_heap_middle : Returns byNumber threeDown (skewHeapRemove byNumber 3 (some 1) 2)
    [1, 2, 3] [1, 2, 3] [1, 3] := by
  exact (skew_heap byNumber byNumber_compares).2.2 threeDown (some 1) threeTree threeDown_formed 2 (by decide) 3 (by decide)

end Order

end Ucore
