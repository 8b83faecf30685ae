import Mathlib

/-! Skew heaps: the trees, their merge, and when a store of parent and child
pointers holds a tree. The order is a relation of its own, so that it may come
from keys that the comparison only agrees with on the nodes at hand. -/

namespace Ucore.Lib

universe u

inductive SkewTree (α : Type u) where
  | leaf
  | node (left : SkewTree α) (value : α) (right : SkewTree α)

namespace SkewTree

variable {α : Type u}

def root : SkewTree α → Option α
  | leaf => none
  | node _ value _ => some value

def elems : SkewTree α → List α
  | leaf => []
  | node left value right => value :: (left.elems ++ right.elems)

@[simp] theorem root_leaf : (leaf : SkewTree α).root = none := rfl

@[simp] theorem root_node (left right : SkewTree α) (value : α) : (node left value right).root = some value := rfl

@[simp] theorem elems_leaf : (leaf : SkewTree α).elems = [] := rfl

@[simp] theorem elems_node (left right : SkewTree α) (value : α) :
    (node left value right).elems = value :: (left.elems ++ right.elems) := rfl

theorem root_eq_head (tree : SkewTree α) : tree.root = tree.elems.head? := by
  cases tree <;> rfl

theorem root_mem {tree : SkewTree α} {value : α} (top : tree.root = some value) : value ∈ tree.elems := by
  cases tree with
  | leaf => cases top
  | node left top' right =>
    cases top
    exact List.mem_cons_self

theorem root_above {tree : SkewTree α} {value : α} (distinct : tree.elems.Nodup) (top : tree.root = some value) :
    value ∉ tree.elems.tail := by
  cases tree with
  | leaf => cases top
  | node left top' right =>
    cases top
    exact (List.nodup_cons.mp distinct).1

/-- The tree whose root is strictly first stays on top, takes the other into its
right subtree, and swaps its two sides. -/
def merge (before : α → α → Bool) : SkewTree α → SkewTree α → SkewTree α
  | leaf, second => second
  | node left value right, leaf => node left value right
  | node left₁ value₁ right₁, node left₂ value₂ right₂ =>
    if before value₁ value₂ then
      node (merge before right₁ (node left₂ value₂ right₂)) value₁ left₁
    else
      node (merge before (node left₁ value₁ right₁) right₂) value₂ left₂
termination_by first second => first.elems.length + second.elems.length

variable {before : α → α → Bool}

variable (before) in
theorem merge_root (first second : SkewTree α) :
    (merge before first second).root = first.root ∨ (merge before first second).root = second.root := by
  cases first with
  | leaf => exact Or.inr (by rw [merge])
  | node left₁ value₁ right₁ =>
    cases second with
    | leaf => exact Or.inl (by rw [merge])
    | node left₂ value₂ right₂ =>
      rw [merge]
      split
      · exact Or.inl rfl
      · exact Or.inr rfl

variable (before) in
theorem merge_elems (first second : SkewTree α) :
    (merge before first second).elems.Perm (first.elems ++ second.elems) := by
  fun_induction merge before first second with
  | case1 second => exact List.Perm.refl _
  | case2 left value right => simp
  | case3 left₁ value₁ right₁ left₂ value₂ right₂ first ih =>
    simp only [elems_node, List.cons_append, List.append_assoc] at ih ⊢
    exact List.Perm.cons _ (List.perm_append_comm.trans (List.Perm.append_left _ ih))
  | case4 left₁ value₁ right₁ left₂ value₂ right₂ first ih =>
    simp only [elems_node] at ih ⊢
    refine (List.Perm.cons _ ((List.Perm.append_right left₂.elems ih).trans ?_)).trans
      List.perm_middle.symm
    rw [List.append_assoc]
    exact List.Perm.append_left _ List.perm_append_comm

/-- `good` holds between each node and its children. -/
def Edges (good : α → α → Prop) : SkewTree α → Prop
  | leaf => True
  | node left value right =>
    ((∀ child ∈ left.root, good value child) ∧ ∀ child ∈ right.root, good value child) ∧ left.Edges good ∧ right.Edges good

theorem edges_single (good : α → α → Prop) (value : α) : (node leaf value leaf).Edges good := by
  refine ⟨⟨?_, ?_⟩, trivial, trivial⟩
  · intro child top
    cases top
  · intro child top
    cases top

/-- A comparison of the two may have put `above` on top of `below`. -/
def Over (before : α → α → Bool) (above below : α) : Prop := before above below = true ∨ before below above = false

theorem merge_edges {first second : SkewTree α} (firstEdges : first.Edges (Over before)) (secondEdges : second.Edges (Over before)) :
    (merge before first second).Edges (Over before) := by
  fun_induction merge before first second with
  | case1 second => exact secondEdges
  | case2 left value right => exact firstEdges
  | case3 left₁ value₁ right₁ left₂ value₂ right₂ earlier ih =>
    obtain ⟨⟨below₁, below₂⟩, leftEdges, rightEdges⟩ := firstEdges
    refine ⟨⟨?_, below₁⟩, ih rightEdges secondEdges, leftEdges⟩
    intro child top
    rcases merge_root before right₁ (node left₂ value₂ right₂) with old | new
    · exact below₂ child (old ▸ top)
    · rw [new] at top
      cases top
      exact Or.inl earlier
  | case4 left₁ value₁ right₁ left₂ value₂ right₂ later ih =>
    obtain ⟨⟨below₁, below₂⟩, leftEdges, rightEdges⟩ := secondEdges
    refine ⟨⟨?_, below₁⟩, ih firstEdges rightEdges, leftEdges⟩
    intro child top
    rcases merge_root before (node left₁ value₁ right₁) right₂ with new | old
    · rw [new] at top
      cases top
      exact Or.inr (Bool.eq_false_iff.mpr later)
    · exact below₂ child (old ▸ top)

theorem Edges.congr {good other : α → α → Prop} {tree : SkewTree α} (edges : tree.Edges good)
    (same : ∀ a ∈ tree.elems, ∀ b ∈ tree.elems, good a b → other a b) : tree.Edges other := by
  induction tree with
  | leaf => trivial
  | node left value right leftIh rightIh =>
    obtain ⟨⟨below₁, below₂⟩, leftEdges, rightEdges⟩ := edges
    refine ⟨⟨?_, ?_⟩, leftIh leftEdges ?_, rightIh rightEdges ?_⟩
    · intro child top
      exact same value List.mem_cons_self child (by simp [root_mem top]) (below₁ child top)
    · intro child top
      exact same value List.mem_cons_self child (by simp [root_mem top]) (below₂ child top)
    · intro a inside b member
      exact same a (by simp [inside]) b (by simp [member])
    · intro a inside b member
      exact same a (by simp [inside]) b (by simp [member])

/-- Along edges that a transitive relation permits the root comes before every node. -/
theorem Edges.root_le {le : α → α → Prop} {tree : SkewTree α} {value other : α} (edges : tree.Edges le)
    (reflexive : ∀ a ∈ tree.elems, le a a)
    (transitive : ∀ a ∈ tree.elems, ∀ b ∈ tree.elems, ∀ c ∈ tree.elems, le a b → le b c → le a c)
    (top : tree.root = some value) (member : other ∈ tree.elems) : le value other := by
  induction tree generalizing value with
  | leaf => cases top
  | node left middle right leftIh rightIh =>
    obtain rfl : middle = value := Option.some.inj top
    obtain ⟨⟨below₁, below₂⟩, leftEdges, rightEdges⟩ := edges
    have lower : ∀ side : SkewTree α, side.elems ⊆ left.elems ++ right.elems → (∀ child ∈ side.root, le middle child) →
        (∀ {child}, side.root = some child → other ∈ side.elems → le child other) → other ∈ side.elems → le middle other := by
      intro side inside below path here
      cases branch : side.root with
      | none =>
        rw [root_eq_head, List.head?_eq_none_iff] at branch
        rw [branch] at here
        cases here
      | some child =>
        exact transitive middle List.mem_cons_self child (List.mem_cons_of_mem _ (inside (root_mem branch))) other member
          (below child branch) (path branch here)
    rcases List.mem_cons.mp member with rfl | inside
    · exact reflexive _ List.mem_cons_self
    · rcases List.mem_append.mp inside with early | late
      · refine lower left (List.subset_append_left _ _) below₁ ?_ early
        intro child branch here
        refine leftIh leftEdges (fun a inside => reflexive a (by simp [inside])) ?_ branch here
        exact fun a ha b hb c hc => transitive a (by simp [ha]) b (by simp [hb]) c (by simp [hc])
      · refine lower right (List.subset_append_right _ _) below₂ ?_ late
        intro child branch here
        refine rightIh rightEdges (fun a inside => reflexive a (by simp [inside])) ?_ branch here
        exact fun a ha b hb c hc => transitive a (by simp [ha]) b (by simp [hb]) c (by simp [hc])

section Erase

variable [DecidableEq α] {value : α}

variable (before) in
/-- The children of `value` are merged, and the merge takes its place. -/
def erase (value : α) : SkewTree α → SkewTree α
  | leaf => leaf
  | node left top right =>
    if top = value then merge before left right else node (left.erase value) top (right.erase value)

theorem erase_absent {tree : SkewTree α} (absent : value ∉ tree.elems) : tree.erase before value = tree := by
  induction tree with
  | leaf => rfl
  | node left top right leftIh rightIh =>
    simp only [elems_node, List.mem_cons, List.mem_append, not_or] at absent
    rw [erase, if_neg (Ne.symm absent.1), leftIh absent.2.1, rightIh absent.2.2]

theorem erase_elems {tree : SkewTree α} (distinct : tree.elems.Nodup) :
    (tree.erase before value).elems.Perm (tree.elems.erase value) := by
  induction tree with
  | leaf => exact List.Perm.refl _
  | node left top right leftIh rightIh =>
    rw [elems_node] at distinct ⊢
    obtain ⟨-, rest⟩ := List.nodup_cons.mp distinct
    obtain ⟨leftDistinct, rightDistinct, disjoint⟩ := List.nodup_append.mp rest
    by_cases same : top = value
    · rw [erase, if_pos same, same, List.erase_cons_head]
      exact merge_elems _ _ _
    · rw [erase, if_neg same, List.erase_cons_tail (by simpa using same), elems_node]
      apply List.Perm.cons
      by_cases inside : value ∈ left.elems
      · have absent : value ∉ right.elems := fun member => disjoint value inside value member rfl
        rw [List.erase_append_left _ inside, erase_absent absent]
        exact List.Perm.append_right _ (leftIh leftDistinct)
      · rw [List.erase_append_right _ inside, erase_absent inside]
        exact List.Perm.append_left _ (rightIh rightDistinct)

/-- Erasing keeps the edges in order, and what was above the root stays above it. -/
theorem erase_edges {tree : SkewTree α} (edges : tree.Edges (Over before))
    (transitive : ∀ a b c, Over before a b → Over before b c → Over before a c) :
    (tree.erase before value).Edges (Over before) ∧ ∀ above, (∀ top ∈ tree.root, Over before above top) →
      ∀ top ∈ (tree.erase before value).root, Over before above top := by
  induction tree with
  | leaf => exact ⟨trivial, fun _ below => below⟩
  | node left top right leftIh rightIh =>
    obtain ⟨⟨below₁, below₂⟩, leftEdges, rightEdges⟩ := edges
    by_cases same : top = value
    · rw [erase, if_pos same]
      refine ⟨merge_edges leftEdges rightEdges, fun above below child branch => ?_⟩
      have upper := below top rfl
      rcases merge_root before left right with root | root
      · exact transitive _ _ _ upper (below₁ child (root ▸ branch))
      · exact transitive _ _ _ upper (below₂ child (root ▸ branch))
    · rw [erase, if_neg same]
      obtain ⟨leftAfter, leftRoot⟩ := leftIh leftEdges
      obtain ⟨rightAfter, rightRoot⟩ := rightIh rightEdges
      exact ⟨⟨⟨leftRoot top below₁, rightRoot top below₂⟩, leftAfter, rightAfter⟩, fun _ below => below⟩

end Erase

end SkewTree

/-- Parent and child pointers of heap nodes. -/
structure HeapNodes (α : Type u) where
  parent : α → Option α
  left : α → Option α
  right : α → Option α

namespace HeapNodes

variable {α : Type u} {nodes other : HeapNodes α} {tree : SkewTree α}

/-- The pointers below the root are those of the tree. Nothing is said about the
root's own parent. -/
def Stored (nodes : HeapNodes α) : SkewTree α → Prop
  | .leaf => True
  | .node left value right =>
    nodes.left value = left.root ∧ nodes.right value = right.root ∧
      (∀ child ∈ left.root, nodes.parent child = some value) ∧
      (∀ child ∈ right.root, nodes.parent child = some value) ∧
      nodes.Stored left ∧ nodes.Stored right

theorem Stored.frame (stored : nodes.Stored tree)
    (left : ∀ node ∈ tree.elems, other.left node = nodes.left node)
    (right : ∀ node ∈ tree.elems, other.right node = nodes.right node)
    (parent : ∀ node ∈ tree.elems.tail, other.parent node = nodes.parent node) : other.Stored tree := by
  induction tree with
  | leaf => trivial
  | node leftTree value rightTree leftIh rightIh =>
    obtain ⟨leftChild, rightChild, leftParent, rightParent, leftStored, rightStored⟩ := stored
    simp only [SkewTree.elems_node, List.mem_cons, List.mem_append, List.tail_cons] at left right parent
    refine ⟨?_, ?_, ?_, ?_, leftIh leftStored ?_ ?_ ?_, rightIh rightStored ?_ ?_ ?_⟩
    · rw [left value (Or.inl rfl), leftChild]
    · rw [right value (Or.inl rfl), rightChild]
    · intro child top
      rw [parent child (Or.inl (SkewTree.root_mem top)), leftParent child top]
    · intro child top
      rw [parent child (Or.inr (SkewTree.root_mem top)), rightParent child top]
    · exact fun node inside => left node (Or.inr (Or.inl inside))
    · exact fun node inside => right node (Or.inr (Or.inl inside))
    · exact fun node inside => parent node (Or.inl (List.mem_of_mem_tail inside))
    · exact fun node inside => left node (Or.inr (Or.inr inside))
    · exact fun node inside => right node (Or.inr (Or.inr inside))
    · exact fun node inside => parent node (Or.inr (List.mem_of_mem_tail inside))

/-- Two stores of one tree have the same pointers in it. -/
theorem Stored.alike (stored : nodes.Stored tree) (stored' : other.Stored tree) :
    (∀ node ∈ tree.elems, other.left node = nodes.left node ∧ other.right node = nodes.right node) ∧
      ∀ node ∈ tree.elems.tail, other.parent node = nodes.parent node := by
  induction tree with
  | leaf => exact ⟨fun _ inside => absurd inside List.not_mem_nil, fun _ inside => absurd inside List.not_mem_nil⟩
  | node left value right leftIh rightIh =>
    obtain ⟨leftChild, rightChild, leftParent, rightParent, leftStored, rightStored⟩ := stored
    obtain ⟨leftChild', rightChild', leftParent', rightParent', leftStored', rightStored'⟩ := stored'
    obtain ⟨leftChildren, leftParents⟩ := leftIh leftStored leftStored'
    obtain ⟨rightChildren, rightParents⟩ := rightIh rightStored rightStored'
    have below : ∀ side : SkewTree α, (∀ child ∈ side.root, other.parent child = nodes.parent child) →
        (∀ node ∈ side.elems.tail, other.parent node = nodes.parent node) →
        ∀ node ∈ side.elems, other.parent node = nodes.parent node := by
      intro side root rest node inside
      cases side with
      | leaf => cases inside
      | node _ top _ =>
        rcases List.mem_cons.mp inside with rfl | lower
        · exact root _ rfl
        · exact rest node lower
    constructor
    · intro node inside
      simp only [SkewTree.elems_node, List.mem_cons, List.mem_append] at inside
      rcases inside with rfl | inside | inside
      · exact ⟨leftChild'.trans leftChild.symm, rightChild'.trans rightChild.symm⟩
      · exact leftChildren node inside
      · exact rightChildren node inside
    · intro node inside
      simp only [SkewTree.elems_node, List.tail_cons, List.mem_append] at inside
      rcases inside with inside | inside
      · exact below left (fun child top => (leftParent' child top).trans (leftParent child top).symm) leftParents node inside
      · exact below right (fun child top => (rightParent' child top).trans (rightParent child top).symm) rightParents node inside

theorem Stored.unique {tree' : SkewTree α} (stored : nodes.Stored tree) (stored' : nodes.Stored tree') (same : tree.root = tree'.root) :
    tree = tree' := by
  induction tree generalizing tree' with
  | leaf =>
    cases tree' with
    | leaf => rfl
    | node left value right => cases same
  | node left value right leftIh rightIh =>
    cases tree' with
    | leaf => cases same
    | node left' value' right' =>
      cases same
      obtain ⟨leftChild, rightChild, -, -, leftStored, rightStored⟩ := stored
      obtain ⟨leftChild', rightChild', -, -, leftStored', rightStored'⟩ := stored'
      rw [leftIh leftStored leftStored' (leftChild.symm.trans leftChild'),
        rightIh rightStored rightStored' (rightChild.symm.trans rightChild')]

end HeapNodes

end Ucore.Lib
