import Ucore.Halt
import Ucore.Lib.SkewTree

/-! The pointer skew heap of `skew_heap.h`, and that its merge is the merge of
the trees it stores. `fuel` bounds the depth of the recursion. -/

namespace Ucore
open Lib

variable {α : Type} [DecidableEq α]

/-- `a->left = a->right = a->parent = NULL` -/
def skewHeapInit (a : α) (nodes : HeapNodes α) : HeapNodes α where
  parent := Function.update nodes.parent a none
  left := Function.update nodes.left a none
  right := Function.update nodes.right a none

/-- `a->left = l; a->right = r; if (l) l->parent = a` -/
def adopt (a : α) (l r : Option α) (nodes : HeapNodes α) : HeapNodes α where
  parent := match l with
    | some child => Function.update nodes.parent child (some a)
    | none => nodes.parent
  left := Function.update nodes.left a l
  right := Function.update nodes.right a r

def skewHeapMerge (comp : α → α → Int) : Nat → Option α → Option α → HeapNodes α → Kern (Option α × HeapNodes α)
  | _, none, b, nodes => .ok (b, nodes)
  | _, some a, none, nodes => .ok (some a, nodes)
  | 0, some _, some _, _ => .error .diverge
  | fuel + 1, some a, some b, nodes =>
    if comp a b = -1 then do
      let r := nodes.left a
      let (l, nodes) ← skewHeapMerge comp fuel (nodes.right a) (some b) nodes
      .ok (some a, adopt a l r nodes)
    else do
      let r := nodes.left b
      let (l, nodes) ← skewHeapMerge comp fuel (some a) (nodes.right b) nodes
      .ok (some b, adopt b l r nodes)

def skewHeapInsert (comp : α → α → Int) (fuel : Nat) (a : Option α) (b : α) (nodes : HeapNodes α) :
    Kern (Option α × HeapNodes α) :=
  skewHeapMerge comp fuel a (some b) (skewHeapInit b nodes)

def skewHeapRemove (comp : α → α → Int) (fuel : Nat) (a : Option α) (b : α) (nodes : HeapNodes α) :
    Kern (Option α × HeapNodes α) := do
  let p := nodes.parent b
  let (rep, nodes) ← skewHeapMerge comp fuel (nodes.left b) (nodes.right b) nodes
  let nodes := match rep with
    | some child => { nodes with parent := Function.update nodes.parent child p }
    | none => nodes
  match p with
  | some p =>
    if nodes.left p = some b then .ok (a, { nodes with left := Function.update nodes.left p rep })
    else .ok (a, { nodes with right := Function.update nodes.right p rep })
  | none => .ok (rep, nodes)

/-- The strict order `skew_heap_merge` reads off the comparison function. -/
def firstBy (comp : α → α → Int) (a b : α) : Bool := comp a b = -1

/-- Outside `members` the two stores are the same. -/
structure HeapFrame (nodes other : HeapNodes α) (members : List α) : Prop where
  parent : ∀ node, node ∉ members → other.parent node = nodes.parent node
  left : ∀ node, node ∉ members → other.left node = nodes.left node
  right : ∀ node, node ∉ members → other.right node = nodes.right node

section Merge

variable {comp : α → α → Int} {nodes : HeapNodes α}

omit [DecidableEq α] in
private theorem HeapFrame.stored {other : HeapNodes α} {members : List α} (frame : HeapFrame nodes other members)
    {tree : SkewTree α} (away : ∀ node ∈ tree.elems, node ∉ members) (stored : nodes.Stored tree) :
    other.Stored tree :=
  stored.frame (fun node inside => frame.left node (away node inside))
    (fun node inside => frame.right node (away node inside))
    (fun node inside => frame.parent node (away node (List.mem_of_mem_tail inside)))

private theorem adopt_frame (a : α) (l r : Option α) (nodes : HeapNodes α) (members : List α) (own : a ∈ members)
    (child : ∀ c ∈ l, c ∈ members) : HeapFrame nodes (adopt a l r nodes) members := by
  refine ⟨?_, ?_, ?_⟩
  · intro node outside
    cases l with
    | none => rfl
    | some c => exact Function.update_of_ne (ne_of_mem_of_not_mem (child c rfl) outside).symm _ _
  · intro node outside
    exact Function.update_of_ne (ne_of_mem_of_not_mem own outside).symm _ _
  · intro node outside
    exact Function.update_of_ne (ne_of_mem_of_not_mem own outside).symm _ _

private theorem adopt_stored {a : α} {left merged : SkewTree α} (fresh : a ∉ left.elems ++ merged.elems)
    (apart : (left.elems ++ merged.elems).Nodup) (leftStored : nodes.Stored left)
    (leftParent : ∀ child ∈ left.root, nodes.parent child = some a) (mergedStored : nodes.Stored merged) :
    (adopt a merged.root left.root nodes).Stored (.node merged a left) := by
  simp only [List.mem_append, not_or] at fresh
  obtain ⟨leftDistinct, mergedDistinct, disjoint⟩ := List.nodup_append.mp apart
  have parents : ∀ node, node ∉ merged.root → (adopt a merged.root left.root nodes).parent node = nodes.parent node := by
    intro node other
    cases top : merged.root with
    | none => rfl
    | some c => exact Function.update_of_ne (fun same => other (by rw [top, same]; rfl)) _ _
  refine ⟨Function.update_self _ _ _, Function.update_self _ _ _, ?_, ?_, ?_, ?_⟩
  · intro child top
    simp only [adopt, Option.mem_def.mp top, Function.update_self]
  · intro child top
    rw [parents child (fun other => disjoint child (SkewTree.root_mem top) child (SkewTree.root_mem other) rfl)]
    exact leftParent child top
  · apply mergedStored.frame
    · exact fun node inside => Function.update_of_ne (ne_of_mem_of_not_mem inside fresh.2) _ _
    · exact fun node inside => Function.update_of_ne (ne_of_mem_of_not_mem inside fresh.2) _ _
    · intro node inside
      apply parents
      exact fun top => SkewTree.root_above mergedDistinct top inside
  · apply leftStored.frame
    · exact fun node inside => Function.update_of_ne (ne_of_mem_of_not_mem inside fresh.1) _ _
    · exact fun node inside => Function.update_of_ne (ne_of_mem_of_not_mem inside fresh.1) _ _
    · intro node inside
      apply parents
      exact fun top => disjoint node (List.mem_of_mem_tail inside) node (SkewTree.root_mem top) rfl

omit [DecidableEq α] in
theorem HeapFrame.mono {other : HeapNodes α} {inner outer : List α} (frame : HeapFrame nodes other inner)
    (within : inner ⊆ outer) : HeapFrame nodes other outer where
  parent node outside := frame.parent node (fun inside => outside (within inside))
  left node outside := frame.left node (fun inside => outside (within inside))
  right node outside := frame.right node (fun inside => outside (within inside))

omit [DecidableEq α] in
private theorem HeapFrame.trans {middle after : HeapNodes α} {inner outer : List α}
    (first : HeapFrame nodes middle inner) (second : HeapFrame middle after outer)
    (within : inner ⊆ outer) : HeapFrame nodes after outer where
  parent node outside := (second.parent node outside).trans ((first.mono within).parent node outside)
  left node outside := (second.left node outside).trans ((first.mono within).left node outside)
  right node outside := (second.right node outside).trans ((first.mono within).right node outside)

private theorem adopt_merged {a : α} {left right other merged : SkewTree α} {middle : HeapNodes α}
    (members : merged.elems.Perm (right.elems ++ other.elems))
    (apart : (a :: (left.elems ++ right.elems) ++ other.elems).Nodup)
    (stored : nodes.Stored (.node left a right)) (mergedStored : middle.Stored merged)
    (frame : HeapFrame nodes middle (right.elems ++ other.elems)) :
    (adopt a merged.root left.root middle).Stored (.node merged a left) ∧
      HeapFrame nodes (adopt a merged.root left.root middle) (a :: (left.elems ++ right.elems) ++ other.elems) ∧
      (adopt a merged.root left.root middle).parent a = nodes.parent a := by
  simp only [List.cons_append, List.append_assoc, List.nodup_cons] at apart ⊢
  have together : (left.elems ++ merged.elems).Perm (left.elems ++ (right.elems ++ other.elems)) :=
    List.Perm.append_left _ members
  have fresh : a ∉ left.elems ++ merged.elems := fun inside => apart.1 (together.subset inside)
  have outside : a ∉ right.elems ++ other.elems := fun inside => apart.1 (List.mem_append_right _ inside)
  have away : ∀ node ∈ left.elems, node ∉ right.elems ++ other.elems := fun node inside member =>
    (List.nodup_append.mp apart.2).2.2 node inside node member rfl
  obtain ⟨_, _, leftParent, _, leftStored, _⟩ := stored
  refine ⟨adopt_stored fresh (together.nodup_iff.mpr apart.2) (frame.stored away leftStored) ?_ mergedStored, ?_, ?_⟩
  · intro child top
    rw [frame.parent child (away child (SkewTree.root_mem top)), leftParent child top]
  · refine frame.trans (adopt_frame a merged.root left.root middle _ List.mem_cons_self ?_) ?_
    · intro child top
      have inside := together.subset (List.mem_append_right _ (SkewTree.root_mem top))
      exact List.mem_cons_of_mem _ inside
    · exact fun node inside => List.mem_cons_of_mem _ (List.mem_append_right _ inside)
  · rw [← frame.parent a outside]
    cases top : merged.root with
    | none => rfl
    | some child =>
      have other : a ≠ child := by
        rintro rfl
        exact fresh (List.mem_append_right _ (SkewTree.root_mem top))
      exact Function.update_of_ne other _ _

variable (comp) in
/-- `skew_heap_merge` computes the merge of the two trees it is given, touches
only their nodes, and leaves the parent of the new root alone. -/
theorem skewHeapMerge_spec (fuel : Nat) (first second : SkewTree α)
    (enough : first.elems.length + second.elems.length ≤ fuel)
    (apart : (first.elems ++ second.elems).Nodup) (firstStored : nodes.Stored first)
    (secondStored : nodes.Stored second) :
    ∃ after, skewHeapMerge comp fuel first.root second.root nodes =
        .ok ((SkewTree.merge (firstBy comp) first second).root, after) ∧
      after.Stored (SkewTree.merge (firstBy comp) first second) ∧
      HeapFrame nodes after (first.elems ++ second.elems) ∧
      ∀ top ∈ (SkewTree.merge (firstBy comp) first second).root, after.parent top = nodes.parent top := by
  have same : HeapFrame nodes nodes (first.elems ++ second.elems) := ⟨fun _ _ => rfl, fun _ _ => rfl, fun _ _ => rfl⟩
  induction fuel generalizing first second with
  | zero =>
    cases first with
    | leaf => exact ⟨nodes, by simp [skewHeapMerge, SkewTree.merge], by simpa [SkewTree.merge] using secondStored, same, fun _ _ => rfl⟩
    | node left value right => simp at enough
  | succ fuel ih =>
    cases first with
    | leaf => exact ⟨nodes, by simp [skewHeapMerge, SkewTree.merge], by simpa [SkewTree.merge] using secondStored, same, fun _ _ => rfl⟩
    | node left₁ a right₁ =>
      cases second with
      | leaf => exact ⟨nodes, by simp [skewHeapMerge, SkewTree.merge], by simpa [SkewTree.merge] using firstStored, same, fun _ _ => rfl⟩
      | node left₂ b right₂ =>
        simp only [SkewTree.elems_node, List.length_cons, List.length_append] at enough
        rw [SkewTree.merge]
        by_cases earlier : comp a b = -1
        · have rest : (right₁.elems ++ (SkewTree.node left₂ b right₂).elems).Nodup :=
            List.Nodup.sublist (List.Sublist.append_right (List.Sublist.cons _ (List.sublist_append_right _ _)) _) apart
          obtain ⟨middle, merged, stored, frame, top⟩ := ih right₁ (.node left₂ b right₂)
            (by simp only [SkewTree.elems_node, List.length_cons, List.length_append]; omega) rest
            firstStored.2.2.2.2.2 secondStored ⟨fun _ _ => rfl, fun _ _ => rfl, fun _ _ => rfl⟩
          obtain ⟨adopted, outer, parent⟩ := adopt_merged (SkewTree.merge_elems _ _ _) apart firstStored stored frame
          refine ⟨_, ?_, by simpa [firstBy, earlier] using adopted, outer, ?_⟩
          · simp only [SkewTree.root_node, skewHeapMerge, earlier, if_true, firstStored.2.1, firstStored.1, firstBy, decide_true]
            rw [SkewTree.root_node] at merged
            rw [merged]
            rfl
          · intro node root
            simp only [firstBy, earlier, decide_true, if_true, SkewTree.root_node, Option.mem_def, Option.some.injEq] at root
            subst root
            exact parent
        · have rest : ((SkewTree.node left₁ a right₁).elems ++ right₂.elems).Nodup :=
            List.Nodup.sublist (List.Sublist.append_left (List.Sublist.cons _ (List.sublist_append_right _ _)) _) apart
          obtain ⟨middle, merged, stored, frame, top⟩ := ih (.node left₁ a right₁) right₂
            (by simp only [SkewTree.elems_node, List.length_cons, List.length_append]; omega) rest
            firstStored secondStored.2.2.2.2.2 ⟨fun _ _ => rfl, fun _ _ => rfl, fun _ _ => rfl⟩
          obtain ⟨adopted, outer, parent⟩ := adopt_merged ((SkewTree.merge_elems _ _ _).trans List.perm_append_comm)
            (List.perm_append_comm.nodup_iff.mp apart) secondStored stored
            (frame.mono List.perm_append_comm.subset)
          refine ⟨_, ?_, by simpa [firstBy, earlier] using adopted, outer.mono List.perm_append_comm.subset, ?_⟩
          · simp only [SkewTree.root_node, skewHeapMerge, earlier, if_false, secondStored.2.1, secondStored.1, firstBy,
              decide_false, Bool.false_eq_true]
            rw [SkewTree.root_node] at merged
            rw [merged]
            rfl
          · intro node root
            simp only [firstBy, earlier, decide_false, Bool.false_eq_true, if_false, SkewTree.root_node, Option.mem_def,
              Option.some.injEq] at root
            subst root
            exact parent

variable (comp) in
/-- Inserting a node that is not in the heap. -/
theorem skewHeapInsert_spec (fuel : Nat) (tree : SkewTree α) (b : α) (enough : tree.elems.length + 1 ≤ fuel)
    (fresh : b ∉ tree.elems) (distinct : tree.elems.Nodup) (stored : nodes.Stored tree)
    (top : ∀ root ∈ tree.root, nodes.parent root = none) :
    ∃ after, skewHeapInsert comp fuel tree.root b nodes =
        .ok ((SkewTree.merge (firstBy comp) tree (.node .leaf b .leaf)).root, after) ∧
      after.Stored (SkewTree.merge (firstBy comp) tree (.node .leaf b .leaf)) ∧
      HeapFrame nodes after (b :: tree.elems) ∧
      ∀ root ∈ (SkewTree.merge (firstBy comp) tree (.node .leaf b .leaf)).root, after.parent root = none := by
  have initial : HeapFrame nodes (skewHeapInit b nodes) [b] := by
    refine ⟨?_, ?_, ?_⟩ <;>
    · intro node outside
      exact Function.update_of_ne (fun same => outside (List.mem_singleton.mpr same)) _ _
  have away : ∀ node ∈ tree.elems, node ∉ [b] := fun node inside same => fresh (List.mem_singleton.mp same ▸ inside)
  have single : (skewHeapInit b nodes).Stored (.node .leaf b .leaf) := by
    refine ⟨Function.update_self _ _ _, Function.update_self _ _ _, ?_, ?_, trivial, trivial⟩ <;>
    · intro child top
      cases top
  obtain ⟨after, merged, afterStored, frame, parent⟩ := skewHeapMerge_spec comp fuel tree (.node .leaf b .leaf)
    (by simpa using enough) (List.nodup_append_comm.mp (List.nodup_cons.mpr ⟨by simpa using fresh, by simpa using distinct⟩))
    (initial.stored away stored) single
  refine ⟨after, merged, afterStored, initial.trans (frame.mono ?_) ?_, ?_⟩
  · exact List.perm_append_comm.subset
  · exact fun node same => List.mem_singleton.mp same ▸ List.mem_cons_self
  · intro root found
    rw [parent root found]
    rcases SkewTree.merge_root (firstBy comp) tree (.node .leaf b .leaf) with old | new
    · rw [old] at found
      rw [initial.parent root (away root (SkewTree.root_mem found)), top root found]
    · rw [new] at found
      cases found
      exact Function.update_self _ _ _

variable (comp) in
/-- Removing the root, as long as it has no parent. -/
theorem skewHeapRemove_root (fuel : Nat) (left right : SkewTree α) (b : α)
    (enough : left.elems.length + right.elems.length ≤ fuel)
    (distinct : (SkewTree.node left b right).elems.Nodup) (stored : nodes.Stored (.node left b right))
    (top : nodes.parent b = none) :
    ∃ after, skewHeapRemove comp fuel (some b) b nodes = .ok ((SkewTree.merge (firstBy comp) left right).root, after) ∧
      after.Stored (SkewTree.merge (firstBy comp) left right) ∧
      HeapFrame nodes after (b :: (left.elems ++ right.elems)) ∧
      ∀ root ∈ (SkewTree.merge (firstBy comp) left right).root, after.parent root = none := by
  obtain ⟨leftChild, rightChild, -, -, leftStored, rightStored⟩ := stored
  have rest := (List.nodup_cons.mp distinct).2
  obtain ⟨middle, merged, mergedStored, frame, -⟩ := skewHeapMerge_spec comp fuel left right enough rest leftStored
    rightStored
  have members := SkewTree.merge_elems (firstBy comp) left right
  rw [skewHeapRemove, leftChild, rightChild, merged, top]
  cases root : (SkewTree.merge (firstBy comp) left right).root with
  | none => exact ⟨middle, rfl, mergedStored, frame.mono (List.subset_cons_self _ _), fun _ found => by cases found⟩
  | some child =>
    have inside := members.subset (SkewTree.root_mem root)
    refine ⟨{ middle with parent := Function.update middle.parent child none }, rfl, ?_, ⟨?_, ?_, ?_⟩, ?_⟩
    · refine mergedStored.frame (fun _ _ => rfl) (fun _ _ => rfl) ?_
      intro node lower
      apply Function.update_of_ne
      exact ne_of_mem_of_not_mem lower (SkewTree.root_above (members.nodup_iff.mpr rest) root)
    · intro node outside
      have other : node ≠ child := (ne_of_mem_of_not_mem (List.mem_cons_of_mem b inside) outside).symm
      exact (Function.update_of_ne other _ _).trans
        (frame.parent node (fun member => outside (List.mem_cons_of_mem b member)))
    · exact fun node outside => frame.left node (fun member => outside (List.mem_cons_of_mem b member))
    · exact fun node outside => frame.right node (fun member => outside (List.mem_cons_of_mem b member))
    · intro node found
      cases found
      exact Function.update_self _ _ _

end Merge

end Ucore
