import Mathlib

/-! Doubly linked lists that end in a null pointer. The two directions are
separate, since an update may have mended one of them only. -/

namespace Ucore.Lib

universe u

variable {α : Type u}

/-- From every node the pointer leads to the following one, from the last to
nothing. -/
def Forward (next : α → Option α) : List α → Prop
  | [] => True
  | node :: nodes => next node = nodes.head? ∧ Forward next nodes

/-- From every node the pointer leads to the preceding one, from the first to
`before`. -/
def Backward (prev : α → Option α) : Option α → List α → Prop
  | _, [] => True
  | before, node :: nodes => prev node = before ∧ Backward prev (some node) nodes

variable {next other : α → Option α} {node : α} {nodes front back : List α} {before : Option α}

theorem Forward.frame (forward : Forward next nodes) (same : ∀ node ∈ nodes, other node = next node) :
    Forward other nodes := by
  induction nodes with
  | nil => trivial
  | cons node nodes ih =>
    refine ⟨(same node List.mem_cons_self).trans forward.1, ih forward.2 ?_⟩
    exact fun inner inside => same inner (List.mem_cons_of_mem _ inside)

theorem Backward.frame (backward : Backward next before nodes) (same : ∀ node ∈ nodes, other node = next node) :
    Backward other before nodes := by
  induction nodes generalizing before with
  | nil => trivial
  | cons node nodes ih =>
    refine ⟨(same node List.mem_cons_self).trans backward.1, ih backward.2 ?_⟩
    exact fun inner inside => same inner (List.mem_cons_of_mem _ inside)

/-- Only the first node looks at what stands before the list. -/
theorem Backward.redirect (backward : Backward next before nodes) {target : Option α}
    (first : ∀ node ∈ nodes.head?, other node = target) (same : ∀ node ∈ nodes.tail, other node = next node) :
    Backward other target nodes := by
  cases nodes with
  | nil => trivial
  | cons node nodes => exact ⟨first node rfl, backward.2.frame same⟩

theorem Forward.next_node (forward : Forward next (front ++ node :: back)) : next node = back.head? := by
  induction front with
  | nil => exact forward.1
  | cons first front ih => exact ih forward.2

theorem Backward.prev_node (backward : Backward next before (front ++ node :: back)) :
    next node = front.getLast?.or before := by
  induction front generalizing before with
  | nil => exact backward.1
  | cons first front ih =>
    rw [ih backward.2]
    cases front with
    | nil => rfl
    | cons second front => rw [List.getLast?_cons_cons, List.getLast?_cons, Option.some_or, Option.some_or]

/-- Taking a node out: the node in front of it takes over its pointer. -/
theorem Forward.unlink (forward : Forward next (front ++ node :: back)) (distinct : (front ++ node :: back).Nodup)
    (last : ∀ inner ∈ front.getLast?, other inner = next node)
    (same : ∀ inner ∈ front ++ back, inner ∉ front.getLast? → other inner = next inner) :
    Forward other (front ++ back) := by
  induction front with
  | nil => exact forward.2.frame (fun inner inside => same inner inside (fun none => by cases none))
  | cons first front ih =>
    rw [List.cons_append, List.nodup_cons] at distinct
    cases front with
    | nil =>
      refine ⟨(last first rfl).trans (Forward.next_node (show Forward next ([first] ++ node :: back) from forward)), ?_⟩
      apply forward.2.2.frame
      intro inner inside
      apply same inner (List.mem_cons_of_mem _ inside)
      intro top
      cases top
      exact distinct.1 (List.mem_cons_of_mem _ inside)
    | cons second front =>
      have away : first ∉ (first :: second :: front).getLast? := by
        rw [List.getLast?_cons_cons]
        intro top
        exact distinct.1 (List.mem_append_left _ (List.mem_of_getLast? top))
      refine ⟨?_, ih forward.2 distinct.2 ?_ ?_⟩
      · exact (same first List.mem_cons_self away).trans forward.1
      · intro inner top
        exact last inner (by rwa [List.getLast?_cons_cons])
      · intro inner inside lower
        exact same inner (List.mem_cons_of_mem _ inside) (by rwa [List.getLast?_cons_cons])

/-- Taking a node out: the node behind it takes over its pointer. -/
theorem Backward.unlink (backward : Backward next before (front ++ node :: back))
    (distinct : (front ++ node :: back).Nodup) (first : ∀ inner ∈ back.head?, other inner = next node)
    (same : ∀ inner ∈ front ++ back, inner ∉ back.head? → other inner = next inner) :
    Backward other before (front ++ back) := by
  induction front generalizing before with
  | nil =>
    apply backward.2.redirect
    · exact fun inner top => (first inner top).trans backward.1
    · intro inner inside
      apply same inner (List.mem_of_mem_tail inside)
      intro top
      cases back with
      | nil => cases top
      | cons head back =>
        cases top
        exact (List.nodup_cons.mp (List.nodup_cons.mp distinct).2).1 inside
  | cons head front ih =>
    rw [List.cons_append, List.nodup_cons] at distinct
    refine ⟨?_, ih backward.2 distinct.2 ?_⟩
    · refine (same head List.mem_cons_self ?_).trans backward.1
      intro top
      exact distinct.1 (List.mem_append_right _ (List.mem_cons_of_mem _ (List.mem_of_head? top)))
    · exact fun inner inside lower => same inner (List.mem_cons_of_mem _ inside) lower

end Ucore.Lib
