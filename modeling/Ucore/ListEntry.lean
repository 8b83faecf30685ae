import Ucore.Lib.Ring

/-! The intrusive lists of `list.h`. A `list_entry` is a node of a `Links`; the
statements of each function are kept in their order. -/

namespace Ucore
open Lib

universe u

variable {α : Type u} [DecidableEq α]

/-- `elm->prev = elm->next = elm` -/
def listInit (elm : α) (links : Links α) : Links α :=
  (links.setNext elm elm).setPrev elm elm

/-- `__list_add`: `prev->next = next->prev = elm; elm->next = next; elm->prev = prev` -/
def listAddInternal (elm prev next : α) (links : Links α) : Links α :=
  (((links.setPrev next elm).setNext prev elm).setNext elm next).setPrev elm prev

/-- `__list_del`: `prev->next = next; next->prev = prev` -/
def listDelInternal (prev next : α) (links : Links α) : Links α :=
  (links.setNext prev next).setPrev next prev

def listAddAfter (listelm elm : α) (links : Links α) : Links α :=
  listAddInternal elm listelm (links.next listelm) links

def listAdd (listelm elm : α) (links : Links α) : Links α := listAddAfter listelm elm links

def listAddBefore (listelm elm : α) (links : Links α) : Links α :=
  listAddInternal elm (links.prev listelm) listelm links

def listDel (listelm : α) (links : Links α) : Links α :=
  listDelInternal (links.prev listelm) (links.next listelm) links

def listDelInit (listelm : α) (links : Links α) : Links α :=
  listInit listelm (listDel listelm links)

def listEmpty (list : α) (links : Links α) : Bool := links.next list = list

theorem listAdd_eq_insert (elm prev next : α) (links : Links α) :
    listAddInternal elm prev next links = links.insert elm prev next := rfl

theorem listInit_ring (elm : α) (links : Links α) : (listInit elm links).Ring elm [] :=
  Links.Ring.single links elm

section Ring

variable {links : Links α} {head elm node : α} {nodes front back : List α}

theorem listEmpty_iff (ring : links.Ring head nodes) : listEmpty head links = true ↔ nodes = [] := by
  simpa only [listEmpty, decide_eq_true_eq] using ring.empty_iff

theorem listAdd_head (ring : links.Ring head nodes) (fresh : elm ∉ head :: nodes) :
    (listAdd head elm links).Ring head (elm :: nodes) := by
  rw [listAdd, listAddAfter, listAdd_eq_insert, ring.next_head]
  exact Links.Ring.insert (show links.Ring head ([] ++ nodes) from ring) fresh

theorem listAdd_after (ring : links.Ring head (front ++ node :: back))
    (fresh : elm ∉ head :: (front ++ node :: back)) :
    (listAdd node elm links).Ring head (front ++ node :: elm :: back) := by
  have split : front ++ node :: back = (front ++ [node]) ++ back := by simp
  rw [split] at ring fresh
  have added := ring.insert fresh
  rw [List.getLastD_concat, ← (split ▸ ring : links.Ring head (front ++ node :: back)).next_node] at added
  simpa only [listAdd, listAddAfter, listAdd_eq_insert, List.append_assoc, List.singleton_append]
    using added

theorem listAdd_last (ring : links.Ring head (front ++ back)) (fresh : elm ∉ head :: (front ++ back)) :
    (listAdd (front.getLastD head) elm links).Ring head (front ++ elm :: back) := by
  rcases List.eq_nil_or_concat front with rfl | ⟨front, last, rfl⟩
  · exact listAdd_head ring fresh
  · simp only [List.concat_eq_append, List.append_assoc, List.singleton_append, List.getLastD_concat]
      at ring fresh ⊢
    exact listAdd_after ring fresh

theorem listAddBefore_node (ring : links.Ring head (front ++ node :: back))
    (fresh : elm ∉ head :: (front ++ node :: back)) :
    (listAddBefore node elm links).Ring head (front ++ elm :: node :: back) := by
  have added := Links.Ring.insert ring fresh
  rw [← ring.prev_node] at added
  simpa only [listAddBefore, listAdd_eq_insert, List.headD_cons] using added

theorem listAddBefore_head (ring : links.Ring head nodes) (fresh : elm ∉ head :: nodes) :
    (listAddBefore head elm links).Ring head (nodes ++ [elm]) := by
  have added := Links.Ring.insert (show links.Ring head (nodes ++ []) by simpa using ring)
    (by simpa using fresh)
  rw [← ring.prev_head] at added
  simpa only [listAddBefore, listAdd_eq_insert, List.headD_nil] using added

theorem listDel_node (ring : links.Ring head (front ++ node :: back)) :
    (listDel node links).Ring head (front ++ back) := by
  have removed := ring.join
  rw [← ring.prev_node, ← ring.next_node] at removed
  exact removed

theorem listInit_outside (elm : α) (links : Links α) : links.SameOutside (listInit elm links) [elm] := by
  refine ⟨?_, ?_⟩ <;>
  · intro node outside
    exact Function.update_of_ne (fun same => outside (List.mem_singleton.mpr same)) _ _

theorem listInit_apart (ring : links.Ring head nodes) (fresh : elm ∉ head :: nodes) :
    (listInit elm links).Ring head nodes :=
  ring.apart (listInit_outside elm links) (fun _ inside same => fresh (List.mem_singleton.mp same ▸ inside))

theorem listAdd_outside (ring : links.Ring head nodes) (elm : α) :
    links.SameOutside (listAdd head elm links) (elm :: head :: nodes) := by
  rw [listAdd, listAddAfter, listAdd_eq_insert, ring.next_head]
  exact Links.Ring.insert_outside links elm head [] nodes

theorem listAddBefore_outside (ring : links.Ring head nodes) (elm : α) :
    links.SameOutside (listAddBefore head elm links) (elm :: head :: nodes) := by
  have edit := Links.Ring.insert_outside links elm head nodes []
  rw [List.headD_nil, ← ring.prev_head, List.append_nil] at edit
  exact edit

theorem listDel_outside (ring : links.Ring head (front ++ node :: back)) :
    links.SameOutside (listDel node links) (head :: (front ++ back)) := by
  have edit := Links.Ring.join_outside links head front back
  rw [← ring.prev_node, ← ring.next_node] at edit
  exact edit

theorem listDelInit_node (ring : links.Ring head (front ++ node :: back)) :
    (listDelInit node links).Ring head (front ++ back) := by
  apply listInit_apart (listDel_node ring)
  have distinct := ring.distinct
  grind

theorem listDelInit_outside (ring : links.Ring head (front ++ node :: back)) :
    links.SameOutside (listDelInit node links) (head :: (front ++ node :: back)) := by
  have del := listDel_outside ring
  have init := listInit_outside node (listDel node links)
  refine ⟨?_, ?_⟩
  · intro other outside
    exact (init.next other (by grind)).trans (del.next other (by grind))
  · intro other outside
    exact (init.prev other (by grind)).trans (del.prev other (by grind))

theorem listDelInit_empty (node : α) (links : Links α) : listEmpty node (listDelInit node links) = true := by
  simp [listEmpty, listDelInit, listInit, Links.setNext, Links.setPrev]

theorem listEmpty_inside (ring : links.Ring head (front ++ node :: back)) : listEmpty node links = false := by
  rw [listEmpty, decide_eq_false_iff_not, ring.next_node]
  have distinct := ring.distinct
  cases back <;> grind

end Ring

end Ucore
