import Mathlib.Data.List.Induction
import Mathlib.Data.List.Nodup
import Mathlib.Logic.Function.Iterate

/-! Circular doubly linked lists threaded through two link functions. A ring is
a head node and the list of the other nodes in `next` order; inserting between
two neighbours and joining two neighbours are the only edits. -/

namespace Ucore.Lib

universe u

structure Links (α : Type u) where
  prev : α → α
  next : α → α

namespace Links

variable {α : Type u} [DecidableEq α]

def setPrev (links : Links α) (node target : α) : Links α :=
  { links with prev := Function.update links.prev node target }

def setNext (links : Links α) (node target : α) : Links α :=
  { links with next := Function.update links.next node target }

/-- Put `node` between the neighbours `before` and `after`. -/
def insert (links : Links α) (node before after : α) : Links α where
  prev := Function.update (Function.update links.prev after node) node before
  next := Function.update (Function.update links.next before node) node after

/-- Make `before` and `after` neighbours. -/
def join (links : Links α) (before after : α) : Links α where
  prev := Function.update links.prev after before
  next := Function.update links.next before after

/-- From `first` through `nodes` to `last`, consecutive nodes point at each
other in both directions. -/
def Segment (links : Links α) : α → List α → α → Prop
  | first, [], last => links.next first = last ∧ links.prev last = first
  | first, node :: nodes, last =>
    (links.next first = node ∧ links.prev node = first) ∧ Segment links node nodes last

structure Ring (links : Links α) (head : α) (nodes : List α) : Prop where
  closed : links.Segment head nodes head
  distinct : (head :: nodes).Nodup

/-- Outside `members` the two link maps are the same. -/
structure SameOutside (links other : Links α) (members : List α) : Prop where
  next : ∀ node, node ∉ members → other.next node = links.next node
  prev : ∀ node, node ∉ members → other.prev node = links.prev node

omit [DecidableEq α] in
theorem Segment.append {links : Links α} {first middle last : α} {front back : List α} :
    links.Segment first (front ++ middle :: back) last ↔
      links.Segment first front middle ∧ links.Segment middle back last := by
  induction front generalizing first with
  | nil => simp [Segment]
  | cons node nodes ih => simp only [List.cons_append, Segment, ih, and_assoc]

omit [DecidableEq α] in
/-- A segment only reads `next` at its sources and `prev` at its targets. -/
theorem Segment.frame {links other : Links α} {first last : α} {nodes : List α}
    (segment : links.Segment first nodes last)
    (next : ∀ node ∈ first :: nodes, other.next node = links.next node)
    (prev : ∀ node ∈ nodes ++ [last], other.prev node = links.prev node) :
    other.Segment first nodes last := by
  induction nodes generalizing first with
  | nil =>
    rw [Segment, next first (by simp), prev last (by simp)]
    exact segment
  | cons node nodes ih =>
    rw [Segment, next first (by simp), prev node (by simp)]
    exact ⟨segment.1, ih segment.2 (fun n inside => next n (List.mem_cons_of_mem _ inside))
      (fun n inside => prev n (List.mem_cons_of_mem _ inside))⟩

omit [DecidableEq α] in
theorem Segment.next_eq {links : Links α} {first last : α} {nodes : List α}
    (segment : links.Segment first nodes last) : links.next first = nodes.headD last := by
  cases nodes with
  | nil => exact segment.1
  | cons node nodes => exact segment.1.1

omit [DecidableEq α] in
/-- The `next` pointers determine the nodes. -/
theorem Segment.unique {links : Links α} {first last : α} {nodes others : List α}
    (segment : links.Segment first nodes last) (other : links.Segment first others last)
    (outside : last ∉ nodes) (outside' : last ∉ others) : nodes = others := by
  induction nodes generalizing first others with
  | nil =>
    cases others with
    | nil => rfl
    | cons node others => exact absurd (segment.1.symm.trans other.1.1) (fun same => outside' (same ▸ List.mem_cons_self))
  | cons node nodes ih =>
    cases others with
    | nil => exact absurd (other.1.symm.trans segment.1.1) (fun same => outside (same ▸ List.mem_cons_self))
    | cons node' others =>
      obtain ⟨⟨next, -⟩, rest⟩ := segment
      obtain ⟨⟨next', -⟩, rest'⟩ := other
      cases next.symm.trans next'
      rw [ih rest rest' (List.not_mem_of_not_mem_cons outside) (List.not_mem_of_not_mem_cons outside')]

omit [DecidableEq α] in
theorem Segment.prev_eq {links : Links α} {first last : α} {nodes : List α}
    (segment : links.Segment first nodes last) : links.prev last = nodes.getLastD first := by
  induction nodes generalizing first with
  | nil => exact segment.2
  | cons node nodes ih => simpa only [List.getLastD_cons] using ih segment.2

omit [DecidableEq α] in
private theorem headD_mem (nodes : List α) (last : α) : nodes.headD last ∈ nodes ++ [last] := by
  cases nodes <;> simp

/-- Inserting a fresh node between two neighbours; the split of the node list
says which. -/
theorem Segment.insert {links : Links α} {first last node : α} {front back : List α}
    (segment : links.Segment first (front ++ back) last)
    (sources : (first :: (front ++ back)).Nodup) (targets : (front ++ back ++ [last]).Nodup)
    (fresh : node ∉ first :: (front ++ back)) (inner : node ≠ last) :
    (links.insert node (front.getLastD first) (back.headD last)).Segment first
      (front ++ node :: back) last := by
  induction front generalizing first with
  | nil =>
    cases back with
    | nil =>
      simp only [List.append_nil, List.mem_singleton] at fresh
      have away : first ≠ node := fun same => fresh (by simp [same])
      simp [Links.insert, Segment, away, Ne.symm inner]
    | cons after back =>
      simp only [List.nil_append, List.nodup_cons, List.mem_cons, not_or, List.cons_append,
        List.mem_append, List.not_mem_nil, or_false] at sources targets fresh
      refine ⟨?_, ?_, segment.2.frame ?_ ?_⟩
      · simp [Links.insert, Ne.symm fresh.1]
      · simp [Links.insert, Ne.symm fresh.2.1]
      all_goals
        intro other inside
        simp only [Links.insert, Function.update_apply, List.getLastD_nil, List.headD_cons]
        grind
  | cons second front ih =>
    simp only [List.cons_append, List.nodup_cons] at sources targets
    have before : front.getLastD second ∈ second :: front := List.getLastD_mem_cons
    have after := headD_mem back last
    rw [List.getLastD_cons]
    refine ⟨⟨?_, ?_⟩, ih segment.2 (by simpa using sources.2) (by simpa using targets.2)
      (fun inside => fresh (List.mem_cons_of_mem _ inside))⟩
    · have other : first ≠ front.getLastD second := by grind
      have away : first ≠ node := by grind
      simpa only [Links.insert, Function.update_of_ne away, Function.update_of_ne other]
        using segment.1.1
    · have other : second ≠ back.headD last := by grind
      have away : second ≠ node := by grind
      simpa only [Links.insert, Function.update_of_ne away, Function.update_of_ne other]
        using segment.1.2

/-- Joining the neighbours of a node takes it out of the segment. -/
theorem Segment.join {links : Links α} {first last node : α} {front back : List α}
    (segment : links.Segment first (front ++ node :: back) last)
    (sources : (first :: (front ++ node :: back)).Nodup)
    (targets : (front ++ node :: back ++ [last]).Nodup) :
    (links.join (front.getLastD first) (back.headD last)).Segment first (front ++ back) last := by
  induction front generalizing first with
  | nil =>
    cases back with
    | nil => simp [Links.join, Segment]
    | cons after back =>
      simp only [List.nil_append, List.nodup_cons, List.mem_cons, not_or, List.cons_append,
        List.mem_append, List.not_mem_nil, or_false] at sources targets
      refine ⟨by simp [Links.join], segment.2.2.frame ?_ ?_⟩
      all_goals
        intro other inside
        simp only [Links.join, Function.update_apply, List.getLastD_nil, List.headD_cons]
        grind
  | cons second front ih =>
    simp only [List.cons_append, List.nodup_cons] at sources targets
    have before : front.getLastD second ∈ second :: front := List.getLastD_mem_cons
    have after := headD_mem back last
    rw [List.getLastD_cons]
    refine ⟨⟨?_, ?_⟩, ih segment.2 (by simpa using sources.2) (by simpa using targets.2)⟩
    · have other : first ≠ front.getLastD second := by grind
      simpa only [Links.join, Function.update_of_ne other] using segment.1.1
    · have other : second ≠ back.headD last := by grind
      simpa only [Links.join, Function.update_of_ne other] using segment.1.2

namespace Ring

variable {links : Links α} {head node : α} {nodes front back : List α}

theorem single (links : Links α) (head : α) :
    ((links.setNext head head).setPrev head head).Ring head [] :=
  ⟨by simp [Segment, setNext, setPrev], by simp⟩

omit [DecidableEq α] in
theorem unique {others : List α} (ring : links.Ring head nodes) (other : links.Ring head others) : nodes = others :=
  ring.closed.unique other.closed (List.nodup_cons.mp ring.distinct).1 (List.nodup_cons.mp other.distinct).1

omit [DecidableEq α] in
theorem next_head (ring : links.Ring head nodes) : links.next head = nodes.headD head :=
  ring.closed.next_eq

omit [DecidableEq α] in
theorem prev_head (ring : links.Ring head nodes) : links.prev head = nodes.getLastD head :=
  ring.closed.prev_eq

omit [DecidableEq α] in
theorem next_node (ring : links.Ring head (front ++ node :: back)) :
    links.next node = back.headD head :=
  (Segment.append.mp ring.closed).2.next_eq

omit [DecidableEq α] in
theorem prev_node (ring : links.Ring head (front ++ node :: back)) :
    links.prev node = front.getLastD head :=
  (Segment.append.mp ring.closed).1.prev_eq

omit [DecidableEq α] in
theorem empty_iff (ring : links.Ring head nodes) : links.next head = head ↔ nodes = [] := by
  rw [ring.next_head]
  cases nodes with
  | nil => simp
  | cons node nodes =>
    have distinct := ring.distinct
    simp only [List.nodup_cons, List.mem_cons, not_or] at distinct
    simpa using fun same : node = head => distinct.1.1 same.symm

omit [DecidableEq α] in
theorem frame {other : Links α} (ring : links.Ring head nodes)
    (next : ∀ node ∈ head :: nodes, other.next node = links.next node)
    (prev : ∀ node ∈ head :: nodes, other.prev node = links.prev node) :
    other.Ring head nodes :=
  ⟨ring.closed.frame next (fun n inside => prev n (by simpa [or_comm] using inside)), ring.distinct⟩

omit [DecidableEq α] in
/-- An edit elsewhere leaves the ring alone. -/
theorem apart {other : Links α} {members : List α} (ring : links.Ring head nodes)
    (same : links.SameOutside other members) (disjoint : ∀ node ∈ head :: nodes, node ∉ members) :
    other.Ring head nodes :=
  ring.frame (fun node inside => same.next node (disjoint node inside))
    (fun node inside => same.prev node (disjoint node inside))

theorem insert_outside (links : Links α) (node head : α) (front back : List α) :
    links.SameOutside (links.insert node (front.getLastD head) (back.headD head))
      (node :: head :: (front ++ back)) := by
  have before : front.getLastD head ∈ head :: front := List.getLastD_mem_cons
  have after := headD_mem back head
  refine ⟨?_, ?_⟩
  all_goals
    intro other outside
    simp only [Links.insert, Function.update_apply]
    grind

theorem join_outside (links : Links α) (head : α) (front back : List α) :
    links.SameOutside (links.join (front.getLastD head) (back.headD head)) (head :: (front ++ back)) := by
  have before : front.getLastD head ∈ head :: front := List.getLastD_mem_cons
  have after := headD_mem back head
  refine ⟨?_, ?_⟩
  all_goals
    intro other outside
    simp only [Links.join, Function.update_apply]
    grind

theorem insert (ring : links.Ring head (front ++ back)) (fresh : node ∉ head :: (front ++ back)) :
    (links.insert node (front.getLastD head) (back.headD head)).Ring head (front ++ node :: back) := by
  have distinct := ring.distinct
  refine ⟨ring.closed.insert distinct ?_ fresh ?_, ?_⟩
  all_goals grind

omit [DecidableEq α] in
private theorem next_mem (ring : links.Ring head nodes) (inside : node ∈ head :: nodes) :
    links.next node ∈ head :: nodes := by
  rcases List.mem_cons.mp inside with rfl | inside
  · rw [ring.next_head]
    cases nodes <;> simp
  · obtain ⟨front, back, rfl⟩ := List.append_of_mem inside
    rw [ring.next_node]
    cases back <;> simp

omit [DecidableEq α] in
private theorem reach_node (ring : links.Ring head (front ++ node :: back)) :
    ∃ steps, links.next^[steps] head = node := by
  induction front using List.reverseRecOn generalizing node back with
  | nil => exact ⟨1, by simp [ring.next_head]⟩
  | append_singleton front before ih =>
    rw [List.append_assoc] at ring
    obtain ⟨steps, reached⟩ := ih ring
    exact ⟨steps + 1, by rw [Function.iterate_succ_apply', reached]; exact ring.next_node⟩

omit [DecidableEq α] in
theorem reach (ring : links.Ring head nodes) :
    (∃ steps, links.next^[steps] head = node) ↔ node ∈ head :: nodes := by
  constructor
  · rintro ⟨steps, rfl⟩
    induction steps with
    | zero => simp
    | succ steps ih =>
      rw [Function.iterate_succ_apply']
      exact ring.next_mem ih
  · intro inside
    rcases List.mem_cons.mp inside with rfl | inside
    · exact ⟨0, rfl⟩
    obtain ⟨front, back, rfl⟩ := List.append_of_mem inside
    exact ring.reach_node

theorem join (ring : links.Ring head (front ++ node :: back)) :
    (links.join (front.getLastD head) (back.headD head)).Ring head (front ++ back) := by
  have distinct := ring.distinct
  refine ⟨ring.closed.join distinct ?_, ?_⟩
  all_goals grind

end Ring
end Links
end Ucore.Lib
