import Mathlib
import Ucore.RunQueue

/-! What a run queue holds. The queue is a list of processes in the order of their
arrival; a pool class keeps the same processes in a skew heap. -/

namespace Ucore.RunQueue
open Lib

/-- The heap of `rq` is stored as `tree`, and its root has no parent. -/
structure Pooled (rq : RunQueue) (tree : SkewTree Ptr) : Prop where
  stored : rq.pool.Stored tree
  root : rq.lab6RunPool = tree.root
  top : ∀ proc ∈ tree.root, rq.pool.parent proc = none

/-- The `run_link` of `proc` is in no list. -/
def Detached (rq : RunQueue) (proc : Ptr) : Prop := listEmpty (some proc) rq.runList = true

def Contents (rq : RunQueue) (queue : List Ptr) : SchedClass → Prop
  | .rr | .fifo => rq.runList.Ring none (queue.map some)
  | .stride | .sjf | .hpf =>
    ∃ tree, rq.Pooled tree ∧ tree.elems.Perm queue ∧ ∀ proc ∈ queue, rq.Detached proc

structure Holds (schedClass : SchedClass) (rq : RunQueue) (queue : List Ptr) : Prop where
  contents : rq.Contents queue schedClass
  distinct : queue.Nodup
  enrolled : ∀ proc ∈ queue, rq.rq proc = true
  count : rq.procNum = BitVec.ofNat 32 queue.length
  room : queue.length ≤ maxProcess

/-- Queue operations write no key that an order reads. -/
structure SameKeys (rq other : RunQueue) : Prop where
  stride : other.lab6Stride = rq.lab6Stride
  priority : other.lab6Priority = rq.lab6Priority
  trueStride : other.trueStride = rq.trueStride
  slice : other.maxTimeSlice = rq.maxTimeSlice

variable {schedClass : SchedClass} {rq : RunQueue} {queue : List Ptr} {proc : Ptr} {pid : Ptr → Int}

theorem refill_eq (proc : Ptr) (rq : RunQueue) :
    ∃ timeSlice, rq.refill proc = { rq with timeSlice := timeSlice } := by
  rw [refill]
  split
  · exact ⟨_, rfl⟩
  · exact ⟨_, rfl⟩

theorem countDown_eq (proc : Ptr) (rq : RunQueue) :
    ∃ timeSlice, (rq.countDown proc).1 = { rq with timeSlice := timeSlice } := by
  rw [countDown]
  split
  · exact ⟨_, rfl⟩
  · exact ⟨_, rfl⟩

theorem Pooled.congr {other : RunQueue} {tree : SkewTree Ptr} (pooled : rq.Pooled tree) (pool : other.pool = rq.pool)
    (root : other.lab6RunPool = rq.lab6RunPool) : other.Pooled tree :=
  ⟨pool ▸ pooled.stored, root ▸ pooled.root, pool ▸ pooled.top⟩

/-- What the queue holds does not depend on the keys or the time slices. -/
theorem Holds.congr {other : RunQueue} (holds : Holds schedClass rq queue) (runList : other.runList = rq.runList)
    (pool : other.pool = rq.pool) (root : other.lab6RunPool = rq.lab6RunPool) (enrolled : other.rq = rq.rq)
    (count : other.procNum = rq.procNum) : Holds schedClass other queue := by
  refine ⟨?_, holds.distinct, enrolled ▸ holds.enrolled, count ▸ holds.count, holds.room⟩
  have contents := holds.contents
  cases schedClass with
  | rr | fifo =>
    rw [Contents] at contents ⊢
    exact runList ▸ contents
  | stride | sjf | hpf =>
    obtain ⟨tree, pooled, members, detached⟩ := contents
    refine ⟨tree, pooled.congr pool root, members, ?_⟩
    intro proc member
    rw [Detached, runList]
    exact detached proc member

section Count

private theorem count_succ (queue : List Ptr) (proc : Ptr) :
    BitVec.ofNat 32 queue.length + 1 = BitVec.ofNat 32 (queue ++ [proc]).length := by
  rw [List.length_append, List.length_singleton, BitVec.ofNat_add]
  rfl

private theorem count_pred {queue : List Ptr} {proc : Ptr} (member : proc ∈ queue) :
    BitVec.ofNat 32 queue.length - 1 = BitVec.ofNat 32 (queue.erase proc).length := by
  rw [← List.length_erase_add_one member, BitVec.ofNat_add]
  exact BitVec.add_sub_cancel _ _

private theorem count_pos {queue : List Ptr} {proc : Ptr} (member : proc ∈ queue) (room : queue.length ≤ maxProcess) :
    BitVec.ofNat 32 queue.length > 0 := by
  have some : 0 < queue.length := List.length_pos_of_mem member
  have bound : maxProcess = 4096 := rfl
  have zero : (0 : BitVec 32).toNat = 0 := rfl
  rw [gt_iff_lt, BitVec.lt_def, BitVec.toNat_ofNat, zero]
  omega

theorem Holds.positive (holds : Holds schedClass rq queue) (member : proc ∈ queue) : rq.procNum > 0 :=
  holds.count ▸ count_pos member holds.room

end Count

/-- An operation on the queue of `members` writes no key and no other `run_link`. -/
structure Untouched (rq after : RunQueue) (members : List Ptr) : Prop where
  keys : SameKeys rq after
  detached : ∀ other, other ∉ members → rq.Detached other → after.Detached other

section Listed

variable (ring : rq.runList.Ring none (queue.map some))
include ring

private theorem append_ring (absent : proc ∉ queue) :
    (rq.append proc).runList.Ring none ((queue ++ [proc]).map some) := by
  rw [List.map_append]
  exact listAddBefore_head ring (by simpa using absent)

private theorem append_detached {other : Ptr} (outside : other ∉ proc :: queue) (detached : rq.Detached other) :
    (rq.append proc).Detached other := by
  have same := (listAddBefore_outside ring (some proc)).next (some other) (by simpa [List.mem_map] using outside)
  rw [Detached, listEmpty, append, same]
  exact detached

private theorem unlink_ring (front : queue.head? = some proc) :
    (rq.unlink proc).runList.Ring none ((queue.erase proc).map some) := by
  cases queue with
  | nil => cases front
  | cons first rest =>
    cases front
    rw [List.erase_cons_head]
    exact listDelInit_node (show rq.runList.Ring none ([] ++ some proc :: rest.map some) from ring)

private theorem unlink_detached {other : Ptr} (front : queue.head? = some proc) (outside : other ∉ queue)
    (detached : rq.Detached other) : (rq.unlink proc).Detached other := by
  cases queue with
  | nil => cases front
  | cons first rest =>
    cases front
    have edit := listDelInit_outside (show rq.runList.Ring none ([] ++ some proc :: rest.map some) from ring)
    have same := edit.next (some other) (by simpa [List.mem_map] using outside)
    rw [Detached, listEmpty, unlink, same]
    exact detached

private theorem front_eq : rq.front = queue.head? := by
  rw [front, ring.next_head]
  cases queue <;> rfl

private theorem front_linked (front : queue.head? = some proc) : listEmpty (some proc) rq.runList = false := by
  cases queue with
  | nil => cases front
  | cons first rest =>
    cases front
    exact listEmpty_inside (show rq.runList.Ring none ([] ++ some proc :: rest.map some) from ring)

end Listed

section Pool

variable {comp : Ptr → Ptr → Int} {tree left right : SkewTree Ptr}

/-- Entering a pool merges the process into the tree. -/
theorem poolEnqueue_pooled (pooled : rq.Pooled tree) (distinct : tree.elems.Nodup) (absent : proc ∉ tree.elems)
    (room : tree.elems.length < poolDepth) :
    ∃ after, poolEnqueue comp proc rq = .ok after ∧
      after.Pooled (SkewTree.merge (firstBy comp) tree (.node .leaf proc .leaf)) ∧ SameKeys rq after ∧
      after.runList = rq.runList ∧ after.rq = Function.update rq.rq proc true ∧ after.procNum = rq.procNum + 1 := by
  obtain ⟨pool, inserted, stored, -, top⟩ := skewHeapInsert_spec comp poolDepth tree proc room absent distinct
    pooled.stored pooled.top
  rw [poolEnqueue, poolInsert, pooled.root, inserted]
  simp only [ok_bind]
  obtain ⟨timeSlice, refilled⟩ := refill_eq proc
    { rq with lab6RunPool := (SkewTree.merge (firstBy comp) tree (.node .leaf proc .leaf)).root, pool := pool }
  rw [refilled]
  exact ⟨_, rfl, ⟨stored, rfl, top⟩, ⟨rfl, rfl, rfl, rfl⟩, rfl, rfl, rfl⟩

/-- Leaving a pool from its root merges the two subtrees. -/
theorem poolDequeue_pooled (pooled : rq.Pooled (.node left proc right))
    (distinct : (SkewTree.node left proc right).elems.Nodup) (room : left.elems.length + right.elems.length ≤ poolDepth)
    (enrolled : rq.rq proc = true) (count : rq.procNum > 0) :
    ∃ after, poolDequeue comp proc rq = .ok after ∧ after.Pooled (SkewTree.merge (firstBy comp) left right) ∧
      SameKeys rq after ∧ after.runList = rq.runList ∧ after.rq = rq.rq ∧ after.procNum = rq.procNum - 1 := by
  obtain ⟨pool, removed, stored, -, top⟩ := skewHeapRemove_root comp poolDepth left right proc room distinct
    pooled.stored (pooled.top proc rfl)
  have root : rq.lab6RunPool = some proc := pooled.root
  simp only [poolDequeue, enrolled, count, decide_true, Bool.and_self, assert_true, ok_bind, poolRemove, root, removed]
  exact ⟨_, rfl, ⟨stored, rfl, top⟩, ⟨rfl, rfl, rfl, rfl⟩, rfl, rfl, rfl⟩

end Pool

private theorem Holds.enrolled_append {after : RunQueue} (holds : Holds schedClass rq queue)
    (enrolled : after.rq = Function.update rq.rq proc true) :
    ∀ other ∈ queue ++ [proc], after.rq other = true := by
  intro other member
  rw [enrolled]
  by_cases same : other = proc
  · rw [same, Function.update_self]
  · rw [Function.update_of_ne same]
    apply holds.enrolled
    simpa [same] using member

variable (pid) in
/-- Entering the queue: no assertion fails and the process comes last. -/
theorem enqueue_spec (holds : Holds schedClass rq queue) (absent : proc ∉ queue) (detached : rq.Detached proc)
    (room : queue.length < maxProcess) :
    ∃ after, schedClass.enqueue pid proc rq = .ok after ∧ Holds schedClass after (queue ++ [proc]) ∧
      Untouched rq after (proc :: queue) := by
  have distinct : (queue ++ [proc]).Nodup := by
    rw [List.nodup_append_comm]
    exact List.nodup_cons.mpr ⟨absent, holds.distinct⟩
  have bound : (queue ++ [proc]).length ≤ maxProcess := by simpa using room
  have contents := holds.contents
  cases schedClass with
  | rr =>
    obtain ⟨timeSlice, refilled⟩ := refill_eq proc (rq.append proc)
    have entered : rrEnqueue proc rq = .ok (((rq.append proc).refill proc).enrol proc) := by
      rw [rrEnqueue, detached]
      rfl
    refine ⟨_, entered, ⟨?_, distinct, holds.enrolled_append ?_, ?_, bound⟩, ⟨?_, ?_⟩⟩
    all_goals rw [refilled]
    · exact append_ring contents absent
    · rfl
    · exact (congrArg (· + 1) holds.count).trans (count_succ queue proc)
    · exact ⟨rfl, rfl, rfl, rfl⟩
    · exact fun other outside apart => append_detached contents outside apart
  | fifo =>
    have entered : fifoEnqueue proc rq = .ok ((rq.append proc).enrol proc) := by
      rw [fifoEnqueue, detached]
      rfl
    refine ⟨_, entered, ⟨?_, distinct, holds.enrolled_append rfl, ?_, bound⟩, ⟨?_, ?_⟩⟩
    · exact append_ring contents absent
    · exact (congrArg (· + 1) holds.count).trans (count_succ queue proc)
    · exact ⟨rfl, rfl, rfl, rfl⟩
    · exact fun other outside apart => append_detached contents outside apart
  | stride | sjf | hpf =>
    obtain ⟨tree, pooled, members, loose⟩ := contents
    obtain ⟨after, entered, afterPooled, keys, runList, enrolled, count⟩ := poolEnqueue_pooled pooled
      (members.nodup_iff.mpr holds.distinct) (fun inside => absent (members.subset inside))
      (members.length_eq ▸ room)
    refine ⟨after, entered, ⟨⟨_, afterPooled, ?_, ?_⟩, distinct, holds.enrolled_append enrolled, ?_, bound⟩, ⟨keys, ?_⟩⟩
    · exact (SkewTree.merge_elems _ _ _).trans (List.Perm.append_right _ members)
    · intro other member
      rw [Detached, runList]
      rcases List.mem_append.mp member with old | new
      · exact loose other old
      · rw [List.mem_singleton.mp new]
        exact detached
    · rw [count, holds.count]
      exact count_succ queue proc
    · intro other _ apart
      rw [Detached, runList]
      exact apart

theorem SameKeys.trans {middle other : RunQueue} (first : SameKeys rq middle) (second : SameKeys middle other) :
    SameKeys rq other :=
  ⟨second.stride.trans first.stride, second.priority.trans first.priority, second.trueStride.trans first.trueStride,
    second.slice.trans first.slice⟩

theorem enqueue_keys {after : RunQueue} (done : schedClass.enqueue pid proc rq = .ok after) : SameKeys rq after := by
  have pooled : ∀ comp, poolEnqueue comp proc rq = .ok after → SameKeys rq after := by
    intro comp done
    obtain ⟨middle, inserted, rest⟩ := bind_ok done
    obtain ⟨heap, -, same⟩ := bind_ok inserted
    cases same
    obtain ⟨timeSlice, refilled⟩ := refill_eq proc { rq with lab6RunPool := heap.1, pool := heap.2 }
    rw [refilled] at rest
    cases rest
    exact ⟨rfl, rfl, rfl, rfl⟩
  cases schedClass with
  | rr =>
    obtain ⟨_, -, same⟩ := bind_ok done
    obtain ⟨timeSlice, refilled⟩ := refill_eq proc (rq.append proc)
    rw [refilled] at same
    cases same
    exact ⟨rfl, rfl, rfl, rfl⟩
  | fifo =>
    obtain ⟨_, -, same⟩ := bind_ok done
    cases same
    exact ⟨rfl, rfl, rfl, rfl⟩
  | stride | sjf | hpf => exact pooled _ done

theorem dequeue_keys {after : RunQueue} (done : schedClass.dequeue pid proc rq = .ok after) : SameKeys rq after := by
  have pooled : ∀ comp, poolDequeue comp proc rq = .ok after → SameKeys rq after := by
    intro comp done
    obtain ⟨_, -, removed⟩ := bind_ok done
    obtain ⟨heap, -, same⟩ := bind_ok removed
    cases same
    exact ⟨rfl, rfl, rfl, rfl⟩
  cases schedClass with
  | rr =>
    obtain ⟨_, -, same⟩ := bind_ok done
    cases same
    exact ⟨rfl, rfl, rfl, rfl⟩
  | fifo =>
    obtain ⟨_, -, rest⟩ := bind_ok done
    obtain ⟨_, -, same⟩ := bind_ok rest
    cases same
    exact ⟨rfl, rfl, rfl, rfl⟩
  | stride | sjf | hpf => exact pooled _ done

/-- Who `pick_next` chooses: the front of the list, or the root of the pool. -/
def Choice (rq : RunQueue) (queue : List Ptr) (proc : Ptr) : SchedClass → Prop
  | .rr | .fifo => queue.head? = some proc
  | .stride | .sjf | .hpf => rq.lab6RunPool = some proc

/-- What `pick_next` does to the process it chooses. -/
def picked (proc : Ptr) (rq : RunQueue) : SchedClass → RunQueue
  | .stride => advance proc rq
  | .rr | .fifo | .sjf | .hpf => rq

theorem picked_holds (holds : Holds schedClass rq queue) (proc : Ptr) :
    Holds schedClass (rq.picked proc schedClass) queue := by
  cases schedClass with
  | stride => exact holds.congr rfl rfl rfl rfl rfl
  | rr | fifo | sjf | hpf => exact holds

theorem picked_detached (rq : RunQueue) (proc other : Ptr) :
    (rq.picked proc schedClass).Detached other ↔ rq.Detached other := by
  cases schedClass <;> exact Iff.rfl

theorem picked_choice (choice : rq.Choice queue proc schedClass) :
    (rq.picked proc schedClass).Choice queue proc schedClass := by
  cases schedClass <;> exact choice

theorem Choice.member (holds : Holds schedClass rq queue) (choice : rq.Choice queue proc schedClass) :
    proc ∈ queue := by
  have contents := holds.contents
  cases schedClass with
  | rr | fifo => exact List.mem_of_head? choice
  | stride | sjf | hpf =>
    obtain ⟨tree, pooled, members, -⟩ := contents
    exact members.subset (SkewTree.root_mem (pooled.root.symm.trans choice))

theorem pickNext_none (holds : Holds schedClass rq []) : schedClass.pickNext rq = (rq, none) := by
  have contents := holds.contents
  cases schedClass with
  | rr | fifo => exact congrArg (Prod.mk rq) (front_eq contents)
  | stride =>
    have count : rq.procNum = 0 := holds.count
    exact if_pos count
  | sjf | hpf =>
    obtain ⟨tree, pooled, members, -⟩ := contents
    refine congrArg (Prod.mk rq) (pooled.root.trans ?_)
    rw [SkewTree.root_eq_head, members.eq_nil]
    rfl

private theorem pooled_root {tree : SkewTree Ptr} (pooled : rq.Pooled tree) (members : tree.elems.Perm queue)
    (first : queue ≠ []) : ∃ proc, rq.lab6RunPool = some proc := by
  cases tree with
  | leaf => exact absurd members.nil_eq.symm first
  | node left proc right => exact ⟨proc, pooled.root⟩

theorem pickNext_some (holds : Holds schedClass rq queue) (first : queue ≠ []) :
    ∃ proc, rq.Choice queue proc schedClass ∧ schedClass.pickNext rq = (rq.picked proc schedClass, some proc) := by
  have contents := holds.contents
  obtain ⟨front, rest, rfl⟩ := List.exists_cons_of_ne_nil first
  cases schedClass with
  | rr | fifo => exact ⟨front, rfl, congrArg (Prod.mk rq) (front_eq contents)⟩
  | stride =>
    obtain ⟨tree, pooled, members, -⟩ := contents
    obtain ⟨proc, root⟩ := pooled_root pooled members first
    have positive : rq.procNum > 0 := holds.positive List.mem_cons_self
    have count : rq.procNum ≠ 0 := by
      intro zero
      rw [zero] at positive
      exact absurd positive (by decide)
    refine ⟨proc, root, ?_⟩
    simp only [SchedClass.pickNext, stridePickNext, count, if_false, root, picked]
  | sjf | hpf =>
    obtain ⟨tree, pooled, members, -⟩ := contents
    obtain ⟨proc, root⟩ := pooled_root pooled members first
    exact ⟨proc, root, congrArg (Prod.mk rq) root⟩

private theorem Holds.enrolled_erase {after : RunQueue} (holds : Holds schedClass rq queue) (enrolled : after.rq = rq.rq) :
    ∀ other ∈ queue.erase proc, after.rq other = true := by
  intro other member
  rw [enrolled]
  exact holds.enrolled other (List.mem_of_mem_erase member)

variable (pid) in
/-- The chosen process leaves the queue: no assertion fails. -/
theorem dequeue_spec (holds : Holds schedClass rq queue) (choice : rq.Choice queue proc schedClass) :
    ∃ after, schedClass.dequeue pid proc rq = .ok after ∧ Holds schedClass after (queue.erase proc) ∧
      Untouched rq after queue ∧ after.Detached proc := by
  have member := choice.member holds
  have enrolled := holds.enrolled proc member
  have positive := holds.positive member
  have bound : (queue.erase proc).length ≤ maxProcess := (List.length_erase_le).trans holds.room
  have distinct : (queue.erase proc).Nodup := holds.distinct.erase proc
  have contents := holds.contents
  cases schedClass with
  | rr =>
    have left : rrDequeue proc rq = .ok (rq.unlink proc) := by
      rw [rrDequeue, front_linked contents choice, enrolled]
      rfl
    refine ⟨_, left, ⟨unlink_ring contents choice, distinct, holds.enrolled_erase rfl, ?_, bound⟩, ⟨⟨rfl, rfl, rfl, rfl⟩, ?_⟩,
      listDelInit_empty _ _⟩
    · exact (congrArg (· - 1) holds.count).trans (count_pred member)
    · exact fun other outside apart => unlink_detached contents choice outside apart
  | fifo =>
    have left : fifoDequeue proc rq = .ok (rq.unlink proc) := by
      simp only [fifoDequeue, front_linked contents choice, enrolled, positive, decide_true, Bool.and_self, Bool.not_false,
        assert_true, ok_bind]
    refine ⟨_, left, ⟨unlink_ring contents choice, distinct, holds.enrolled_erase rfl, ?_, bound⟩, ⟨⟨rfl, rfl, rfl, rfl⟩, ?_⟩,
      listDelInit_empty _ _⟩
    · exact (congrArg (· - 1) holds.count).trans (count_pred member)
    · exact fun other outside apart => unlink_detached contents choice outside apart
  | stride | sjf | hpf =>
    obtain ⟨tree, pooled, members, loose⟩ := contents
    have root : tree.root = some proc := pooled.root.symm.trans choice
    cases tree with
    | leaf => cases root
    | node leftTree top right =>
      cases root
      have size := members.length_eq.trans_le holds.room
      rw [SkewTree.elems_node, List.length_cons, List.length_append] at size
      obtain ⟨after, left, afterPooled, keys, runList, rq', count⟩ := poolDequeue_pooled pooled
        (members.nodup_iff.mpr holds.distinct) (Nat.le_of_succ_le size) enrolled positive
      have rest : (leftTree.elems ++ right.elems).Perm (queue.erase proc) := by
        simpa using members.erase proc
      refine ⟨after, left, ⟨⟨_, afterPooled, (SkewTree.merge_elems _ _ _).trans rest, ?_⟩, distinct, holds.enrolled_erase rq', ?_,
        bound⟩, ⟨keys, ?_⟩, ?_⟩
      · intro other inside
        rw [Detached, runList]
        exact loose other (List.mem_of_mem_erase inside)
      · rw [count, holds.count]
        exact count_pred member
      · intro other _ apart
        rw [Detached, runList]
        exact apart
      · rw [Detached, runList]
        exact loose proc member

end Ucore.RunQueue
