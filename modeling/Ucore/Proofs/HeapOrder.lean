import Mathlib
import Ucore.Proofs.Dispatch

/-! The pool of a class is in heap order, by the comparison function of the class and
the keys as they are now: the keys of a process do not change while it is queued. -/

namespace Ucore
open Lib

namespace RunQueue

variable {schedClass : SchedClass} {rq other after : RunQueue} {queue members added : List Ptr} {proc : Ptr} {pid pid' : Ptr → Int}

/-- The classes that keep the queue in a skew heap. -/
def Pools : SchedClass → Prop
  | .stride | .sjf | .hpf => True
  | .rr | .fifo => False

/-- The comparison function of a class. -/
def comp (pid : Ptr → Int) (rq : RunQueue) : SchedClass → Ptr → Ptr → Int
  | .stride => procStrideCompF rq
  | .sjf => procSjfCompF pid rq
  | .hpf => procPrioCompF pid rq
  | .rr | .fifo => fun _ _ => 0

def Above (pid : Ptr → Int) (rq : RunQueue) (schedClass : SchedClass) : Ptr → Ptr → Prop :=
  SkewTree.Over (firstBy (comp pid rq schedClass))

def Heaped (schedClass : SchedClass) (pid : Ptr → Int) (rq : RunQueue) (queue : List Ptr) : Prop :=
  ∃ tree, rq.Pooled tree ∧ tree.elems.Perm queue ∧ tree.Edges (Above pid rq schedClass)

/-- The keys of `members` are the same. -/
structure Agree (pid pid' : Ptr → Int) (rq other : RunQueue) (members : List Ptr) : Prop where
  stride : ∀ proc ∈ members, other.lab6Stride proc = rq.lab6Stride proc
  priority : ∀ proc ∈ members, other.lab6Priority proc = rq.lab6Priority proc
  pid : ∀ proc ∈ members, pid' proc = pid proc

theorem SameKeys.agree (keys : SameKeys rq other) (pid : Ptr → Int) (members : List Ptr) : Agree pid pid rq other members :=
  ⟨fun _ _ => congrFun keys.stride _, fun _ _ => congrFun keys.priority _, fun _ _ => rfl⟩

theorem Agree.comp (agree : Agree pid pid' rq other members) {p q : Ptr} (first : p ∈ members) (second : q ∈ members) :
    comp pid' other schedClass p q = comp pid rq schedClass p q := by
  cases schedClass with
  | rr | fifo => rfl
  | stride =>
    rw [RunQueue.comp, RunQueue.comp, procStrideCompF, procStrideCompF, agree.stride p first, agree.stride q second]
  | sjf =>
    rw [RunQueue.comp, RunQueue.comp, procSjfCompF, procSjfCompF, agree.priority p first, agree.priority q second,
      agree.pid p first, agree.pid q second]
  | hpf =>
    rw [RunQueue.comp, RunQueue.comp, procPrioCompF, procPrioCompF, agree.priority p first, agree.priority q second,
      agree.pid p first, agree.pid q second]

theorem Agree.above (agree : Agree pid pid' rq other members) {p q : Ptr} (first : p ∈ members) (second : q ∈ members)
    (above : Above pid rq schedClass p q) : Above pid' other schedClass p q := by
  rw [Above, SkewTree.Over, firstBy, firstBy] at above ⊢
  rw [agree.comp first second, agree.comp second first]
  exact above

theorem Heaped.congr (heaped : Heaped schedClass pid rq queue) (agree : Agree pid pid' rq other queue)
    (pooled : ∀ tree, tree.elems.Perm queue → rq.Pooled tree → other.Pooled tree) : Heaped schedClass pid' other queue := by
  obtain ⟨tree, stored, same, edges⟩ := heaped
  exact ⟨tree, pooled tree same stored, same,
    edges.congr (fun p first q second => agree.above (same.subset first) (same.subset second))⟩

theorem Heaped.perm (heaped : Heaped schedClass pid rq queue) (same : queue.Perm members) : Heaped schedClass pid rq members := by
  obtain ⟨tree, pooled, perm, edges⟩ := heaped
  exact ⟨tree, pooled, perm.trans same, edges⟩

theorem Heaped.contents (heaped : Heaped schedClass pid rq queue) (pools : Pools schedClass)
    (contents : rq.Contents members schedClass) : queue.Perm members := by
  have stored : ∃ tree, rq.Pooled tree ∧ tree.elems.Perm members := by
    cases schedClass with
    | rr | fifo => exact pools.elim
    | stride | sjf | hpf =>
      obtain ⟨tree, pooled, same, -⟩ := contents
      exact ⟨tree, pooled, same⟩
  obtain ⟨tree, pooled, perm, -⟩ := heaped
  obtain ⟨tree', pooled', perm'⟩ := stored
  cases pooled.stored.unique pooled'.stored (pooled.root.symm.trans pooled'.root)
  exact perm.symm.trans perm'

theorem Heaped.single (pools : Pools schedClass) (holds : Holds schedClass rq [proc]) : Heaped schedClass pid rq [proc] := by
  have stored : ∃ tree, rq.Pooled tree ∧ tree.elems.Perm [proc] := by
    have contents := holds.contents
    cases schedClass with
    | rr | fifo => exact pools.elim
    | stride | sjf | hpf =>
      obtain ⟨tree, pooled, same, -⟩ := contents
      exact ⟨tree, pooled, same⟩
  obtain ⟨tree, pooled, same⟩ := stored
  refine ⟨tree, pooled, same, ?_⟩
  have only := List.perm_singleton.mp same
  cases tree with
  | leaf => cases only
  | node left value right =>
    rw [SkewTree.elems_node, List.cons.injEq, List.append_eq_nil_iff] at only
    obtain ⟨-, leftEmpty, rightEmpty⟩ := only
    cases left with
    | node => cases leftEmpty
    | leaf =>
      cases right with
      | node => cases rightEmpty
      | leaf => exact SkewTree.edges_single _ _

theorem enqueue_pool (pools : Pools schedClass) (pid : Ptr → Int) (proc : Ptr) (rq : RunQueue) :
    schedClass.enqueue pid proc rq = poolEnqueue (comp pid rq schedClass) proc rq := by
  cases schedClass with
  | stride | sjf | hpf => rfl
  | rr | fifo => exact pools.elim

theorem dequeue_pool (pools : Pools schedClass) (pid : Ptr → Int) (proc : Ptr) (rq : RunQueue) :
    schedClass.dequeue pid proc rq = poolDequeue (comp pid rq schedClass) proc rq := by
  cases schedClass with
  | stride | sjf | hpf => rfl
  | rr | fifo => exact pools.elim

/-- A process that enters the queue is merged into the heap. -/
theorem Heaped.enqueue (heaped : Heaped schedClass pid rq queue) (pools : Pools schedClass) (distinct : queue.Nodup)
    (absent : proc ∉ queue) (room : queue.length < maxProcess) (done : schedClass.enqueue pid proc rq = .ok after) :
    Heaped schedClass pid after (queue ++ [proc]) ∧ SameKeys rq after := by
  obtain ⟨tree, pooled, same, edges⟩ := heaped
  obtain ⟨after', entered, pooled', keys, -⟩ := @poolEnqueue_pooled rq proc (comp pid rq schedClass) tree pooled
    (same.nodup_iff.mpr distinct) (fun inside => absent (same.subset inside)) (same.length_eq ▸ room)
  rw [enqueue_pool pools] at done
  cases Except.ok.inj (entered.symm.trans done)
  refine ⟨⟨_, pooled', ?_, ?_⟩, keys⟩
  · exact (SkewTree.merge_elems _ _ _).trans (List.Perm.append_right _ same)
  · exact (SkewTree.merge_edges edges (SkewTree.edges_single _ proc)).congr
      (fun p first q second => (keys.agree pid (_ : List Ptr)).above first second)

theorem Heaped.initSched (heaped : Heaped schedClass pid rq queue) (fresh : proc ∉ queue) (value : Int) :
    Heaped schedClass (Function.update pid proc value) (initSched proc rq) queue := by
  have away : ∀ other ∈ queue, other ≠ proc := fun other inside => ne_of_mem_of_not_mem inside fresh
  refine heaped.congr ⟨?_, ?_, ?_⟩ (fun tree same pooled => initSched_pooled pooled (fun inside => fresh (same.subset inside)))
  · exact fun other inside => Function.update_of_ne (away other inside) _ _
  · exact fun other inside => Function.update_of_ne (away other inside) _ _
  · exact fun other inside => Function.update_of_ne (away other inside) _ _

theorem picked_agree (pid : Ptr → Int) (rq : RunQueue) (absent : proc ∉ members) :
    Agree pid pid rq (rq.picked proc schedClass) members := by
  cases schedClass with
  | stride =>
    refine ⟨fun other inside => ?_, fun _ _ => rfl, fun _ _ => rfl⟩
    exact Function.update_of_ne (ne_of_mem_of_not_mem inside absent) _ _
  | rr | fifo | sjf | hpf => exact ⟨fun _ _ => rfl, fun _ _ => rfl, fun _ _ => rfl⟩

theorem picked_pooled {tree : SkewTree Ptr} (pooled : rq.Pooled tree) (proc : Ptr) : (rq.picked proc schedClass).Pooled tree := by
  cases schedClass with
  | stride => exact pooled.congr rfl rfl
  | rr | fifo | sjf | hpf => exact pooled

/-- The picked process leaves from the top of the heap. -/
theorem Heaped.dequeue (heaped : Heaped schedClass pid rq queue) (pools : Pools schedClass) (held : Holds schedClass rq queue)
    (choice : rq.lab6RunPool = some proc) (done : schedClass.dequeue pid proc (rq.picked proc schedClass) = .ok after) :
    Heaped schedClass pid after (queue.erase proc) ∧ SameKeys (rq.picked proc schedClass) after := by
  obtain ⟨tree, pooled, same, edges⟩ := heaped
  have root : tree.root = some proc := pooled.root.symm.trans choice
  have member : proc ∈ queue := same.subset (SkewTree.root_mem root)
  have held' := picked_holds held proc
  cases tree with
  | leaf => cases root
  | node left top right =>
    cases root
    have size := same.length_eq.trans_le held.room
    rw [SkewTree.elems_node, List.length_cons, List.length_append] at size
    have distinct := same.nodup_iff.mpr held.distinct
    obtain ⟨after', left', pooled', keys, -⟩ := @poolDequeue_pooled (rq.picked proc schedClass) proc
      (comp pid (rq.picked proc schedClass) schedClass) left right (picked_pooled pooled proc) distinct (Nat.le_of_succ_le size)
      (held'.enrolled proc member) (held'.positive member)
    rw [dequeue_pool pools] at done
    cases Except.ok.inj (left'.symm.trans done)
    have absent := (List.nodup_cons.mp distinct).1
    have agree : Agree pid pid rq (rq.picked proc schedClass) (left.elems ++ right.elems) := picked_agree pid rq absent
    obtain ⟨-, leftEdges, rightEdges⟩ := edges
    have leftEdges' : left.Edges (Above pid (rq.picked proc schedClass) schedClass) := leftEdges.congr (fun p first q second =>
      agree.above (List.mem_append_left _ first) (List.mem_append_left _ second))
    have rightEdges' : right.Edges (Above pid (rq.picked proc schedClass) schedClass) := rightEdges.congr (fun p first q second =>
      agree.above (List.mem_append_right _ first) (List.mem_append_right _ second))
    refine ⟨⟨_, pooled', ?_, ?_⟩, keys⟩
    · have rest : (left.elems ++ right.elems).Perm (queue.erase proc) := by
        simpa using same.erase proc
      exact (SkewTree.merge_elems _ _ _).trans rest
    · exact (SkewTree.merge_edges leftEdges' rightEdges').congr
        (fun p first q second => (keys.agree pid (left.elems ++ right.elems)).above
          ((SkewTree.merge_elems _ _ _).subset first) ((SkewTree.merge_elems _ _ _).subset second))

theorem Heaped.wakeAll (heaped : Heaped schedClass pid rq queue) (pools : Pools schedClass) (distinct : (queue ++ added).Nodup)
    (room : (queue ++ added).length ≤ maxProcess) (done : wakeAll schedClass pid added rq = .ok after) :
    Heaped schedClass pid after (queue ++ added) ∧ SameKeys rq after := by
  induction added generalizing rq queue with
  | nil =>
    cases done
    rw [List.append_nil]
    exact ⟨heaped, rfl, rfl, rfl, rfl⟩
  | cons proc added ih =>
    obtain ⟨middle, entered, rest⟩ := bind_ok done
    have split : queue ++ proc :: added = (queue ++ [proc]) ++ added := by rw [List.append_assoc, List.singleton_append]
    have absent : proc ∉ queue := fun inside =>
      (List.nodup_append.mp distinct).2.2 proc inside proc List.mem_cons_self rfl
    have space : queue.length < maxProcess := by
      rw [List.length_append, List.length_cons] at room
      omega
    obtain ⟨heaped', keys⟩ := heaped.enqueue pools (List.nodup_append.mp distinct).1 absent space entered
    rw [split] at distinct room ⊢
    obtain ⟨heaped'', keys'⟩ := ih heaped' distinct room rest
    exact ⟨heaped'', keys.trans keys'⟩

end RunQueue

open RunQueue

variable {schedClass : SchedClass} {before after : View} {added : List Ptr} {middle : RunQueue}

/-- The heap that a pick finds is in order, and so is the one it leaves. -/
theorem Pick.heaped (pick : Pick schedClass before after added middle) (pools : Pools schedClass)
    (heaped : Heaped schedClass before.pid before.rq before.queue) :
    Heaped schedClass before.pid middle (before.queue ++ added) ∧ SameKeys before.rq middle ∧
      Heaped schedClass after.pid after.rq after.queue := by
  obtain ⟨wakes, held, turns, queue, pid⟩ := pick
  obtain ⟨entered, keys⟩ := heaped.wakeAll pools held.distinct held.room wakes
  refine ⟨entered, keys, ?_⟩
  rw [pid, queue]
  rcases turn_cases held turns with ⟨empty, nobody, same⟩ | ⟨proc, chosen, choice, done⟩
  · rw [nobody, same, remaining, ← empty]
    exact entered
  · rw [chosen, remaining]
    have root : middle.lab6RunPool = some proc := by
      cases schedClass with
      | stride | sjf | hpf => exact choice
      | rr | fifo => exact pools.elim
    exact (entered.dequeue pools held root done).1

/-- A step that does not call `schedule` keeps the heap in order. -/
theorem Effect.heaped (effect : Effect schedClass before after false) (pools : Pools schedClass)
    (distinct : before.queue.Nodup) (apart : ∀ proc ∈ before.running, proc ∉ before.queue) (room : after.queue.length ≤ maxProcess)
    (heaped : Heaped schedClass before.pid before.rq before.queue) : Heaped schedClass after.pid after.rq after.queue := by
  cases effect with
  | adjust timeSlice lab6Priority rq others positive queue running pid =>
    rw [queue, rq, pid]
    refine heaped.congr ⟨fun _ _ => rfl, fun proc inside => ?_, fun _ _ => rfl⟩ (fun _ _ pooled => pooled.congr rfl rfl)
    exact others proc (fun same => apart proc same.symm inside)
  | spawn proc fresh apart rq queue running pid =>
    rw [queue, rq, pid]
    exact heaped.initSched fresh _
  | enlist proc value fresh apart pid rq queue running =>
    rw [queue, List.length_append, List.length_singleton] at room
    rw [pid] at rq
    rw [queue, pid]
    exact ((heaped.initSched fresh value).enqueue pools distinct fresh room rq).1
  | wake proc fresh apart rq queue running pid =>
    rw [queue, List.length_append, List.length_singleton] at room
    rw [queue, pid]
    exact (heaped.enqueue pools distinct fresh room rq).1

namespace Kernel

variable {k after : Kernel} {procs queue procs' queue' : List Ptr} {kids kids' : Ptr → List Ptr} {init : Ptr}
  {killed : Option Ptr} {asked : Option (Int × Nat)}

/-- The invariant, with the pool in heap order. -/
structure Settled (k : Kernel) (procs : List Ptr) (kids : Ptr → List Ptr) (queue : List Ptr) (init : Ptr) : Prop where
  invariant : k.Invariant procs kids queue init
  heaped : Pools k.schedClass → Heaped k.schedClass k.table.pid k.rq queue

theorem Invariant.running_absent (inv : k.Invariant procs kids queue init) : ∀ proc ∈ k.running, proc ∉ queue := by
  intro proc top member
  obtain ⟨rfl, -, -⟩ := running_eq_some.mp top
  exact ((inv.stable.core.queued.members _).mp member).2.2 rfl

theorem Settled.moves (settled : k.Settled procs kids queue init)
    (moves : Moves k after killed asked procs' kids' queue queue' init) : after.Settled procs' kids' queue' init := by
  obtain ⟨inv, heaped⟩ := settled
  refine ⟨moves.invariant, fun pools => ?_⟩
  have same := moves.frame.schedClass
  rw [same] at pools ⊢
  rcases moves.scheduled_cases inv with ⟨-, -, effect⟩ | ⟨-, added, middle, pick⟩
  · exact effect.heaped pools inv.stable.core.queued.holds.distinct inv.running_absent
      moves.invariant.stable.core.queued.holds.room (heaped pools)
  · exact (pick.heaped pools (heaped pools)).2.2

theorem Reachable.settled (reached : Reachable schedClass k) : ∃ procs kids queue init, k.Settled procs kids queue init := by
  induction reached with
  | boot granted booted =>
    rcases boot_spec granted with ⟨init, after, kids, done, forked, invariant⟩ | failed
    · cases Except.ok.inj (done.symm.trans booted)
      exact ⟨_, _, _, _, invariant, fun pools => .single pools invariant.stable.core.queued.holds⟩
    · cases failed.symm.trans booted
  | step _ enabled stepped ih =>
    obtain ⟨procs, kids, queue, init, settled⟩ := ih
    rcases step_ends settled.invariant enabled with ⟨after, procs', kids', queue', done, moves⟩ | ⟨halt, -, done⟩
    · cases Except.ok.inj (done.symm.trans stepped)
      exact ⟨_, _, _, _, settled.moves moves⟩
    · cases done.symm.trans stepped

end Kernel

end Ucore
