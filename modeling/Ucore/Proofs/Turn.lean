import Mathlib
import Ucore.Proofs.RunQueue

/-! The scheduler apart from the processes: the run queue, who is in it, and who
runs. Every step of the kernel has one of a few effects on this view. -/

namespace Ucore
open Lib RunQueue

/-- `running` is the current process if it is runnable and not the idle one. -/
structure View where
  rq : RunQueue
  queue : List Ptr
  running : Option Ptr
  pid : Ptr → Int

def enter (schedClass : SchedClass) (pid : Ptr → Int) : Option Ptr → RunQueue → Kern RunQueue
  | some proc => schedClass.enqueue pid proc
  | none => .ok

def takeOut (schedClass : SchedClass) (pid : Ptr → Int) : Option Ptr → RunQueue → Kern RunQueue
  | some proc => schedClass.dequeue pid proc
  | none => .ok

/-- One `schedule`: `entering` is put back, the next process is picked and taken out. -/
def turn (schedClass : SchedClass) (pid : Ptr → Int) (entering : Option Ptr) (rq : RunQueue) :
    Kern (Option Ptr × RunQueue) := do
  let rq ← enter schedClass pid entering rq
  let picked := schedClass.pickNext rq
  let rq ← takeOut schedClass pid picked.2 picked.1
  .ok (picked.2, rq)

/-- The queue that a turn picks from. -/
def candidates (queue : List Ptr) (entering : Option Ptr) : List Ptr := queue ++ entering.toList

def remaining (candidates : List Ptr) (next : Option Ptr) : List Ptr :=
  match next with
  | some next => candidates.erase next
  | none => []

/-- The fields of a fresh process that the scheduler reads. -/
def initSched (proc : Ptr) (rq : RunQueue) : RunQueue :=
  { rq with
    rq := Function.update rq.rq proc false
    runList := listInit (some proc) rq.runList
    timeSlice := Function.update rq.timeSlice proc 0
    pool := skewHeapInit proc rq.pool
    lab6Stride := Function.update rq.lab6Stride proc 0
    lab6Priority := Function.update rq.lab6Priority proc 1
    trueStride := Function.update rq.trueStride proc 0 }

/-- `woken` enter the queue one after the other. -/
def wakeAll (schedClass : SchedClass) (pid : Ptr → Int) : List Ptr → RunQueue → Kern RunQueue
  | [], rq => .ok rq
  | proc :: woken, rq => do
    let rq ← schedClass.enqueue pid proc rq
    wakeAll schedClass pid woken rq

/-- What a step of the kernel does to the scheduler; the flag says whether it calls
`schedule`. -/
inductive Effect (schedClass : SchedClass) (before after : View) : Bool → Prop where
  /-- Time slices, and the priority of the running process, may change. -/
  | adjust (timeSlice : Ptr → Int) (lab6Priority : Ptr → BitVec 32)
      (rq : after.rq = { before.rq with timeSlice := timeSlice, lab6Priority := lab6Priority })
      (others : ∀ proc, some proc ≠ before.running → lab6Priority proc = before.rq.lab6Priority proc)
      (positive : ∀ proc, before.rq.lab6Priority proc ≠ 0 → lab6Priority proc ≠ 0)
      (queue : after.queue = before.queue) (running : after.running = before.running) (pid : after.pid = before.pid) :
      Effect schedClass before after false
  /-- A `do_fork` that fails: the `proc_struct` is gone again. -/
  | spawn (proc : Ptr) (fresh : proc ∉ before.queue) (apart : before.running ≠ some proc)
      (rq : after.rq = initSched proc before.rq) (queue : after.queue = before.queue)
      (running : after.running = before.running) (pid : after.pid = Function.update before.pid proc (-1)) :
      Effect schedClass before after false
  /-- A `do_fork` that succeeds. -/
  | enlist (proc : Ptr) (value : Int) (fresh : proc ∉ before.queue) (apart : before.running ≠ some proc)
      (pid : after.pid = Function.update before.pid proc value)
      (rq : schedClass.enqueue after.pid proc (initSched proc before.rq) = .ok after.rq)
      (queue : after.queue = before.queue ++ [proc]) (running : after.running = before.running) :
      Effect schedClass before after false
  /-- A killed process wakes up. -/
  | wake (proc : Ptr) (fresh : proc ∉ before.queue) (apart : before.running ≠ some proc)
      (rq : schedClass.enqueue before.pid proc before.rq = .ok after.rq)
      (queue : after.queue = before.queue ++ [proc]) (running : after.running = before.running)
      (pid : after.pid = before.pid) : Effect schedClass before after false
  /-- The running process exits or goes to sleep. -/
  | leave (woken : List Ptr) (middle : RunQueue) (held : Holds schedClass middle (before.queue ++ woken))
      (apart : ∀ proc ∈ woken, before.running ≠ some proc)
      (wakes : wakeAll schedClass before.pid woken before.rq = .ok middle)
      (turns : turn schedClass before.pid none middle = .ok (after.running, after.rq))
      (queue : after.queue = remaining (before.queue ++ woken) after.running) (pid : after.pid = before.pid) :
      Effect schedClass before after true
  /-- The running process gives way. -/
  | turn (turns : turn schedClass before.pid before.running before.rq = .ok (after.running, after.rq))
      (queue : after.queue = remaining (candidates before.queue before.running) after.running)
      (pid : after.pid = before.pid) : Effect schedClass before after true

theorem Effect.refl (schedClass : SchedClass) (view : View) : Effect schedClass view view false :=
  .adjust view.rq.timeSlice view.rq.lab6Priority rfl (fun _ _ => rfl) (fun _ positive => positive) rfl rfl rfl

variable {schedClass : SchedClass} {rq : RunQueue} {queue woken : List Ptr} {entering : Option Ptr} {pid : Ptr → Int}

variable (pid) in
/-- The whole of a turn: no assertion fails, somebody is picked unless nobody can
be, and the list classes pick the one in front. -/
theorem turn_spec (holds : Holds schedClass rq queue) (absent : ∀ proc ∈ entering, proc ∉ queue)
    (detached : ∀ proc ∈ entering, rq.Detached proc) (room : (candidates queue entering).length ≤ maxProcess) :
    ∃ next after, turn schedClass pid entering rq = .ok (next, after) ∧
      Holds schedClass after (remaining (candidates queue entering) next) ∧
      (next = none → candidates queue entering = []) ∧ (∀ proc ∈ next, proc ∈ candidates queue entering) ∧
      (∀ proc ∈ next, after.Detached proc) ∧
      (∀ other, other ∉ candidates queue entering → rq.Detached other → after.Detached other) := by
  have entered : ∃ middle, enter schedClass pid entering rq = .ok middle ∧
      Holds schedClass middle (candidates queue entering) ∧
      ∀ other, other ∉ candidates queue entering → rq.Detached other → middle.Detached other := by
    cases entering with
    | none => exact ⟨rq, rfl, by rwa [candidates, Option.toList_none, List.append_nil], fun _ _ apart => apart⟩
    | some proc =>
      have space : queue.length < maxProcess := by
        rw [candidates, Option.toList_some, List.length_append, List.length_singleton] at room
        exact room
      obtain ⟨middle, done, middleHolds, untouched⟩ := enqueue_spec pid holds (absent proc rfl) (detached proc rfl) space
      refine ⟨middle, done, middleHolds, ?_⟩
      intro other outside apart
      apply untouched.detached other ?_ apart
      simpa [candidates, or_comm] using outside
  obtain ⟨middle, done, middleHolds, kept⟩ := entered
  rw [turn, done]
  simp only [ok_bind]
  by_cases empty : candidates queue entering = []
  · rw [empty] at middleHolds
    rw [pickNext_none middleHolds, empty]
    refine ⟨none, middle, rfl, middleHolds, fun _ => rfl, fun _ top => (nomatch top), fun _ top => (nomatch top), ?_⟩
    rw [← empty]
    exact kept
  · obtain ⟨proc, choice, picked⟩ := pickNext_some middleHolds empty
    obtain ⟨after, left, afterHolds, untouched, free⟩ := dequeue_spec pid (picked_holds middleHolds proc)
      (picked_choice choice)
    rw [picked]
    simp only [takeOut, left, ok_bind]
    refine ⟨some proc, after, rfl, afterHolds, fun none => (nomatch none), ?_, ?_, ?_⟩
    · intro other top
      cases top
      exact choice.member middleHolds
    · intro other top
      cases top
      exact free
    · intro other outside apart
      exact untouched.detached other outside ((picked_detached _ _ _).mpr (kept other outside apart))

/-- Processes outside the queue can all enter it. -/
theorem wakeAll_spec (holds : Holds schedClass rq queue) (distinct : (queue ++ woken).Nodup)
    (detached : ∀ proc ∈ woken, rq.Detached proc) (room : (queue ++ woken).length ≤ maxProcess) :
    ∃ after, wakeAll schedClass pid woken rq = .ok after ∧ Holds schedClass after (queue ++ woken) ∧
      Untouched rq after (queue ++ woken) := by
  induction woken generalizing rq queue with
  | nil =>
    rw [List.append_nil]
    exact ⟨rq, rfl, holds, ⟨⟨rfl, rfl, rfl, rfl⟩, fun _ _ apart => apart⟩⟩
  | cons proc woken ih =>
    have split : queue ++ proc :: woken = (queue ++ [proc]) ++ woken := by rw [List.append_assoc, List.singleton_append]
    have absent : proc ∉ queue := fun inside =>
      (List.nodup_append.mp distinct).2.2 proc inside proc List.mem_cons_self rfl
    have space : queue.length < maxProcess := by
      rw [List.length_append, List.length_cons] at room
      omega
    obtain ⟨middle, entered, middleHolds, first⟩ := enqueue_spec pid holds absent (detached proc List.mem_cons_self) space
    rw [split] at distinct room ⊢
    have later : ∀ other ∈ woken, middle.Detached other := by
      intro other inside
      apply first.detached other ?_ (detached other (List.mem_cons_of_mem _ inside))
      intro member
      have shared : other ∈ queue ++ [proc] := by simpa [or_comm] using member
      exact (List.nodup_append.mp distinct).2.2 other shared other inside rfl
    obtain ⟨after, done, afterHolds, rest⟩ := ih middleHolds distinct later room
    refine ⟨after, by rw [wakeAll, entered]; exact done, afterHolds, ⟨first.keys.trans rest.keys, ?_⟩⟩
    · intro other outside apart
      apply rest.detached other outside (first.detached other ?_ apart)
      intro member
      apply outside
      apply List.mem_append_left
      simpa [or_comm] using member

private theorem init_fresh {member : Ptr} {members : List Ptr} {proc : Ptr} (fresh : proc ∉ members) (inside : member ∈ members) :
    member ≠ proc :=
  ne_of_mem_of_not_mem inside fresh

theorem initSched_pooled {proc : Ptr} {tree : SkewTree Ptr} (pooled : rq.Pooled tree) (fresh : proc ∉ tree.elems) :
    (initSched proc rq).Pooled tree := by
  obtain ⟨stored, root, top⟩ := pooled
  refine ⟨stored.frame ?_ ?_ ?_, root, ?_⟩
  · exact fun node inside => Function.update_of_ne (init_fresh fresh inside) _ _
  · exact fun node inside => Function.update_of_ne (init_fresh fresh inside) _ _
  · exact fun node inside => Function.update_of_ne (init_fresh fresh (List.mem_of_mem_tail inside)) _ _
  · intro node found
    exact (Function.update_of_ne (init_fresh fresh (SkewTree.root_mem found)) _ _).trans (top node found)

theorem initSched_holds {proc : Ptr} (holds : Holds schedClass rq queue) (fresh : proc ∉ queue) :
    Holds schedClass (initSched proc rq) queue := by
  refine ⟨?_, holds.distinct, ?_, holds.count, holds.room⟩
  · have contents := holds.contents
    cases schedClass with
    | rr | fifo => exact listInit_apart contents (by simpa using fresh)
    | stride | sjf | hpf =>
      obtain ⟨tree, pooled, members, detached⟩ := contents
      refine ⟨tree, initSched_pooled pooled (fun inside => fresh (members.subset inside)), members, ?_⟩
      intro node inside
      have same := (listInit_outside (some proc) rq.runList).next (some node)
        (by simpa using init_fresh fresh inside)
      rw [Detached, listEmpty, initSched, same]
      exact detached node inside
  · intro node inside
    exact (Function.update_of_ne (init_fresh fresh inside) _ _).trans (holds.enrolled node inside)

theorem initSched_detached (proc : Ptr) (rq : RunQueue) {other : Ptr} (apart : other = proc ∨ rq.Detached other) :
    (initSched proc rq).Detached other := by
  by_cases same : other = proc
  · subst same
    simp [Detached, listEmpty, initSched, listInit, Links.setNext, Links.setPrev]
  · have next := (listInit_outside (some proc) rq.runList).next (some other) (by simpa using same)
    rw [Detached, listEmpty, initSched, next]
    exact apart.resolve_left same

end Ucore
