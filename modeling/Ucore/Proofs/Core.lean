import Mathlib
import Ucore.Machine
import Ucore.Proofs.Linking
import Ucore.Proofs.Turn

/-! The invariant of the kernel, and what waking a process and switching to
another do to it. -/

namespace Ucore.Kernel
open Lib RunQueue

/-- The current process if it is runnable and not the idle one. -/
def running (k : Kernel) : Option Ptr :=
  if k.state k.current = .runnable ∧ k.current ≠ k.idleproc then some k.current else none

def view (k : Kernel) (queue : List Ptr) : View := ⟨k.rq, queue, k.running, k.table.pid⟩

/-- The run queue holds the runnable processes other than the current one. -/
structure Queued (k : Kernel) (procs queue : List Ptr) : Prop where
  holds : Holds k.schedClass k.rq queue
  members : ∀ proc, proc ∈ queue ↔ proc ∈ procs ∧ k.state proc = .runnable ∧ proc ≠ k.current
  detached : ∀ proc ∈ procs, proc ∉ queue → k.rq.Detached proc

/-- A process has a wait state exactly while it sleeps. -/
structure Slept (k : Kernel) (procs : List Ptr) : Prop where
  idle : k.state k.idleproc = .runnable ∧ k.waitState k.idleproc = 0
  born : ∀ proc ∈ procs, k.state proc ≠ .uninit
  asleep : ∀ proc ∈ procs, k.state proc = .sleeping → k.waitState proc = wtChild
  awake : ∀ proc ∈ procs, k.state proc ≠ .sleeping → k.waitState proc = 0

/-- A child that `do_wait(pid, .)` waits for. -/
def Matches (k : Kernel) (pid : Int) (child : Ptr) : Prop := pid = 0 ∨ k.table.pid child = pid

/-- A sleeping process sleeps in `do_wait`, and no child it waits for has exited. -/
structure Waits (k : Kernel) (procs : List Ptr) (kids : Ptr → List Ptr) : Prop where
  waiting : ∀ proc ∈ procs, k.state proc = .sleeping → ∃ pid codeStore caller,
    k.loc proc = .waiting pid codeStore caller ∧ ∀ child ∈ kids proc, k.Matches pid child → k.state child ≠ .zombie
  barren : ∀ proc ∈ procs, k.state proc = .zombie → kids proc = []

structure Core (k : Kernel) (procs : List Ptr) (kids : Ptr → List Ptr) (queue : List Ptr) : Prop where
  table : k.table.Consistent k.idleproc procs kids
  queued : k.Queued procs queue
  slept : k.Slept procs
  waits : k.Waits procs kids

def InitLoc : Loc → Prop
  | .initMain | .initLoop => True
  | .waiting pid codeStore caller => pid = 0 ∧ codeStore = 0 ∧ caller = .initMain
  | .cpuIdle | .userMain | .forkret | .user | .trapDispatched | .trapScheduled | .exited => False

def UserLoc : Loc → Prop
  | .userMain | .forkret | .user | .trapDispatched | .trapScheduled | .exited => True
  | .waiting _ _ caller => caller = .sysWait
  | .cpuIdle | .initMain | .initLoop => False

/-- Where each process is suspended. -/
structure Located (k : Kernel) (procs : List Ptr) (init : Ptr) : Prop where
  idle : k.loc k.idleproc = .cpuIdle
  first : InitLoc (k.loc init)
  user : ∀ proc ∈ procs, proc ≠ init → UserLoc (k.loc proc)
  exited : ∀ proc ∈ procs, k.loc proc = .exited → k.state proc = .zombie

/-- What holds whenever another process may be scheduled. -/
structure Stable (k : Kernel) (procs : List Ptr) (kids : Ptr → List Ptr) (queue : List Ptr) (init : Ptr) : Prop where
  core : k.Core procs kids queue
  live : k.allocated.Perm (k.idleproc :: procs)
  located : k.Located procs init
  initproc : k.initproc = some init
  initLive : init ∈ procs ∧ k.state init ≠ .zombie
  initOnly : kids k.idleproc = [init]
  current : k.current ∈ k.idleproc :: procs

/-- What holds between the operations of the processes. -/
structure Invariant (k : Kernel) (procs : List Ptr) (kids : Ptr → List Ptr) (queue : List Ptr) (init : Ptr) : Prop where
  stable : k.Stable procs kids queue init
  runnable : k.state k.current = .runnable

/-- Everything but the table, the run queue and the states of processes is as before. -/
structure Aside (k after : Kernel) : Prop where
  schedClass : after.schedClass = k.schedClass
  runs : after.runs = k.runs
  needResched : after.needResched = k.needResched
  flags : after.flags = k.flags
  exitCode : after.exitCode = k.exitCode
  a0 : after.a0 = k.a0
  loc : after.loc = k.loc
  idleproc : after.idleproc = k.idleproc
  initproc : after.initproc = k.initproc
  current : after.current = k.current
  allocated : after.allocated = k.allocated
  serial : after.serial = k.serial
  births : after.births = k.births
  history : after.history = k.history

theorem Aside.refl (k : Kernel) : Aside k k := ⟨rfl, rfl, rfl, rfl, rfl, rfl, rfl, rfl, rfl, rfl, rfl, rfl, rfl, rfl⟩

theorem Aside.trans {k middle after : Kernel} (first : Aside k middle) (second : Aside middle after) : Aside k after where
  schedClass := second.schedClass.trans first.schedClass
  runs := second.runs.trans first.runs
  needResched := second.needResched.trans first.needResched
  flags := second.flags.trans first.flags
  exitCode := second.exitCode.trans first.exitCode
  a0 := second.a0.trans first.a0
  loc := second.loc.trans first.loc
  idleproc := second.idleproc.trans first.idleproc
  initproc := second.initproc.trans first.initproc
  current := second.current.trans first.current
  allocated := second.allocated.trans first.allocated
  serial := second.serial.trans first.serial
  births := second.births.trans first.births
  history := second.history.trans first.history

variable {k : Kernel} {procs queue : List Ptr} {kids : Ptr → List Ptr} {proc init : Ptr}

/-- `k` after `wakeup_proc` has put `proc` into the queue. -/
def woken (k : Kernel) (proc : Ptr) (rq : RunQueue) : Kernel :=
  { k with
    state := Function.update k.state proc .runnable
    waitState := Function.update k.waitState proc 0
    rq := rq }

/-- `k` after `schedule` has switched to `next`. -/
def switched (k : Kernel) (next : Ptr) (rq : RunQueue) : Kernel :=
  { k with
    needResched := Function.update k.needResched k.current false
    rq := rq
    runs := Function.update k.runs next (k.runs next + 1)
    current := next }

theorem Queued.length_le (queued : k.Queued procs queue) : queue.length ≤ procs.length :=
  (queued.holds.distinct.subperm (fun proc inside => ((queued.members proc).mp inside).1)).length_le

theorem Queued.room (queued : k.Queued procs queue) (listed : procs.length < maxProcess) {others : List Ptr}
    (distinct : (queue ++ others).Nodup) (inside : ∀ proc ∈ others, proc ∈ procs) :
    (queue ++ others).length ≤ maxProcess := by
  refine (List.Subperm.length_le (distinct.subperm ?_)).trans (Nat.le_of_lt listed)
  intro proc member
  rcases List.mem_append.mp member with old | new
  · exact ((queued.members proc).mp old).1
  · exact inside proc new

theorem wakeupProc_eq (still : k.state proc ≠ .runnable) (alive : k.state proc ≠ .zombie) (away : proc ≠ k.current)
    (busy : proc ≠ k.idleproc) {rq : RunQueue} (entered : k.schedClass.enqueue k.table.pid proc k.rq = .ok rq) :
    wakeupProc proc k = .ok (k.woken proc rq) := by
  simp only [wakeupProc, alive, ne_eq, not_false_eq_true, decide_true, assert_true, ok_bind, still, if_true, away,
    schedClassEnqueue, setState, setWaitState, busy, entered]
  rfl

/-- Waking a process that is not runnable. -/
theorem wakeupProc_spec (queued : k.Queued procs queue) (root : k.idleproc ∉ procs) (listed : procs.length < maxProcess)
    (member : proc ∈ procs) (still : k.state proc ≠ .runnable) (alive : k.state proc ≠ .zombie) (away : proc ≠ k.current) :
    ∃ rq, k.schedClass.enqueue k.table.pid proc k.rq = .ok rq ∧ wakeupProc proc k = .ok (k.woken proc rq) ∧
      (k.woken proc rq).Queued procs (queue ++ [proc]) := by
  have absent : proc ∉ queue := fun inside => still ((queued.members proc).mp inside).2.1
  have distinct : (queue ++ [proc]).Nodup := by
    rw [List.nodup_append_comm]
    exact List.nodup_cons.mpr ⟨absent, queued.holds.distinct⟩
  have bound := queued.room listed distinct (fun other inside => List.mem_singleton.mp inside ▸ member)
  rw [List.length_append, List.length_singleton] at bound
  obtain ⟨rq, entered, holds, untouched⟩ := enqueue_spec k.table.pid queued.holds absent
    (queued.detached proc member absent) bound
  refine ⟨rq, entered, wakeupProc_eq still alive away (ne_of_mem_of_not_mem member root) entered, holds, ?_, ?_⟩
  · intro other
    rw [List.mem_append, List.mem_singleton, queued.members other]
    by_cases same : other = proc
    · subst same
      simp [woken, member, away]
    · simp [woken, same]
  · intro other inside outside
    rw [List.mem_append, List.mem_singleton, not_or] at outside
    apply untouched.detached other ?_ (queued.detached other inside outside.1)
    rw [List.mem_cons, not_or]
    exact ⟨outside.2, outside.1⟩

private theorem enqueue_current (k : Kernel) :
    onlyIf (k.state k.current = .runnable) (schedClassEnqueue k.current) k =
      (enter k.schedClass k.table.pid k.running k.rq >>= fun rq => .ok { k with rq := rq }) := by
  by_cases runnable : k.state k.current = .runnable
  · by_cases idle : k.current = k.idleproc
    · have none : k.running = none := by rw [running, if_neg (fun both => both.2 idle)]
      rw [onlyIf, if_pos runnable, schedClassEnqueue, if_neg (not_not.mpr idle), none]
      rfl
    · have some : k.running = some k.current := by rw [running, if_pos ⟨runnable, idle⟩]
      rw [onlyIf, if_pos runnable, schedClassEnqueue, if_pos idle, some]
      rfl
  · have none : k.running = none := by rw [running, if_neg (fun both => runnable both.1)]
    rw [onlyIf, if_neg runnable, none]
    rfl

/-- `schedule` is a turn of the scheduler and a switch. -/
theorem schedule_eq (k : Kernel) :
    schedule k = turn k.schedClass k.table.pid k.running k.rq >>= fun result =>
      .ok (k.switched (result.1.getD k.idleproc) result.2) := by
  have entered := enqueue_current (k.setNeedResched k.current false)
  rw [schedule, entered]
  change (enter k.schedClass k.table.pid k.running k.rq >>= _) >>= _ = turn k.schedClass k.table.pid k.running k.rq >>= _
  rw [turn]
  cases enter k.schedClass k.table.pid k.running k.rq with
  | error halt => rfl
  | ok rq =>
    simp only [ok_bind, setNeedResched]
    generalize k.schedClass.pickNext rq = picked
    obtain ⟨rq, next⟩ := picked
    cases next with
    | none => rfl
    | some next =>
      simp only [schedClassDequeueNext, schedClassDequeue, takeOut]
      cases k.schedClass.dequeue k.table.pid next rq with
      | error halt => rfl
      | ok rq => rfl

theorem running_eq_some : k.running = some proc ↔ proc = k.current ∧ k.state proc = .runnable ∧ proc ≠ k.idleproc := by
  rw [running]
  split
  · rename_i both
    constructor
    · intro same
      cases same
      exact ⟨rfl, both⟩
    · exact fun facts => congrArg some facts.1.symm
  · rename_i neither
    refine ⟨fun top => (nomatch top), fun ⟨same, facts⟩ => absurd (same ▸ facts) neither⟩

/-- Switching to the next process. -/
theorem schedule_spec (queued : k.Queued procs queue) (root : k.idleproc ∉ procs) (listed : procs.length < maxProcess)
    (live : k.current ∈ k.idleproc :: procs) :
    ∃ next rq, turn k.schedClass k.table.pid k.running k.rq = .ok (next, rq) ∧
      schedule k = .ok (k.switched (next.getD k.idleproc) rq) ∧
      (k.switched (next.getD k.idleproc) rq).Queued procs (remaining (candidates queue k.running) next) ∧
      (∀ proc ∈ next, proc ∈ procs ∧ k.state proc = .runnable) ∧
      (next = none → ∀ proc ∈ procs, k.state proc ≠ .runnable) := by
  have inside : ∀ proc ∈ k.running, proc ∈ procs := by
    intro proc top
    obtain ⟨rfl, -, busy⟩ := running_eq_some.mp top
    exact (List.mem_cons.mp live).resolve_left busy
  have absent : ∀ proc ∈ k.running, proc ∉ queue := by
    intro proc top member
    obtain ⟨rfl, -, -⟩ := running_eq_some.mp top
    exact ((queued.members _).mp member).2.2 rfl
  have distinct : (candidates queue k.running).Nodup := by
    rw [candidates]
    cases who : k.running with
    | none => simpa using queued.holds.distinct
    | some proc =>
      rw [Option.toList_some, List.nodup_append_comm]
      exact List.nodup_cons.mpr ⟨absent proc who, queued.holds.distinct⟩
  have members : ∀ proc, proc ∈ candidates queue k.running ↔ proc ∈ procs ∧ k.state proc = .runnable := by
    intro proc
    rw [candidates, List.mem_append, queued.members proc, Option.mem_toList, running_eq_some]
    constructor
    · rintro (⟨member, runnable, -⟩ | ⟨rfl, runnable, busy⟩)
      · exact ⟨member, runnable⟩
      · exact ⟨(List.mem_cons.mp live).resolve_left busy, runnable⟩
    · rintro ⟨member, runnable⟩
      by_cases same : proc = k.current
      · exact Or.inr ⟨same, runnable, ne_of_mem_of_not_mem member root⟩
      · exact Or.inl ⟨member, runnable, same⟩
  obtain ⟨next, rq, turned, holds, empty, chosen, free, kept⟩ := turn_spec k.table.pid queued.holds absent
    (fun proc top => queued.detached proc (inside proc top) (absent proc top))
    (queued.room listed distinct (fun proc top => inside proc (Option.mem_toList.mp top)))
  refine ⟨next, rq, turned, by rw [schedule_eq, turned]; rfl, ⟨holds, ?_, ?_⟩, ?_, ?_⟩
  · intro proc
    cases next with
    | none =>
      have nobody := (members proc).not.mp (empty rfl ▸ List.not_mem_nil)
      constructor
      · exact fun member => absurd member List.not_mem_nil
      · exact fun facts => absurd ⟨facts.1, facts.2.1⟩ nobody
    | some next =>
      rw [remaining, List.Nodup.mem_erase_iff distinct, members proc]
      exact and_rotate
  · intro proc member outside
    by_cases candidate : proc ∈ candidates queue k.running
    · cases next with
      | none => exact absurd (empty rfl ▸ candidate) List.not_mem_nil
      | some next =>
        rw [remaining, List.Nodup.mem_erase_iff distinct] at outside
        have same : proc = next := by
          by_contra other
          exact outside ⟨other, candidate⟩
        exact free proc (congrArg some same.symm)
    · exact kept proc candidate (queued.detached proc member (fun early => candidate (List.mem_append_left _ early)))
  · exact fun proc top => (members proc).mp (chosen proc top)
  · intro none proc member runnable
    have candidate := (members proc).mpr ⟨member, runnable⟩
    rw [empty none] at candidate
    exact List.not_mem_nil candidate

theorem Aside.woken (k : Kernel) (proc : Ptr) (rq : RunQueue) : Aside k (k.woken proc rq) :=
  ⟨rfl, rfl, rfl, rfl, rfl, rfl, rfl, rfl, rfl, rfl, rfl, rfl, rfl, rfl⟩

/-- After a `schedule` the invariant holds, and the next process runs. -/
theorem Stable.schedule (stable : k.Stable procs kids queue init) :
    ∃ next rq, turn k.schedClass k.table.pid k.running k.rq = .ok (next, rq) ∧
      schedule k = .ok (k.switched (next.getD k.idleproc) rq) ∧
      (k.switched (next.getD k.idleproc) rq).Invariant procs kids (remaining (candidates queue k.running) next) init ∧
      (k.switched (next.getD k.idleproc) rq).running = next ∧
      (next = none → ∀ proc ∈ procs, k.state proc ≠ .runnable) := by
  obtain ⟨⟨table, queued, slept, waits⟩, live, located, initproc, initLive, initOnly, current⟩ := stable
  have root := table.indexed.root
  obtain ⟨next, rq, turned, done, queued', chosen, nobody⟩ := schedule_spec queued root table.indexed.room current
  refine ⟨next, rq, turned, done, ⟨⟨⟨table, queued', ⟨slept.idle, slept.born, slept.asleep, slept.awake⟩,
    ⟨waits.waiting, waits.barren⟩⟩, live, ⟨located.idle, located.first, located.user, located.exited⟩, initproc, initLive, initOnly,
    ?_⟩, ?_⟩, ?_, nobody⟩
  · cases next with
    | none => exact List.mem_cons_self
    | some next => exact List.mem_cons_of_mem _ (chosen next rfl).1
  · cases next with
    | none => exact slept.idle.1
    | some next => exact (chosen next rfl).2
  · cases next with
    | none =>
      rw [running, if_neg]
      exact fun both => both.2 rfl
    | some next =>
      rw [running, if_pos]
      · rfl
      · exact ⟨(chosen next rfl).2, ne_of_mem_of_not_mem (chosen next rfl).1 root⟩

section Place

variable {loc : Loc}

/-- The invariant does not see flags, registers, time slices, priorities and ghosts. -/
structure Alike (k after : Kernel) : Prop where
  schedClass : after.schedClass = k.schedClass
  table : after.table = k.table
  rq : ∃ timeSlice lab6Priority, after.rq = { k.rq with timeSlice := timeSlice, lab6Priority := lab6Priority }
  state : after.state = k.state
  waitState : after.waitState = k.waitState
  loc : after.loc = k.loc
  idleproc : after.idleproc = k.idleproc
  initproc : after.initproc = k.initproc
  current : after.current = k.current
  allocated : after.allocated = k.allocated

theorem Queued.alike {after : Kernel} (queued : k.Queued procs queue) (alike : Alike k after) : after.Queued procs queue := by
  obtain ⟨timeSlice, lab6Priority, rq⟩ := alike.rq
  refine ⟨?_, ?_, ?_⟩
  · rw [alike.schedClass]
    exact queued.holds.congr (by rw [rq]) (by rw [rq]) (by rw [rq]) (by rw [rq]) (by rw [rq])
  · rw [alike.state, alike.current]
    exact queued.members
  · intro proc member outside
    rw [RunQueue.Detached, show after.rq.runList = k.rq.runList by rw [rq]]
    exact queued.detached proc member outside

theorem Slept.alike {after : Kernel} (slept : k.Slept procs) (alike : Alike k after) : after.Slept procs := by
  obtain ⟨idle, born, asleep, awake⟩ := slept
  refine ⟨?_, ?_, ?_, ?_⟩
  all_goals rw [alike.state]
  · rw [alike.waitState, alike.idleproc]
    exact idle
  · exact born
  · rw [alike.waitState]
    exact asleep
  · rw [alike.waitState]
    exact awake

theorem Waits.alike {after : Kernel} (waits : k.Waits procs kids) (alike : Alike k after) : after.Waits procs kids := by
  obtain ⟨waiting, barren⟩ := waits
  have matched : ∀ pid child, after.Matches pid child ↔ k.Matches pid child := by
    intro pid child
    rw [Matches, Matches, alike.table]
  refine ⟨?_, ?_⟩
  all_goals rw [alike.state]
  · rw [alike.loc]
    simp only [matched]
    exact waiting
  · exact barren

theorem Core.alike {after : Kernel} (core : k.Core procs kids queue) (alike : Alike k after) : after.Core procs kids queue := by
  refine ⟨?_, core.queued.alike alike, core.slept.alike alike, core.waits.alike alike⟩
  rw [alike.table, alike.idleproc]
  exact core.table

theorem Located.alike {after : Kernel} (located : k.Located procs init) (alike : Alike k after) : after.Located procs init := by
  obtain ⟨idle, first, user, exited⟩ := located
  refine ⟨?_, ?_, ?_, ?_⟩
  all_goals rw [alike.loc]
  · rw [alike.idleproc]
    exact idle
  · exact first
  · exact user
  · rw [alike.state]
    exact exited

theorem Stable.alike {after : Kernel} (stable : k.Stable procs kids queue init) (alike : Alike k after) :
    after.Stable procs kids queue init where
  core := stable.core.alike alike
  live := by
    rw [alike.allocated, alike.idleproc]
    exact stable.live
  located := stable.located.alike alike
  initproc := alike.initproc.trans stable.initproc
  initLive := by
    rw [alike.state]
    exact stable.initLive
  initOnly := by
    rw [alike.idleproc]
    exact stable.initOnly
  current := by
    rw [alike.current, alike.idleproc]
    exact stable.current

theorem Invariant.alike {after : Kernel} (inv : k.Invariant procs kids queue init) (alike : Alike k after) :
    after.Invariant procs kids queue init := by
  refine ⟨inv.stable.alike alike, ?_⟩
  rw [alike.state, alike.current]
  exact inv.runnable

theorem running_congr {after : Kernel} (state : after.state after.current = k.state k.current)
    (current : after.current = k.current) (idle : after.idleproc = k.idleproc) : after.running = k.running := by
  rw [running, running, state, current, idle]

/-- A place where the current process can be suspended. -/
structure Suits (k : Kernel) (init : Ptr) (loc : Loc) : Prop where
  busy : k.current ≠ k.idleproc
  first : k.current = init → InitLoc loc
  user : k.current ≠ init → UserLoc loc ∧ loc ≠ .exited

theorem Located.setLoc (located : k.Located procs init) (suits : k.Suits init loc) :
    (k.setLoc k.current loc).Located procs init := by
  refine ⟨?_, ?_, ?_, ?_⟩
  · exact (Function.update_of_ne suits.busy.symm _ _).trans located.idle
  · by_cases first : init = k.current
    · rw [show (k.setLoc k.current loc).loc init = loc from first ▸ Function.update_self _ _ _]
      exact suits.first first.symm
    · rw [show (k.setLoc k.current loc).loc init = k.loc init from Function.update_of_ne first _ _]
      exact located.first
  · intro proc member user
    by_cases same : proc = k.current
    · rw [show (k.setLoc k.current loc).loc proc = loc from same ▸ Function.update_self _ _ _]
      exact (suits.user (same ▸ user)).1
    · rw [show (k.setLoc k.current loc).loc proc = k.loc proc from Function.update_of_ne same _ _]
      exact located.user proc member user
  · intro proc member gone
    by_cases same : proc = k.current
    · rw [show (k.setLoc k.current loc).loc proc = loc from same ▸ Function.update_self _ _ _] at gone
      by_cases first : k.current = init
      · exact absurd (suits.first first) (by rw [gone]; exact id)
      · exact absurd gone (suits.user first).2
    · rw [show (k.setLoc k.current loc).loc proc = k.loc proc from Function.update_of_ne same _ _] at gone
      exact located.exited proc member gone

theorem Invariant.setLoc (inv : k.Invariant procs kids queue init) (suits : k.Suits init loc) :
    (k.setLoc k.current loc).Invariant procs kids queue init := by
  obtain ⟨⟨⟨table, queued, slept, waits⟩, live, located, initproc, initLive, initOnly, current⟩, runnable⟩ := inv
  refine ⟨⟨⟨table, ⟨queued.holds, queued.members, queued.detached⟩, ⟨slept.idle, slept.born, slept.asleep, slept.awake⟩, ⟨?_,
    waits.barren⟩⟩, live, located.setLoc suits, initproc, initLive, initOnly, current⟩, runnable⟩
  intro proc member asleep
  have away : proc ≠ k.current := by
    rintro rfl
    exact absurd (asleep.symm.trans runnable) (by decide)
  obtain ⟨pid, codeStore, caller, place, none⟩ := waits.waiting proc member asleep
  exact ⟨pid, codeStore, caller, (Function.update_of_ne away _ _).trans place, none⟩

end Place

end Ucore.Kernel
