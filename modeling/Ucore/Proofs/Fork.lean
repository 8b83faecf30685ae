import Mathlib
import Ucore.Proofs.Core

/-! `do_fork`: a fresh process is set up, and either given up again or admitted to
the table and woken. -/

namespace Ucore.Kernel
open Lib RunQueue ProcTable

variable {k : Kernel} {procs queue : List Ptr} {kids : Ptr → List Ptr} {proc init : Ptr}

/-- `k` after `alloc_proc` and `proc->parent = current`. -/
def spawned (k : Kernel) (proc : Ptr) : Kernel :=
  { k.allocProc proc with table := (k.allocProc proc).table.setParent proc (some k.current) }

/-- On all processes but `proc` the states, the wait states and the places are as before. -/
structure Elsewhere (k after : Kernel) (proc : Ptr) : Prop where
  state : ∀ other, other ≠ proc → after.state other = k.state other
  waitState : ∀ other, other ≠ proc → after.waitState other = k.waitState other
  loc : ∀ other, other ≠ proc → after.loc other = k.loc other

theorem Slept.elsewhere {after : Kernel} (slept : k.Slept procs) (elsewhere : Elsewhere k after proc)
    (fresh : proc ∉ k.idleproc :: procs) (idle : after.idleproc = k.idleproc) : after.Slept procs := by
  have away : ∀ other ∈ k.idleproc :: procs, other ≠ proc := fun other member => ne_of_mem_of_not_mem member fresh
  have busy := away k.idleproc List.mem_cons_self
  refine ⟨⟨?_, ?_⟩, ?_, ?_, ?_⟩
  · rw [idle, elsewhere.state _ busy]
    exact slept.idle.1
  · rw [idle, elsewhere.waitState _ busy]
    exact slept.idle.2
  all_goals
    intro other member
    have apart := away other (List.mem_cons_of_mem _ member)
    rw [elsewhere.state other apart]
  · exact slept.born other member
  · rw [elsewhere.waitState other apart]
    exact slept.asleep other member
  · rw [elsewhere.waitState other apart]
    exact slept.awake other member

theorem spawned_core (core : k.Core procs kids queue) (fresh : proc ∉ k.idleproc :: procs) :
    (k.spawned proc).Core procs kids queue := by
  obtain ⟨⟨indexed, tree⟩, queued, slept, waits⟩ := core
  have new : proc ∉ procs := fun inside => fresh (List.mem_cons_of_mem _ inside)
  have away : ∀ other ∈ k.idleproc :: procs, other ≠ proc := fun other member => ne_of_mem_of_not_mem member fresh
  have away' : ∀ other ∈ procs, other ≠ proc := fun other member => ne_of_mem_of_not_mem member new
  have absent : proc ∉ queue := fun inside => new ((queued.members proc).mp inside).1
  have elsewhere : Elsewhere k (k.spawned proc) proc :=
    ⟨fun _ apart => Function.update_of_ne apart _ _, fun _ apart => Function.update_of_ne apart _ _, fun _ _ => rfl⟩
  have pids : ∀ other ∈ k.idleproc :: procs, (k.spawned proc).table.pid other = k.table.pid other :=
    fun other member => Function.update_of_ne (away other member) _ _
  refine ⟨⟨?_, ?_⟩, ⟨?_, ?_, ?_⟩, slept.elsewhere elsewhere fresh rfl, ⟨?_, ?_⟩⟩
  · exact indexed.frame rfl rfl pids rfl rfl rfl
  · apply tree.frame
    · intro other member
      exact (Function.update_of_ne (away other member) _ _).trans (Function.update_of_ne (away other member) _ _)
    · exact fun other member => Function.update_of_ne (away other member) _ _
    · exact fun other member => Function.update_of_ne (away' other member) _ _
    · exact fun other member => Function.update_of_ne (away' other member) _ _
  · exact initSched_holds queued.holds absent
  · intro other
    rw [queued.members other]
    refine and_congr_right (fun member => ?_)
    rw [elsewhere.state other (away' other member)]
    rfl
  · exact fun other member outside => initSched_detached proc k.rq (Or.inr (queued.detached other member outside))
  · intro other member asleep
    rw [elsewhere.state other (away' other member)] at asleep
    obtain ⟨pid, codeStore, caller, loc, none⟩ := waits.waiting other member asleep
    refine ⟨pid, codeStore, caller, loc, fun child below same => ?_⟩
    have childIn := tree.kids_member (List.mem_cons_of_mem _ member) below
    rw [elsewhere.state child (away' child childIn)]
    rw [Matches, pids child (List.mem_cons_of_mem _ childIn)] at same
    exact none child below same
  · intro other member exited
    rw [elsewhere.state other (away' other member)] at exited
    exact waits.barren other member exited

/-- A process that has been set up is admitted. -/
theorem enlist_spec (core : k.Core procs kids queue) (fresh : proc ∉ k.idleproc :: procs) (unborn : k.state proc = .uninit)
    (detached : k.rq.Detached proc) (up : k.table.parent proc = some k.current) (childless : k.table.cptr proc = none)
    (live : k.current ∈ k.idleproc :: procs) (runnable : k.state k.current = .runnable) (room : procs.length + 1 < maxProcess) :
    ∃ pid table rq, (∃ searched, k.table.getPid = .ok (pid, searched)) ∧ 1 ≤ pid ∧
      table.pid = Function.update k.table.pid proc pid ∧ table.parent = k.table.parent ∧
      k.schedClass.enqueue table.pid proc k.rq = .ok rq ∧
      enlist proc k = .ok (({ k with table := table } : Kernel).woken proc rq) ∧
      (({ k with table := table } : Kernel).woken proc rq).Core (proc :: procs)
        (Function.update (Function.update kids proc []) k.current (proc :: kids k.current)) (queue ++ [proc]) := by
  obtain ⟨table, queued, slept, waits⟩ := core
  obtain ⟨pid, searched, after, found, linked, consistent, pids, parents⟩ := table.enlist fresh live up childless room
  have new : proc ∉ procs := fun inside => fresh (List.mem_cons_of_mem _ inside)
  have apart : k.current ≠ proc := ne_of_mem_of_not_mem live fresh
  have absent : proc ∉ queue := fun inside => new ((queued.members proc).mp inside).1
  have queued' : ({ k with table := after } : Kernel).Queued (proc :: procs) queue := by
    refine ⟨queued.holds, ?_, ?_⟩
    · intro other
      rw [queued.members other, List.mem_cons]
      constructor
      · exact fun ⟨member, rest⟩ => ⟨Or.inr member, rest⟩
      · rintro ⟨rfl | member, state, away⟩
        · exact absurd (unborn.symm.trans state) (by decide)
        · exact ⟨member, state, away⟩
    · intro other member outside
      rcases List.mem_cons.mp member with rfl | old
      · exact detached
      · exact queued.detached other old outside
  obtain ⟨rq, entered, woke, queued''⟩ := wakeupProc_spec queued' consistent.indexed.root consistent.indexed.room
    List.mem_cons_self (by simp [unborn]) (by simp [unborn]) apart.symm
  have states : ∀ other, other ≠ proc → (({ k with table := after } : Kernel).woken proc rq).state other = k.state other :=
    fun other away => Function.update_of_ne away _ _
  have kids' : ∀ other, other ≠ proc → other ≠ k.current →
      Function.update (Function.update kids proc []) k.current (proc :: kids k.current) other = kids other := by
    intro other notProc notCurrent
    rw [Function.update_of_ne notCurrent, Function.update_of_ne notProc]
  refine ⟨pid, after, rq, ⟨searched, found⟩, ?_, pids, parents, entered, ?_, ⟨consistent, queued'', ?_, ⟨?_, ?_⟩⟩⟩
  · have range := consistent.indexed.pids proc List.mem_cons_self
    rw [pids, Function.update_self] at range
    exact range.1
  · rw [enlist, found, ok_bind]
    change ((({ searched with pid := Function.update searched.pid proc pid } : ProcTable).hashProc proc).setLinks proc >>= _) = _
    rw [linked, ok_bind]
    exact woke
  · have self : (({ k with table := after } : Kernel).woken proc rq).state proc = .runnable := Function.update_self _ _ _
    have busy : k.idleproc ≠ proc := fun same => fresh (same ▸ List.mem_cons_self)
    refine ⟨⟨(states _ busy).trans slept.idle.1, (Function.update_of_ne busy _ _).trans slept.idle.2⟩, ?_, ?_, ?_⟩
    · intro other member
      by_cases same : other = proc
      · rw [same, self]
        exact nofun
      · rw [states other same]
        exact slept.born other ((List.mem_cons.mp member).resolve_left same)
    · intro other member asleep
      by_cases same : other = proc
      · rw [same, self] at asleep
        cases asleep
      · rw [states other same] at asleep
        exact (Function.update_of_ne same _ _).trans
          (slept.asleep other ((List.mem_cons.mp member).resolve_left same) asleep)
    · intro other member awake
      by_cases same : other = proc
      · rw [same]
        exact Function.update_self _ _ _
      · rw [states other same] at awake
        exact (Function.update_of_ne same _ _).trans
          (slept.awake other ((List.mem_cons.mp member).resolve_left same) awake)
  · intro other member asleep
    have notProc : other ≠ proc := by
      rintro rfl
      rw [show (({ k with table := after } : Kernel).woken other rq).state other = .runnable from Function.update_self _ _ _] at asleep
      cases asleep
    rw [states other notProc] at asleep
    have notCurrent : other ≠ k.current := by
      rintro rfl
      exact absurd (asleep.symm.trans runnable) (by decide)
    have old := (List.mem_cons.mp member).resolve_left notProc
    rw [kids' other notProc notCurrent]
    obtain ⟨pid', codeStore, caller, loc, none⟩ := waits.waiting other old asleep
    refine ⟨pid', codeStore, caller, loc, fun child below same => ?_⟩
    have childAway : child ≠ proc := ne_of_mem_of_not_mem (table.tree.kids_member (List.mem_cons_of_mem _ old) below) new
    rw [states child childAway]
    rw [Matches, show (({ k with table := after } : Kernel).woken proc rq).table.pid = _ from pids,
      Function.update_of_ne childAway] at same
    exact none child below same
  · intro other member exited
    have notProc : other ≠ proc := by
      rintro rfl
      rw [show (({ k with table := after } : Kernel).woken other rq).state other = .runnable from Function.update_self _ _ _] at exited
      cases exited
    rw [states other notProc] at exited
    have notCurrent : other ≠ k.current := by
      rintro rfl
      exact absurd (exited.symm.trans runnable) (by decide)
    rw [kids' other notProc notCurrent]
    exact waits.barren other ((List.mem_cons.mp member).resolve_left notProc) exited

/-- `k` before the child is admitted. -/
def prepared (k : Kernel) (proc : Ptr) (entry : Loc) : Kernel := ((k.spawned proc).setA0 proc 0).setLoc proc entry

/-- How a `do_fork` ends: refused for want of a process or of memory, given up
after `alloc_proc`, or with a child. -/
inductive Forked (k : Kernel) (entry : Loc) (procs : List Ptr) (kids : Ptr → List Ptr) (queue : List Ptr) :
    Int → Kernel → List Ptr → (Ptr → List Ptr) → List Ptr → Prop where
  | refused {result : Int} (negative : result < 0) : Forked k entry procs kids queue result k procs kids queue
  | abandoned {result : Int} {proc : Ptr} (negative : result < 0) (fresh : proc ∉ k.allocated) :
      Forked k entry procs kids queue result ((k.spawned proc).kfree proc) procs kids queue
  | born {pid : Int} {proc : Ptr} {table : ProcTable} {rq : RunQueue} (fresh : proc ∉ k.allocated)
      (given : ∃ searched, (k.prepared proc entry).table.getPid = .ok (pid, searched)) (positive : 1 ≤ pid)
      (pids : table.pid = Function.update k.table.pid proc pid)
      (parents : table.parent = Function.update k.table.parent proc (some k.current))
      (entered : k.schedClass.enqueue table.pid proc (initSched proc k.rq) = .ok rq) :
      Forked k entry procs kids queue pid (({ k.prepared proc entry with table := table } : Kernel).woken proc rq) (proc :: procs)
        (Function.update (Function.update kids proc []) k.current (proc :: kids k.current)) (queue ++ [proc])

/-- `do_fork` of a runnable process fails no assertion, and the table, the queue and
the sleepers are in order afterwards. -/
theorem doFork_spec (entry : Loc) {answers : ForkAnswers} (core : k.Core procs kids queue)
    (fresh : ∀ proc, proc ∉ k.allocated → proc ∉ k.idleproc :: procs) (granted : k.Grants answers)
    (live : k.current ∈ k.idleproc :: procs) (runnable : k.state k.current = .runnable) :
    ∃ result after procs' kids' queue', doFork entry answers k = .ok (result, after) ∧
      Forked k entry procs kids queue result after procs' kids' queue' ∧ after.Core procs' kids' queue' := by
  obtain ⟨available, memory⟩ := granted
  have still : k.waitState k.current = 0 := by
    rcases List.mem_cons.mp live with idle | member
    · rw [idle]
      exact core.slept.idle.2
    · apply core.slept.awake k.current member
      rw [runnable]
      exact ProcState.runnable_awake
  rw [doFork]
  by_cases full : k.table.nrProcess ≥ maxProcess
  · rw [if_pos full]
    exact ⟨_, _, _, _, _, rfl, .refused (by decide), core⟩
  rw [if_neg full]
  cases address : answers.proc with
  | none => exact ⟨_, _, _, _, _, rfl, .refused (by decide), core⟩
  | some proc =>
    have unused := available proc address
    have new := fresh proc unused
    have apart : k.current ≠ proc := ne_of_mem_of_not_mem live new
    have spawned := spawned_core core new
    have passed : assert ((k.spawned proc).waitState (k.spawned proc).current = 0#32) "current->wait_state == 0" = .ok () := by
      rw [show (k.spawned proc).waitState (k.spawned proc).current = 0 from (Function.update_of_ne apart _ _).trans still]
      rfl
    have given : ((k.spawned proc).kfree proc).Core procs kids queue :=
      ⟨spawned.table, ⟨spawned.queued.holds, spawned.queued.members, spawned.queued.detached⟩,
        ⟨spawned.slept.idle, spawned.slept.born, spawned.slept.asleep, spawned.slept.awake⟩,
        ⟨spawned.waits.waiting, spawned.waits.barren⟩⟩
    change ∃ result after procs' kids' queue', (assert ((k.spawned proc).waitState (k.spawned proc).current = 0#32)
      "current->wait_state == 0" >>= fun _ =>
        if (!answers.kstack) = true then .ok (-eNoMem, (k.spawned proc).kfree proc)
        else if answers.copyMm ≠ 0 then .ok (answers.copyMm, (k.spawned proc).kfree proc)
        else enlist proc (k.prepared proc entry) >>= fun k => .ok (k.table.pid proc, k)) = Except.ok (result, after) ∧
      Forked k entry procs kids queue result after procs' kids' queue' ∧ after.Core procs' kids' queue'
    rw [passed, ok_bind]
    by_cases stack : answers.kstack
    · rw [if_neg (by simp [stack])]
      by_cases copied : answers.copyMm = 0
      · rw [if_neg (not_not.mpr copied)]
        have room : procs.length + 1 < maxProcess := by
          have count := core.table.indexed.count
          omega
        have prepared : (k.prepared proc entry).Core procs kids queue := by
          refine ⟨spawned.table, ⟨spawned.queued.holds, spawned.queued.members, spawned.queued.detached⟩,
            ⟨spawned.slept.idle, spawned.slept.born, spawned.slept.asleep, spawned.slept.awake⟩, ?_, spawned.waits.barren⟩
          intro other member asleep
          obtain ⟨pid, codeStore, caller, loc, none⟩ := spawned.waits.waiting other member asleep
          have away : other ≠ proc := ne_of_mem_of_not_mem (List.mem_cons_of_mem _ member) new
          exact ⟨pid, codeStore, caller, (Function.update_of_ne away _ _).trans loc, none⟩
        obtain ⟨pid, table, rq, given, positive, pids, parents, entered, admitted, core'⟩ := enlist_spec prepared new
          (Function.update_self _ _ _) (initSched_detached proc k.rq (Or.inl rfl)) (Function.update_self _ _ _)
          (Function.update_self _ _ _) live ((Function.update_of_ne apart _ _).trans runnable) room
        have pids' : table.pid = Function.update k.table.pid proc pid := pids.trans (Function.update_idem _ _ _)
        have parents' : table.parent = Function.update k.table.parent proc (some k.current) :=
          parents.trans (Function.update_idem _ _ _)
        rw [admitted]
        refine ⟨_, _, _, _, _, rfl, ?_, core'⟩
        rw [show (({ k.prepared proc entry with table := table } : Kernel).woken proc rq).table.pid proc = pid from
          pids' ▸ Function.update_self _ _ _]
        exact .born unused given positive pids' parents' entered
      · rw [if_pos copied]
        refine ⟨_, _, _, _, _, rfl, .abandoned ?_ unused, given⟩
        rw [memory.resolve_left copied]
        decide
    · rw [if_pos (by simp [stack])]
      exact ⟨_, _, _, _, _, rfl, .abandoned (by decide) unused, given⟩

section Frame

variable {entry : Loc} {result : Int} {after : Kernel} {procs' queue' : List Ptr} {kids' : Ptr → List Ptr}

/-- What a `do_fork` leaves alone, and what it sets in the child. -/
structure ForkFrame (k after : Kernel) (procs procs' : List Ptr) (entry : Loc) : Prop where
  schedClass : after.schedClass = k.schedClass
  idleproc : after.idleproc = k.idleproc
  initproc : after.initproc = k.initproc
  current : after.current = k.current
  history : after.history = k.history
  exitCode : after.exitCode = k.exitCode
  old : ∀ other ∈ k.allocated, after.state other = k.state other ∧ after.loc other = k.loc other ∧
    after.flags other = k.flags other ∧ after.runs other = k.runs other ∧ after.serial other = k.serial other
  pid : ∀ other ∈ k.allocated, after.table.pid other = k.table.pid other
  born : (procs' = procs ∧ after.allocated = k.allocated) ∨
    ∃ proc, proc ∉ k.allocated ∧ procs' = proc :: procs ∧ after.allocated = proc :: k.allocated ∧
      after.state proc = .runnable ∧ after.loc proc = entry ∧ after.flags proc = 0 ∧ after.serial proc = k.births ∧
      after.rq.lab6Stride proc = 0 ∧ after.rq.trueStride proc = 0
  strides : ∀ other ∈ k.allocated,
    after.rq.lab6Stride other = k.rq.lab6Stride other ∧ after.rq.trueStride other = k.rq.trueStride other
  births : k.births ≤ after.births ∧ (after.allocated ≠ k.allocated → k.births < after.births)

theorem Forked.frame (forked : Forked k entry procs kids queue result after procs' kids' queue') :
    ForkFrame k after procs procs' entry := by
  cases forked with
  | refused =>
    exact ⟨rfl, rfl, rfl, rfl, rfl, rfl, fun _ _ => ⟨rfl, rfl, rfl, rfl, rfl⟩, fun _ _ => rfl,
      Or.inl ⟨rfl, rfl⟩, fun _ _ => ⟨rfl, rfl⟩, le_refl _, fun away => absurd rfl away⟩
  | @abandoned proc _ fresh =>
    have away : ∀ other ∈ k.allocated, other ≠ proc := fun other member => ne_of_mem_of_not_mem member fresh
    refine ⟨rfl, rfl, rfl, rfl, rfl, rfl, ?_, fun other member => Function.update_of_ne (away other member) _ _,
      Or.inl ⟨rfl, List.erase_cons_head ..⟩, ?_, Nat.le_succ _, fun _ => Nat.lt_succ_self _⟩
    · intro other member
      exact ⟨Function.update_of_ne (away other member) _ _, rfl, Function.update_of_ne (away other member) _ _,
        Function.update_of_ne (away other member) _ _, Function.update_of_ne (away other member) _ _⟩
    · exact fun other member => ⟨Function.update_of_ne (away other member) _ _, Function.update_of_ne (away other member) _ _⟩
  | @born proc table rq fresh given positive pids parents entered =>
    have keys := enqueue_keys entered
    have away : ∀ other ∈ k.allocated, other ≠ proc := fun other member => ne_of_mem_of_not_mem member fresh
    refine ⟨rfl, rfl, rfl, rfl, rfl, rfl, ?_, ?_, Or.inr ⟨proc, fresh, rfl, rfl, Function.update_self _ _ _, Function.update_self _ _ _,
      Function.update_self _ _ _, Function.update_self _ _ _, ?_, ?_⟩, ?_, Nat.le_succ _, fun _ => Nat.lt_succ_self _⟩
    · intro other member
      have apart := away other member
      exact ⟨(Function.update_of_ne apart _ _).trans (Function.update_of_ne apart _ _), Function.update_of_ne apart _ _,
        Function.update_of_ne apart _ _, Function.update_of_ne apart _ _, Function.update_of_ne apart _ _⟩
    · exact fun other member => (congrFun pids other).trans (Function.update_of_ne (away other member) _ _)
    · exact (congrFun keys.stride proc).trans (Function.update_self _ _ _)
    · exact (congrFun keys.trueStride proc).trans (Function.update_self _ _ _)
    · intro other member
      have apart := away other member
      exact ⟨(congrFun keys.stride other).trans (Function.update_of_ne apart _ _),
        (congrFun keys.trueStride other).trans (Function.update_of_ne apart _ _)⟩

/-- A `do_fork` as the scheduler sees it. -/
theorem Forked.effect (forked : Forked k entry procs kids queue result after procs' kids' queue')
    (queued : k.Queued procs queue) (fresh : ∀ proc, proc ∉ k.allocated → proc ∉ k.idleproc :: procs)
    (live : k.current ∈ k.idleproc :: procs) : Effect k.schedClass (k.view queue) (after.view queue') false := by
  have absent : ∀ proc, proc ∉ k.allocated → proc ∉ queue := fun proc new inside =>
    fresh proc new (List.mem_cons_of_mem _ ((queued.members proc).mp inside).1)
  have apart : ∀ proc, proc ∉ k.allocated → k.running ≠ some proc := by
    intro proc new same
    exact fresh proc new ((running_eq_some.mp same).1 ▸ live)
  cases forked with
  | refused => exact .refl _ _
  | @abandoned proc _ new =>
    refine .spawn proc (absent proc new) (apart proc new) rfl rfl ?_ rfl
    have away : k.current ≠ proc := ne_of_mem_of_not_mem live (fresh proc new)
    have same : ((k.spawned proc).kfree proc).state k.current = k.state k.current := Function.update_of_ne away _ _
    change running _ = running k
    rw [running, running]
    exact if_congr (and_congr_left' (same ▸ Iff.rfl)) rfl rfl
  | @born proc table rq new given positive pids parents entered =>
    refine .enlist proc result (absent proc new) (apart proc new) pids entered rfl ?_
    have away : k.current ≠ proc := ne_of_mem_of_not_mem live (fresh proc new)
    have same : (({ k.prepared proc entry with table := table } : Kernel).woken proc rq).state k.current = k.state k.current :=
      (Function.update_of_ne away _ _).trans (Function.update_of_ne away _ _)
    change running _ = running k
    rw [running, running]
    exact if_congr (and_congr_left' (same ▸ Iff.rfl)) rfl rfl

end Frame

end Ucore.Kernel
