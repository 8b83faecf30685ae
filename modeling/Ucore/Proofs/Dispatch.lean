import Mathlib
import Ucore.Proofs.Play
import Ucore.Proofs.Scheduling

/-! The calls of `schedule` in a run: some processes enter the queue, and the next
one is picked and taken out. -/

namespace Ucore
open Lib RunQueue

variable {schedClass : SchedClass} {rq : RunQueue} {queue : List Ptr} {entering : Option Ptr} {pid : Ptr → Int}

/-- `added` enter the queue, which is `middle` then, and the next process is picked and
taken out. -/
structure Pick (schedClass : SchedClass) (before after : View) (added : List Ptr) (middle : RunQueue) : Prop where
  wakes : wakeAll schedClass before.pid added before.rq = .ok middle
  held : Holds schedClass middle (before.queue ++ added)
  turns : turn schedClass before.pid none middle = .ok (after.running, after.rq)
  queue : after.queue = remaining (before.queue ++ added) after.running
  pid : after.pid = before.pid

theorem enter_eq (schedClass : SchedClass) (pid : Ptr → Int) (entering : Option Ptr) (rq : RunQueue) :
    enter schedClass pid entering rq = wakeAll schedClass pid entering.toList rq := by
  cases entering with
  | none => rfl
  | some proc =>
    rw [enter, Option.toList_some, wakeAll]
    cases schedClass.enqueue pid proc rq with
    | ok after => rfl
    | error halt => rfl

theorem turn_entered {middle : RunQueue} (entered : wakeAll schedClass pid entering.toList rq = .ok middle) :
    turn schedClass pid entering rq = turn schedClass pid none middle := by
  rw [turn, enter_eq, entered]
  rfl

/-- Both ways to give up the processor are a pick. -/
theorem Effect.pick {before after : View} (effect : Effect schedClass before after true) {middle : RunQueue}
    (entered : wakeAll schedClass before.pid before.running.toList before.rq = .ok middle)
    (held : Holds schedClass middle (candidates before.queue before.running)) :
    ∃ added middle, Pick schedClass before after added middle := by
  cases effect with
  | leave woken middle' held' apart wakes turns queue pid => exact ⟨woken, middle', wakes, held', turns, queue, pid⟩
  | turn turns queue pid => exact ⟨before.running.toList, middle, entered, held, turn_entered entered ▸ turns, queue, pid⟩

/-- What a turn picks from a queue. -/
theorem turn_cases {next : Option Ptr} {after : RunQueue} (holds : Holds schedClass rq queue)
    (turns : turn schedClass pid none rq = .ok (next, after)) :
    (queue = [] ∧ next = none ∧ after = rq) ∨ ∃ proc, next = some proc ∧ rq.Choice queue proc schedClass ∧
      schedClass.dequeue pid proc (rq.picked proc schedClass) = .ok after := by
  rw [turn, enter, ok_bind] at turns
  by_cases empty : queue = []
  · left
    rw [empty] at holds
    rw [pickNext_none holds] at turns
    cases turns
    exact ⟨empty, rfl, rfl⟩
  · right
    obtain ⟨proc, choice, picked⟩ := pickNext_some holds empty
    rw [picked] at turns
    obtain ⟨left, done, same⟩ := bind_ok turns
    cases same
    exact ⟨proc, rfl, choice, done⟩

theorem Effect.running_eq {before after : View} (effect : Effect schedClass before after false) :
    after.running = before.running := by
  cases effect with
  | adjust _ _ _ _ _ _ running | spawn _ _ _ _ _ running | enlist _ _ _ _ _ _ _ running | wake _ _ _ _ _ running => exact running

theorem Effect.appends {before after : View} (effect : Effect schedClass before after false) :
    ∃ added, after.queue = before.queue ++ added := by
  cases effect with
  | adjust _ _ _ _ _ queue | spawn _ _ _ _ queue => exact ⟨[], by rw [queue, List.append_nil]⟩
  | enlist proc _ _ _ _ _ queue | wake proc _ _ _ queue => exact ⟨[proc], queue⟩

namespace Kernel

variable {k after middle : Kernel} {procs queue' procs' dispatched : List Ptr} {kids kids' : Ptr → List Ptr} {proc init : Ptr}
  {killed : Option Ptr} {asked : Option (Int × Nat)}

/-- The process that a step dispatches: `schedule` counts in `runs`, and nothing else
does. -/
def scheduled (k after : Kernel) : Option Ptr :=
  if after.runs after.current = k.runs after.current then none else some after.current

/-- A run from `k` to `after`, with the processes that the calls of `schedule` dispatch,
the first one in front. -/
inductive Path (k : Kernel) : List Ptr → Kernel → Prop where
  | refl : Path k [] k
  | step {dispatched middle after event} (path : Path k dispatched middle) (enabled : middle.Enabled event)
      (stepped : step event middle = .ok after) : Path k (dispatched ++ (scheduled middle after).toList) after

theorem Path.reachable (reached : Reachable schedClass k) (path : Path k dispatched after) : Reachable schedClass after := by
  induction path with
  | refl => exact reached
  | step _ enabled stepped ih => exact ih.step enabled stepped

/-- The running process can enter the queue. -/
theorem Invariant.enters (inv : k.Invariant procs kids queue init) :
    ∃ middle, wakeAll k.schedClass k.table.pid k.running.toList k.rq = .ok middle ∧
      Holds k.schedClass middle (candidates queue k.running) := by
  have queued := inv.stable.core.queued
  have inside : ∀ proc ∈ k.running.toList, proc ∈ procs := by
    intro proc top
    obtain ⟨rfl, -, busy⟩ := running_eq_some.mp (Option.mem_toList.mp top)
    exact (List.mem_cons.mp inv.stable.current).resolve_left busy
  have absent : ∀ proc ∈ k.running.toList, proc ∉ queue := by
    intro proc top member
    obtain ⟨rfl, -, -⟩ := running_eq_some.mp (Option.mem_toList.mp top)
    exact ((queued.members _).mp member).2.2 rfl
  have distinct : (queue ++ k.running.toList).Nodup := by
    rw [List.nodup_append]
    refine ⟨queued.holds.distinct, ?_, fun early member late entering same => absent late entering (same ▸ member)⟩
    cases k.running with
    | none => exact List.nodup_nil
    | some proc => exact List.nodup_singleton proc
  have spec : ∃ middle, wakeAll k.schedClass k.table.pid k.running.toList k.rq = .ok middle ∧
      Holds k.schedClass middle (queue ++ k.running.toList) ∧ Untouched k.rq middle (queue ++ k.running.toList) :=
    wakeAll_spec queued.holds distinct (fun proc top => queued.detached proc (inside proc top) (absent proc top))
      (queued.room inv.stable.core.table.indexed.room distinct inside)
  obtain ⟨middle, entered, held, -⟩ := spec
  exact ⟨middle, entered, held⟩

theorem Invariant.pick {after : View} (inv : k.Invariant procs kids queue init) (effect : Effect k.schedClass (k.view queue) after true) :
    ∃ added middle, Pick k.schedClass (k.view queue) after added middle := by
  obtain ⟨middle, entered, held⟩ := inv.enters
  exact effect.pick entered held

theorem Invariant.current_eq (inv : k.Invariant procs kids queue init) :
    k.current = k.running.getD k.idleproc := by
  rw [running, inv.runnable]
  by_cases idle : k.current = k.idleproc
  · simp [idle]
  · simp [idle]

/-- The processes that want the processor. -/
def Contends (k : Kernel) (proc : Ptr) : Prop := k.Live proc ∧ k.state proc = .runnable ∧ proc ≠ k.idleproc

instance (k : Kernel) (proc : Ptr) : Decidable (k.Contends proc) :=
  inferInstanceAs (Decidable (proc ∈ k.allocated ∧ k.state proc = .runnable ∧ proc ≠ k.idleproc))

theorem Invariant.contends_iff (inv : k.Invariant procs kids queue init) :
    k.Contends proc ↔ proc ∈ queue ∨ proc ∈ k.running := by
  rw [Contends, inv.stable.core.queued.members proc, Option.mem_def, running_eq_some, ← inv.live_iff]
  constructor
  · rintro ⟨live, runnable, busy⟩
    by_cases own : proc = k.current
    · exact Or.inr ⟨own, own ▸ runnable, own ▸ busy⟩
    · exact Or.inl ⟨⟨live, busy⟩, runnable, own⟩
  · rintro (⟨⟨live, busy⟩, runnable, -⟩ | ⟨rfl, runnable, busy⟩)
    · exact ⟨live, runnable, busy⟩
    · exact ⟨inv.stable.live.mem_iff.mpr inv.stable.current, runnable, busy⟩

theorem Reachable.queued (reached : Reachable schedClass k) :
    ∃ queue, k.rq.Contents queue schedClass ∧ ∀ proc, k.Contends proc → proc ≠ k.current → proc ∈ queue := by
  obtain ⟨procs, kids, queue, init, inv⟩ := reached.invariant
  refine ⟨queue, reached.schedClass_eq ▸ inv.stable.core.queued.holds.contents, fun proc contends away => ?_⟩
  rcases inv.contends_iff.mp contends with inside | top
  · exact inside
  · exact absurd (running_eq_some.mp top).1 away

theorem Invariant.candidates_iff (inv : after.Invariant procs' kids' queue' init) {before : View} {added : List Ptr} {rq : RunQueue}
    (pick : Pick schedClass before (after.view queue') added rq) : proc ∈ before.queue ++ added ↔ after.Contends proc := by
  have held := pick.held
  have left : queue' = remaining (before.queue ++ added) after.running := pick.queue
  rw [inv.contends_iff, left]
  rcases turn_cases held pick.turns with ⟨empty, nobody, -⟩ | ⟨next, chosen, choice, -⟩
  · rw [empty, show after.running = none from nobody]
    simp [remaining]
  · rw [show after.running = some next from chosen, remaining, held.distinct.mem_erase_iff, Option.mem_def, Option.some.injEq]
    have member := choice.member held
    constructor
    · intro inside
      by_cases same : proc = next
      · exact Or.inr same.symm
      · exact Or.inl ⟨same, inside⟩
    · rintro (⟨-, inside⟩ | rfl)
      · exact inside
      · exact member

/-- A step either leaves the processor to the current process, or picks the next one. -/
theorem Moves.scheduled_cases (inv : k.Invariant procs kids queue init)
    (moves : Moves k after killed asked procs' kids' queue queue' init) :
    (scheduled k after = none ∧ after.current = k.current ∧ Effect k.schedClass (k.view queue) (after.view queue') false) ∨
      (scheduled k after = some after.current ∧
        ∃ added middle, Pick k.schedClass (k.view queue) (after.view queue') added middle) := by
  cases moves.dispatch with
  | none effect runs =>
    left
    have same : after.current = k.current := by
      rw [moves.invariant.current_eq, inv.current_eq, moves.frame.idleproc]
      exact congrArg (Option.getD · k.idleproc) effect.running_eq
    refine ⟨?_, same, effect⟩
    rw [scheduled, same, runs _ (inv.stable.live.mem_iff.mpr inv.stable.current)]
    exact if_pos rfl
  | next effect runs =>
    right
    refine ⟨?_, inv.pick effect⟩
    rw [scheduled, runs, Function.update_self]
    exact if_neg (by omega)

end Kernel

end Ucore
