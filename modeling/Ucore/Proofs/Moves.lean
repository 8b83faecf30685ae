import Mathlib
import Ucore.Proofs.Core

/-! What a step does: to the lives of the processes, to the scheduler, and what it
leaves alone. -/

namespace Ucore.Kernel
open Lib RunQueue

variable {k : Kernel} {procs queue : List Ptr} {kids : Ptr → List Ptr} {proc init : Ptr} {asked : Option (Int × Nat)}

/-- What a step leaves alone. The flags of `killed` change. -/
structure Frame (k after : Kernel) (killed : Option Ptr) : Prop where
  schedClass : after.schedClass = k.schedClass
  idleproc : after.idleproc = k.idleproc
  initproc : after.initproc = k.initproc
  loc : ∀ proc ∈ k.allocated, proc ≠ k.current → after.loc proc = k.loc proc
  state : ∀ proc ∈ k.allocated, proc ≠ k.current → after.state proc = k.state proc ∨
    (k.state proc = .sleeping ∧ after.state proc = .runnable)
  flags : ∀ proc ∈ k.allocated, some proc ≠ killed → after.flags proc = k.flags proc
  exitCode : ∀ proc ∈ k.allocated, proc ≠ k.current → after.exitCode proc = k.exitCode proc
  serial : ∀ proc ∈ k.allocated, after.serial proc = k.serial proc
  pid : ∀ proc ∈ k.allocated, after.table.pid proc = k.table.pid proc
  births : k.births ≤ after.births
  idle : after.runs k.idleproc ≠ k.runs k.idleproc →
    ∀ proc ∈ after.allocated, proc ≠ k.idleproc → after.state proc ≠ .runnable

/-- What `do_wait` writes down when it stores the exit code of `child` and frees it. -/
def collection (k : Kernel) (child : Ptr) (codeStore : Nat) : List Happening :=
  .reaped (k.serial k.current) (k.serial child) ::
    if codeStore ≠ 0 then [.stored codeStore (k.exitCode child)] else []

/-- What a step does to the set of processes. `asked` are the arguments of the
`do_wait` in it. -/
inductive Life (k after : Kernel) (asked : Option (Int × Nat)) : Prop where
  /-- Nobody is born, exits or is reaped. A `do_wait` may have failed. -/
  | steady (allocated : after.allocated = k.allocated) (alive : after.state k.current ≠ .zombie)
      (history : after.history = k.history ∨
        ∃ result, result ≠ 0 ∧ after.history = .waited (k.serial k.current) result :: k.history)
  | fork (child : Ptr) (fresh : child ∉ k.allocated) (allocated : after.allocated = child :: k.allocated)
      (runnable : after.state child = .runnable) (flags : after.flags child = 0) (serial : after.serial child = k.births)
      (births : k.births < after.births) (alive : after.state k.current ≠ .zombie) (history : after.history = k.history)
      (strides : after.rq.lab6Stride child = 0 ∧ after.rq.trueStride child = 0)
  | exit (code : Int) (allocated : after.allocated = k.allocated) (gone : after.state k.current = .zombie)
      (place : after.loc k.current = .exited) (exitCode : after.exitCode k.current = code)
      (history : after.history = .exited (k.serial k.current) code :: k.history)
  | reap (pid : Int) (codeStore : Nat) (child : Ptr) (call : asked = some (pid, codeStore)) (live : child ∈ k.allocated)
      (below : k.table.parent child = some k.current) (same : k.Matches pid child) (exited : k.state child = .zombie)
      (allocated : after.allocated = k.allocated.erase child)
      (alive : after.state k.current ≠ .zombie)
      (history : after.history = .waited (k.serial k.current) 0 :: (k.collection child codeStore ++ k.history))

/-- What a step does to the scheduler. It calls `schedule` at most once, and `runs`
counts the calls. -/
inductive Dispatch (k after : Kernel) (queue queue' : List Ptr) : Prop where
  | none (effect : Effect k.schedClass (k.view queue) (after.view queue') false)
      (runs : ∀ proc ∈ k.allocated, after.runs proc = k.runs proc)
      (strides : ∀ proc ∈ k.allocated, proc ∈ after.allocated →
        after.rq.lab6Stride proc = k.rq.lab6Stride proc ∧ after.rq.trueStride proc = k.rq.trueStride proc)
  | next (effect : Effect k.schedClass (k.view queue) (after.view queue') true)
      (runs : after.runs = Function.update k.runs after.current (k.runs after.current + 1))
      (old : ∀ proc ∈ after.allocated, proc ∈ k.allocated)

structure Moves (k after : Kernel) (killed : Option Ptr) (asked : Option (Int × Nat)) (procs' : List Ptr) (kids' : Ptr → List Ptr)
    (queue queue' : List Ptr) (init : Ptr) : Prop where
  invariant : after.Invariant procs' kids' queue' init
  frame : Frame k after killed
  life : Life k after asked
  dispatch : Dispatch k after queue queue'

theorem Frame.refl (k : Kernel) : Frame k k none where
  schedClass := rfl
  idleproc := rfl
  initproc := rfl
  loc _ _ _ := rfl
  state _ _ _ := Or.inl rfl
  flags _ _ _ := rfl
  exitCode _ _ _ := rfl
  serial _ _ := rfl
  pid _ _ := rfl
  births := le_refl _
  idle away := absurd rfl away

theorem Frame.zombie_iff {after : Kernel} {killed : Option Ptr} (frame : Frame k after killed) (live : k.Live proc)
    (away : proc ≠ k.current) : after.state proc = .zombie ↔ k.state proc = .zombie := by
  rcases frame.state proc live away with same | ⟨asleep, awake⟩
  · rw [same]
  · rw [asleep, awake]
    exact iff_of_false ProcState.runnable_alive ProcState.sleeping_alive

/-- A process is live after a step if it was before, or if it has just been forked. -/
theorem Life.before {after : Kernel} (life : Life k after asked) (present : after.Live proc) :
    k.Live proc ∨ (proc ∉ k.allocated ∧ after.state proc = .runnable ∧ after.flags proc = 0 ∧
      after.rq.lab6Stride proc = 0 ∧ after.rq.trueStride proc = 0) := by
  cases life with
  | steady allocated | exit _ allocated =>
    rw [Live, allocated] at present
    exact Or.inl present
  | fork child fresh allocated runnable flags _ _ _ _ strides =>
    rw [Live, allocated, List.mem_cons] at present
    rcases present with rfl | old
    · exact Or.inr ⟨fresh, runnable, flags, strides⟩
    · exact Or.inl old
  | reap _ _ child _ _ _ _ _ allocated =>
    rw [Live, allocated] at present
    exact Or.inl (List.mem_of_mem_erase present)

section Chain

variable {after : Kernel} {killed : Option Ptr} {procs' queue' : List Ptr} {kids' : Ptr → List Ptr}

theorem Moves.place {loc : Loc} (moves : Moves (k.setLoc k.current loc) after killed asked procs' kids' queue queue' init) :
    Moves k after killed asked procs' kids' queue queue' init := by
  obtain ⟨invariant, frame, life, dispatch⟩ := moves
  refine ⟨invariant, ⟨frame.schedClass, frame.idleproc, frame.initproc, ?_, frame.state, frame.flags, frame.exitCode, frame.serial,
    frame.pid, frame.births, frame.idle⟩, ?_, ?_⟩
  · intro proc member away
    exact (frame.loc proc member away).trans (Function.update_of_ne away _ _)
  · cases life with
    | steady allocated alive history => exact .steady allocated alive history
    | fork child fresh allocated runnable flags serial births alive history strides =>
      exact .fork child fresh allocated runnable flags serial births alive history strides
    | exit code allocated gone place exitCode history => exact .exit code allocated gone place exitCode history
    | reap pid codeStore child call live below same exited allocated alive history =>
      exact .reap pid codeStore child call live below same exited allocated alive history
  · cases dispatch with
    | none effect runs strides => exact .none effect runs strides
    | next effect runs old => exact .next effect runs old

theorem Moves.setA0 (moves : Moves k after killed asked procs' kids' queue queue' init) (proc : Ptr) (value : Int) :
    Moves k (after.setA0 proc value) killed asked procs' kids' queue queue' init := by
  obtain ⟨invariant, frame, life, dispatch⟩ := moves
  refine ⟨invariant.alike ⟨rfl, rfl, ⟨_, _, rfl⟩, rfl, rfl, rfl, rfl, rfl, rfl, rfl⟩, ⟨frame.schedClass, frame.idleproc,
    frame.initproc, frame.loc, frame.state, frame.flags, frame.exitCode, frame.serial, frame.pid, frame.births, frame.idle⟩, ?_, ?_⟩
  · cases life with
    | steady allocated alive history => exact .steady allocated alive history
    | fork child fresh allocated runnable flags serial births alive history strides =>
      exact .fork child fresh allocated runnable flags serial births alive history strides
    | exit code allocated gone place exitCode history => exact .exit code allocated gone place exitCode history
    | reap pid codeStore child call live below same exited allocated alive history =>
      exact .reap pid codeStore child call live below same exited allocated alive history
  · cases dispatch with
    | none effect runs strides => exact .none effect runs strides
    | next effect runs old => exact .next effect runs old

end Chain

/-- The idle process runs only if no other can. -/
theorem switched_idle {next : Option Ptr} {rq : RunQueue} (live : k.allocated.Perm (k.idleproc :: procs))
    (runs : (k.switched (next.getD k.idleproc) rq).running = next) (nobody : next = none → ∀ proc ∈ procs, k.state proc ≠ .runnable)
    (counted : (k.switched (next.getD k.idleproc) rq).runs k.idleproc ≠ k.runs k.idleproc) :
    ∀ proc ∈ k.allocated, proc ≠ k.idleproc → k.state proc ≠ .runnable := by
  intro proc member busy
  cases next with
  | none => exact nobody rfl proc ((List.mem_cons.mp (live.mem_iff.mp member)).resolve_left busy)
  | some next =>
    obtain ⟨-, -, away⟩ := running_eq_some.mp runs
    have away : next ≠ k.idleproc := away
    exact absurd (Function.update_of_ne away.symm _ _) counted

theorem Invariant.giveWay (inv : k.Invariant procs kids queue init) :
    ∃ next rq queue', schedule k = .ok (k.switched next rq) ∧ Moves k (k.switched next rq) none asked procs kids queue queue' init := by
  obtain ⟨next, rq, turned, done, invariant, runs, nobody⟩ := inv.stable.schedule
  refine ⟨_, rq, _, done, invariant, ⟨rfl, rfl, rfl, fun _ _ _ => rfl, fun _ _ _ => Or.inl rfl, fun _ _ _ => rfl, fun _ _ _ => rfl,
    fun _ _ => rfl, fun _ _ => rfl, le_refl _, ?_⟩, .steady rfl ?_ (Or.inl rfl), .next (.turn ?_ ?_ rfl) rfl (fun _ live => live)⟩
  · exact switched_idle inv.stable.live runs nobody
  · rw [show (k.switched _ rq).state k.current = k.state k.current from rfl, inv.runnable]
    exact ProcState.runnable_alive
  · rw [show (Kernel.view _ _).running = next from runs]
    exact turned
  · rw [show (Kernel.view _ _).running = next from runs]
    rfl

theorem Invariant.goes {loc : Loc} (inv : k.Invariant procs kids queue init) (suits : k.Suits init loc) :
    Moves k (k.setLoc k.current loc) none asked procs kids queue queue init := by
  refine ⟨inv.setLoc suits, ⟨rfl, rfl, rfl, ?_, fun _ _ _ => Or.inl rfl, fun _ _ _ => rfl, fun _ _ _ => rfl, fun _ _ => rfl,
    fun _ _ => rfl, le_refl _, fun away => absurd rfl away⟩, .steady rfl ?_ (Or.inl rfl), .none (.refl _ _) (fun _ _ => rfl) (fun _ _ _ => ⟨rfl, rfl⟩)⟩
  · exact fun proc _ away => Function.update_of_ne away _ _
  · rw [show (k.setLoc k.current loc).state k.current = k.state k.current from rfl, inv.runnable]
    exact ProcState.runnable_alive

end Ucore.Kernel
