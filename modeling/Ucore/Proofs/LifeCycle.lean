import Mathlib
import Ucore.Proofs.Play
import Ucore.Proofs.Scheduling

/-! The life of a process: it sleeps exactly while it has a wait state, and once it
is a zombie nothing but `do_wait` of its parent touches it. -/

namespace Ucore.Kernel
open Lib RunQueue

variable {schedClass : SchedClass} {k after : Kernel} {procs queue : List Ptr} {kids : Ptr → List Ptr} {proc init : Ptr}

theorem Invariant.waitState_iff (inv : k.Invariant procs kids queue init) (live : k.Live proc) :
    k.waitState proc ≠ 0 ↔ k.state proc = .sleeping := by
  have slept := inv.stable.core.slept
  rcases List.mem_cons.mp (inv.stable.live.mem_iff.mp live) with rfl | member
  · simp [slept.idle]
  · by_cases asleep : k.state proc = .sleeping
    · simp [asleep, slept.asleep proc member asleep, wtChild, wtInterrupted]
    · simp [asleep, slept.awake proc member asleep]

theorem Life.unwarned {asked : Option (Int × Nat)} (life : Life k after asked) (quiet : ∀ proc, .warned proc ∉ k.history) (proc : Nat) :
    .warned proc ∉ after.history := by
  cases life with
  | steady _ _ history =>
    rcases history with same | ⟨result, -, added⟩
    · rw [same]
      exact quiet proc
    · simp [added, quiet]
  | fork _ _ _ _ _ _ _ _ history =>
    rw [history]
    exact quiet proc
  | exit _ _ _ _ _ history => simp [history, quiet]
  | reap _ codeStore _ _ _ _ _ _ _ _ history =>
    rw [history, collection]
    by_cases stores : codeStore ≠ 0
    · simp [stores, quiet]
    · simp [stores, quiet]

theorem Reachable.unwarned (reached : Reachable schedClass k) (proc : Nat) : .warned proc ∉ k.history := by
  induction reached generalizing proc with
  | boot granted booted =>
    rcases boot_spec granted with ⟨init, after, kids, done, forked, -⟩ | failed
    · cases Except.ok.inj (done.symm.trans booted)
      have empty : after.history = [] := forked.frame.history
      simp [empty]
    · cases failed.symm.trans booted
  | step reached enabled stepped quiet =>
    obtain ⟨_, _, _, _, _, _, _, _, moves⟩ := reached.moves enabled stepped
    exact moves.life.unwarned quiet proc

/-- A zombie stays one until it is freed. -/
theorem Moves.zombie {killed : Option Ptr} {asked : Option (Int × Nat)} {procs' queue' : List Ptr} {kids' : Ptr → List Ptr}
    (moves : Moves k after killed asked procs' kids' queue queue' init) (runnable : k.state k.current = .runnable) (live : k.Live proc)
    (exited : k.state proc = .zombie) : after.state proc = .zombie := by
  have away : proc ≠ k.current := by
    rintro rfl
    exact absurd (exited.symm.trans runnable) (by decide)
  rcases moves.frame.state proc live away with same | ⟨asleep, -⟩
  · exact same.trans exited
  · exact absurd (exited.symm.trans asleep) (by decide)

/-- In every state that is reached the sleeping processes are those with a wait
state, the current process is runnable, and the run queue holds no zombie; nobody
has woken a runnable process. A step fails no assertion, does not go on behind the
`schedule` of `do_exit`, and leaves zombies zombies. -/
theorem life_cycle (schedClass : SchedClass) : ∀ k, Reachable schedClass k →
    (∀ proc, k.Live proc → (k.waitState proc ≠ 0 ↔ k.state proc = .sleeping)) ∧
    (k.state k.current = .runnable ∧ k.waitState k.current = 0) ∧
    (∃ queue, k.rq.Contents queue schedClass ∧ ∀ proc ∈ queue, k.Live proc ∧ k.state proc ≠ .zombie) ∧
    (∀ proc, .warned proc ∉ k.history) ∧
    ∀ event, k.Enabled event →
      (∀ text, k.step event ≠ .error (.assertion text)) ∧ k.step event ≠ .error (.panic "do_exit will not return!!") ∧
      ∀ after, k.step event = .ok after → after.state after.current ≠ .zombie ∧
        ∀ proc, k.Live proc → k.state proc = .zombie → after.state proc = .zombie := by
  intro k reached
  obtain ⟨procs, kids, queue, init, inv⟩ := reached.invariant
  have queued := inv.stable.core.queued
  have currentLive : k.Live k.current := inv.stable.live.mem_iff.mpr inv.stable.current
  refine ⟨fun proc live => inv.waitState_iff live, ⟨inv.runnable, ?_⟩,
    ⟨queue, reached.schedClass_eq ▸ queued.holds.contents, ?_⟩, reached.unwarned, ?_⟩
  · by_contra waits
    exact absurd (inv.runnable.symm.trans ((inv.waitState_iff currentLive).mp waits)) (by decide)
  · intro proc inside
    obtain ⟨member, runnable, -⟩ := (queued.members proc).mp inside
    refine ⟨(inv.live_iff.mpr member).1, ?_⟩
    rw [runnable]
    exact ProcState.runnable_alive
  · intro event enabled
    refine ⟨?_, ?_, ?_⟩
    · intro text failed
      have listed := reached.halts enabled failed
      simp [panics] at listed
    · intro failed
      have listed := reached.halts enabled failed
      simp [panics] at listed
    · intro after stepped
      obtain ⟨_, _, _, _, _, _, _, inv', moves⟩ := reached.moves enabled stepped
      refine ⟨?_, fun proc live exited => moves.zombie inv'.runnable live exited⟩
      rw [moves.invariant.runnable]
      exact ProcState.runnable_alive

/-- The child of `user_main`'s process has exited while its parent is in user mode. -/
theorem life_cycle_child : ∃ k : Kernel, k.state 3 = .zombie ∧ k.loc k.current = .user ∧
    ∀ after, k.step .tick = .ok after → after.state 3 = .zombie := by
  have reaches : ∃ k, Reachable .rr k ∧ k.allocated.contains 3 ∧ k.state 3 = .zombie ∧ k.loc k.current = .user :=
    @playFrom_reaches .rr [.resume, .initMain (granting 2), .resume, .userMain .loaded, .syscall (.fork (granting 3)), .resume,
      .syscall .yield, .resume, .resume, .syscall (.exit 7), .resume] _ _ (by decide +kernel)
  obtain ⟨k, reached, live, exited, here⟩ := reaches
  have enabled : k.Enabled .tick := by
    rw [Enabled, here]
    trivial
  obtain ⟨-, -, -, -, steps⟩ := life_cycle .rr k reached
  exact ⟨k, exited, here, fun after stepped => ((steps .tick enabled).2.2 after stepped).2 3 (List.contains_iff_mem.mp live) exited⟩

end Ucore.Kernel
