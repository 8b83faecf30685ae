import Mathlib
import Ucore.Proofs.Play

/-! The run queue holds the runnable processes, under each of the five classes. -/

namespace Ucore.Kernel
open Lib RunQueue

variable {schedClass : SchedClass} {k : Kernel}

theorem Invariant.live_iff {procs queue : List Ptr} {kids : Ptr → List Ptr} {init proc : Ptr} (inv : k.Invariant procs kids queue init) :
    k.Live proc ∧ proc ≠ k.idleproc ↔ proc ∈ procs := by
  have root := inv.stable.core.table.indexed.root
  rw [Live, inv.stable.live.mem_iff, List.mem_cons]
  constructor
  · intro both
    exact both.1.resolve_left both.2
  · exact fun member => ⟨Or.inr member, ne_of_mem_of_not_mem member root⟩

/-- Between the operations the run queue of the bound class holds each runnable
process but the current and the idle one, once, and counts them. No operation
stops with a failed assertion: it returns, or ends in one of four panics. When
the idle process is dispatched, no other process is runnable. -/
theorem run_queue_membership (schedClass : SchedClass) :
    (∀ memory idle answers halt, (answers.proc ≠ some idle ∧ (answers.copyMm = 0 ∨ answers.copyMm = -eNoMem)) →
      boot schedClass memory idle answers = .error halt → halt = .panic "create init_main failed.\n") ∧
    ∀ k, Reachable schedClass k →
      (∃ queue, k.rq.Contents queue schedClass ∧ queue.Nodup ∧ k.rq.procNum.toNat = queue.length ∧
        ∀ proc, proc ∈ queue ↔ k.Live proc ∧ k.state proc = .runnable ∧ proc ≠ k.current ∧ proc ≠ k.idleproc) ∧
      (∀ event halt, k.Enabled event → step event k = .error halt → halt ∈ panics) ∧
      ∀ event after, k.Enabled event → step event k = .ok after → after.runs k.idleproc ≠ k.runs k.idleproc →
        ∀ proc, after.Live proc → proc ≠ k.idleproc → after.state proc ≠ .runnable := by
  refine ⟨?_, ?_⟩
  · intro memory idle answers halt granted failed
    rcases boot_spec granted with ⟨init, after, kids, done, -⟩ | done
    · cases done.symm.trans failed
    · exact Except.error.inj (failed.symm.trans done)
  · intro k reached
    refine ⟨?_, fun event halt enabled stopped => reached.halts enabled stopped, ?_⟩
    · obtain ⟨procs, kids, queue, init, inv⟩ := reached.invariant
      have queued := inv.stable.core.queued
      have bound : maxProcess = 4096 := rfl
      have room := queued.holds.room
      refine ⟨queue, reached.schedClass_eq ▸ queued.holds.contents, queued.holds.distinct, ?_, ?_⟩
      · rw [queued.holds.count, BitVec.toNat_ofNat]
        omega
      · intro proc
        rw [queued.members proc, ← inv.live_iff]
        exact ⟨fun ⟨⟨live, busy⟩, runnable, away⟩ => ⟨live, runnable, away, busy⟩,
          fun ⟨live, runnable, away, busy⟩ => ⟨⟨live, busy⟩, runnable, away⟩⟩
    · intro event after enabled stepped counted
      obtain ⟨_, _, _, _, _, _, _, _, moves⟩ := reached.moves enabled stepped
      exact moves.frame.idle counted

/-- `user_main`'s process has forked two children, which are queued. -/
theorem run_queue_membership_children : (∃ halt, boot .stride zeroed 0 ⟨none, true, 0⟩ = .error halt ∧
      halt = .panic "create init_main failed.\n") ∧
    (∃ (k : Kernel) (queue : List Ptr), k.rq.Contents queue .stride ∧ queue.Nodup ∧
      k.rq.procNum.toNat = queue.length ∧ 3 ∈ queue ∧ 4 ∈ queue ∧ 2 ∉ queue) ∧
    ∃ (k : Kernel) (halt : Halt), step (.initMain ⟨none, true, 0⟩) k = .error halt ∧ halt ∈ panics := by
  have reaches : ∃ k, Reachable .stride k ∧ (k.allocated.contains 3 ∧ k.state 3 = .runnable) ∧
      (k.allocated.contains 4 ∧ k.state 4 = .runnable) ∧ k.current = 2 ∧ k.idleproc = 0 :=
    @playFrom_reaches .stride [.resume, .initMain (granting 2), .resume, .userMain .loaded, .syscall (.fork (granting 3)),
      .resume, .syscall (.fork (granting 4)), .resume] _ _ (by decide +kernel)
  have stops : ∃ k, Reachable .stride k ∧ k.Enabled (.initMain ⟨none, true, 0⟩) ∧
      stopsWith (.panic "create user_main failed.\n") (step (.initMain ⟨none, true, 0⟩) k) :=
    @playFrom_reaches .stride [.resume] _ _ (by decide +kernel)
  refine ⟨?_, ?_, ?_⟩
  · have refused : stopsWith (.panic "create init_main failed.\n") (boot .stride zeroed 0 ⟨none, true, 0⟩) = true := by decide +kernel
    have failed := stopsWith_iff.mp refused
    exact ⟨_, failed, (run_queue_membership .stride).1 zeroed 0 ⟨none, true, 0⟩ _ ⟨by decide, Or.inl rfl⟩ failed⟩
  · obtain ⟨k, reached, ⟨first, ready⟩, ⟨second, ready'⟩, here, idle⟩ := reaches
    obtain ⟨⟨queue, contents, distinct, count, members⟩, -, -⟩ := (run_queue_membership .stride).2 k reached
    rw [here, idle] at members
    refine ⟨k, queue, contents, distinct, count, ?_, ?_, fun inside => ((members 2).mp inside).2.2.1 rfl⟩
    · exact (members 3).mpr ⟨List.contains_iff_mem.mp first, ready, by decide, by decide⟩
    · exact (members 4).mpr ⟨List.contains_iff_mem.mp second, ready', by decide, by decide⟩
  · obtain ⟨k, reached, enabled, stopped⟩ := stops
    obtain ⟨-, halts, -⟩ := (run_queue_membership .stride).2 k reached
    exact ⟨k, _, stopsWith_iff.mp stopped, halts _ _ enabled (stopsWith_iff.mp stopped)⟩

end Ucore.Kernel
