import Mathlib
import Ucore.Proofs.Play
import Ucore.Proofs.Scheduling

/-! What becomes of a process that `do_kill` has marked. `trap` tests the mark before
it calls `schedule` and not behind it, `forkret` does not test it at all, and
`do_wait` tests it behind `schedule` only. -/

namespace Ucore.Kernel
open Lib ProcTable

variable {schedClass : SchedClass} {k after : Kernel} {procs queue : List Ptr} {kids : Ptr → List Ptr} {proc init : Ptr}

/-- `proc` is in `do_wait`, asleep or about to go on. -/
def InWait (k : Kernel) (proc : Ptr) : Prop := ∃ pid codeStore caller, k.loc proc = .waiting pid codeStore caller

/-- If the step marks a process, this process is the running one, or has exited, or
is in `do_wait`. -/
def Heeded (k : Kernel) (event : Event) (_after : Kernel) : Prop :=
  ∀ proc, killedBy event k = some proc → proc = k.current ∨ k.state proc = .zombie ∨ k.InWait proc

instance (k : Kernel) (proc : Ptr) : Decidable (k.InWait proc) :=
  decidable_of_iff ((match k.loc proc with
    | .waiting _ _ _ => true
    | _ => false) = true) (by
      rw [InWait]
      cases k.loc proc with
      | waiting pid codeStore caller => simp
      | cpuIdle | initMain | initLoop | userMain | forkret | user | trapDispatched | trapScheduled | exited => simp)

instance (k : Kernel) (event : Event) (after : Kernel) : Decidable (Heeded k event after) :=
  inferInstanceAs (Decidable (∀ proc ∈ killedBy event k, proc = k.current ∨ k.state proc = .zombie ∨ k.InWait proc))

/-- A process that has been marked has exited, or is awake in front of a test of the mark. -/
structure Doomed (k : Kernel) : Prop where
  exited : ∀ proc, k.Live proc → k.state proc = .zombie → k.loc proc = .exited
  tested : ∀ proc, k.Live proc → k.exiting proc = true → k.state proc = .zombie ∨
    (k.state proc ≠ .sleeping ∧ (k.InWait proc ∨ (proc = k.current ∧ k.loc proc = .trapDispatched)))

private theorem Doomed.exits {event : Event} (doomed : k.Doomed) (inv : k.Invariant procs kids queue init)
    (marked : k.exiting k.current = true) (enabled : k.Enabled event) :
    event = .tick ∨ k.step event = doExit (-eKilled) k := by
  have live : k.Live k.current := inv.stable.live.mem_iff.mpr inv.stable.current
  have place : k.loc k.current = .trapDispatched ∨ k.InWait k.current := by
    rcases doomed.tested k.current live marked with gone | ⟨-, waits | ⟨-, here⟩⟩
    · exact absurd (gone.symm.trans inv.runnable) (by decide)
    · exact Or.inr waits
    · exact Or.inl here
  have notUser : k.loc k.current ≠ .user ∧ k.loc k.current ≠ .initMain ∧ k.loc k.current ≠ .userMain := by
    rcases place with here | ⟨pid, codeStore, caller, here⟩
    · simp [here]
    · simp [here]
  cases event with
  | tick => exact Or.inl rfl
  | exception => exact absurd enabled notUser.1
  | syscall call =>
    cases call with
    | fork => exact absurd enabled.1 notUser.1
    | exit | wait | exec | yield | kill | setPriority | plain | undefined => exact absurd enabled notUser.1
  | initMain => exact absurd enabled.1 notUser.2.1
  | userMain => exact absurd enabled.1 notUser.2.2
  | resume =>
    right
    rcases place with here | ⟨pid, codeStore, caller, here⟩
    · rw [step, resume, here]
      exact if_pos marked
    · rw [step, resume, here]
      exact if_pos marked

private theorem doExit_gone {code : Int} (inv : k.Invariant procs kids queue init) (done : doExit code k = .ok after) :
    after.state k.current = .zombie := by
  by_cases busy : k.current = k.idleproc
  · rw [doExit, if_pos busy] at done
    cases done
  by_cases first : k.current = init
  · rw [doExit, if_neg busy, if_pos (first ▸ inv.stable.initproc.symm)] at done
    cases done
  obtain ⟨after', kids', queue', done', -, gone⟩ := @doExit_spec _ _ _ _ _ none inv busy first code
  cases Except.ok.inj (done'.symm.trans done)
  exact gone

private theorem schedClassProcTick_aside (k : Kernel) (proc : Ptr) : (k.schedClassProcTick proc).loc = k.loc ∧
    (k.schedClassProcTick proc).state = k.state ∧ (k.schedClassProcTick proc).current = k.current := by
  rw [schedClassProcTick]
  split
  · dsimp only
    split
    · exact ⟨rfl, rfl, rfl⟩
    · exact ⟨rfl, rfl, rfl⟩
  · exact ⟨rfl, rfl, rfl⟩

private theorem kill_tested {pid : Int} {procs' queue' : List Ptr} {kids' : Ptr → List Ptr} {asked : Option (Int × Nat)}
    (inv : k.Invariant procs kids queue init) (moves : Moves k after (k.killed pid) asked procs' kids' queue queue' init)
    (enabled : k.loc k.current = .user) (stepped : k.step (.syscall (.kill pid)) = .ok after) (target : k.killed pid = some proc)
    (heeded : proc = k.current ∨ k.state proc = .zombie ∨ k.InWait proc) (live : k.Live proc) :
    after.state proc = .zombie ∨
      (after.state proc ≠ .sleeping ∧ (after.InWait proc ∨ (proc = after.current ∧ after.loc proc = .trapDispatched))) := by
  have user : UserLoc (k.loc k.current) := by
    rw [enabled]
    trivial
  have placed : (k.setLoc k.current .trapDispatched).Invariant procs kids queue init :=
    inv.setLoc (inv.suitsUser user trivial nofun)
  obtain ⟨result, marked, queue'', done, -, current, loc, awake, -⟩ := @doKill_spec _ _ _ _ _ asked placed pid
  have result : after = marked.setA0 marked.current result := by
    rw [Kernel.step, syscall, done] at stepped
    exact (Except.ok.inj stepped).symm
  have place : after.loc proc = (k.setLoc k.current .trapDispatched).loc proc := by
    rw [result, ← loc]
    rfl
  have stays : after.state proc ≠ .sleeping := by
    rw [result]
    exact awake proc target
  by_cases own : proc = k.current
  · right
    refine ⟨stays, Or.inr ⟨?_, ?_⟩⟩
    · rw [result, own]
      exact current.symm
    · rw [place, own]
      exact Function.update_self _ _ _
  · have still := moves.frame.loc proc live own
    rcases heeded with same | gone | ⟨pid, codeStore, caller, here⟩
    · exact absurd same own
    · left
      rcases moves.frame.state proc live own with same | ⟨asleep, -⟩
      · exact same.trans gone
      · exact absurd (gone.symm.trans asleep) (by decide)
    · exact Or.inr ⟨stays, Or.inl ⟨pid, codeStore, caller, still.trans here⟩⟩

/-- A step keeps every marked process in front of a test. -/
theorem Doomed.step {event : Event} {procs' queue' : List Ptr} {kids' : Ptr → List Ptr} (doomed : k.Doomed)
    (inv : k.Invariant procs kids queue init)
    (moves : Moves k after (killedBy event k) (askedBy event k) procs' kids' queue queue' init) (enabled : k.Enabled event)
    (stepped : k.step event = .ok after) (heeded : Heeded k event after) : after.Doomed := by
  have frame := moves.frame
  constructor
  · intro proc present gone
    rcases moves.life.before present with live | ⟨-, runnable, -⟩
    · by_cases own : proc = k.current
      · rw [own] at gone ⊢
        cases moves.life with
        | steady _ alive | fork _ _ _ _ _ _ _ alive | reap _ _ _ _ _ _ _ _ _ alive => exact absurd gone alive
        | exit _ _ _ place => exact place
      · rw [frame.loc proc live own]
        rcases frame.state proc live own with same | ⟨-, runnable⟩
        · exact doomed.exited proc live (same.symm.trans gone)
        · exact absurd (gone.symm.trans runnable) (by decide)
    · exact absurd (gone.symm.trans runnable) (by decide)
  · intro proc present marked
    rcases moves.life.before present with live | ⟨-, -, unmarked, -⟩
    · by_cases target : killedBy event k = some proc
      · cases event with
        | syscall call =>
          cases call with
          | kill pid => exact kill_tested inv moves enabled stepped target (heeded proc target) live
          | exit | fork | wait | exec | yield | setPriority | plain | undefined => cases target
        | tick | exception | initMain | userMain | resume => cases target
      have before : k.exiting proc = true := by
        rw [exiting, frame.flags proc live (fun same => target same.symm)] at marked
        exact marked
      by_cases own : proc = k.current
      · rw [own] at before ⊢
        rcases doomed.exits inv before enabled with rfl | exits
        · have waits : k.InWait k.current := by
            rcases doomed.tested k.current (own ▸ live) before with gone | ⟨-, waits | ⟨-, here⟩⟩
            · exact absurd (gone.symm.trans inv.runnable) (by decide)
            · exact waits
            · rw [Enabled, here] at enabled
              exact enabled.elim
          obtain ⟨pid, codeStore, caller, here⟩ := waits
          rw [Kernel.step, if_neg (by simp [here])] at stepped
          obtain ⟨loc, state, -⟩ := schedClassProcTick_aside k k.current
          rw [← Except.ok.inj stepped, state, inv.runnable]
          exact Or.inr ⟨ProcState.runnable_awake, Or.inl ⟨pid, codeStore, caller, loc ▸ here⟩⟩
        · exact Or.inl (doExit_gone inv (exits ▸ stepped))
      · rcases doomed.tested proc live before with gone | ⟨awake, waits | ⟨same, -⟩⟩
        · left
          rcases frame.state proc live own with still | ⟨asleep, -⟩
          · exact still.trans gone
          · exact absurd (gone.symm.trans asleep) (by decide)
        · right
          obtain ⟨pid, codeStore, caller, here⟩ := waits
          refine ⟨?_, Or.inl ⟨pid, codeStore, caller, (frame.loc proc live own).trans here⟩⟩
          rcases frame.state proc live own with still | ⟨asleep, -⟩
          · exact still ▸ awake
          · exact absurd asleep awake
        · exact absurd same own
    · simp [exiting, unmarked] at marked

private theorem booted_doomed {memory : Kernel} {idle : Ptr} {answers : ForkAnswers}
    (granted : answers.proc ≠ some idle ∧ (answers.copyMm = 0 ∨ answers.copyMm = -eNoMem))
    (booted : boot schedClass memory idle answers = .ok k) : k.Doomed := by
  obtain ⟨init, live, -, -, -, -, -, -, -, ⟨idleFlags, initFlags⟩, idleState, initState⟩ := booted_spec granted booted
  constructor
  · intro proc present gone
    rw [Live, live, List.mem_cons, List.mem_singleton] at present
    rcases present with rfl | rfl
    · exact absurd (gone.symm.trans initState) (by decide)
    · exact absurd (gone.symm.trans idleState) (by decide)
  · intro proc present marked
    rw [Live, live, List.mem_cons, List.mem_singleton] at present
    rcases present with rfl | rfl
    · simp [exiting, initFlags] at marked
    · simp [exiting, idleFlags] at marked

theorem Guarded.doomed (guarded : Guarded schedClass Heeded k) : k.Doomed := by
  induction guarded with
  | boot granted booted => exact booted_doomed granted booted
  | step reached enabled stepped heeded doomed =>
    obtain ⟨_, _, _, _, _, _, _, inv, moves⟩ := reached.reachable.moves enabled stepped
    exact doomed.step inv moves enabled stepped heeded

/-- In the runs in which `do_kill` marks only processes that will test the mark, a
marked process is neither in user mode nor asleep, and when it gets the processor
it exits. -/
theorem kill_kept (schedClass : SchedClass) : ∀ k, Guarded schedClass Heeded k →
    ∀ proc, k.Live proc → k.exiting proc = true → k.loc proc ≠ .user ∧ k.state proc ≠ .sleeping ∧
      (proc = k.current → ∀ event, k.Enabled event → event = .tick ∨ k.step event = doExit (-eKilled) k) := by
  intro k guarded proc live marked
  have doomed := guarded.doomed
  obtain ⟨procs, kids, queue, init, inv⟩ := guarded.reachable.invariant
  refine ⟨?_, ?_, ?_⟩
  · rcases doomed.tested proc live marked with gone | ⟨-, ⟨pid, codeStore, caller, here⟩ | ⟨-, here⟩⟩
    · simp [doomed.exited proc live gone]
    · simp [here]
    · simp [here]
  · rcases doomed.tested proc live marked with gone | ⟨awake, -⟩
    · simp [gone]
    · exact awake
  · rintro rfl event enabled
    exact doomed.exits inv marked enabled

/-- `user_main`'s child kills its parent, which waits for it. -/
theorem kill_kept_parent : ∃ k : Kernel, k.exiting 2 = true ∧ k.loc 2 ≠ .user ∧ k.state 2 ≠ .sleeping := by
  have reaches : ∃ k, Guarded .rr Heeded k ∧ k.allocated.contains 2 ∧ k.exiting 2 = true :=
    @playFromUnder_reaches .rr [.resume, .initMain (granting 2), .resume, .userMain .loaded, .syscall (.fork (granting 3)), .resume,
      .syscall (.wait 0 0 true), .resume, .syscall (.kill 2)] Heeded _ _ _ (by decide +kernel)
  obtain ⟨k, guarded, live, marked⟩ := reaches
  obtain ⟨place, awake, -⟩ := kill_kept .rr k guarded 2 (List.contains_iff_mem.mp live) marked
  exact ⟨k, marked, place, awake⟩

/-- A process is killed before it has run for the first time, and gets to user mode. -/
theorem kill_lost : ¬ ∀ schedClass k, Reachable schedClass k → ∀ proc, k.Live proc → k.exiting proc = true →
    k.loc proc ≠ .user ∧ k.state proc ≠ .sleeping := by
  intro kept
  have reaches : ∃ k, Reachable .rr k ∧ k.allocated.contains 3 ∧ k.exiting 3 = true ∧ k.loc 3 = .user :=
    @playFrom_reaches .rr [.resume, .initMain (granting 2), .resume, .userMain .loaded, .syscall (.fork (granting 3)), .resume,
      .syscall (.kill 3), .resume, .syscall .yield, .resume, .resume] _ _ (by decide +kernel)
  obtain ⟨k, reached, live, marked, here⟩ := reaches
  exact (kept .rr k reached 3 (List.contains_iff_mem.mp live) marked).1 here

section Initproc

/-- Nobody kills `initproc`, which has pid 1. -/
def Spared (_k : Kernel) (event : Event) (_after : Kernel) : Prop :=
  match event with
  | .syscall (.kill pid) => pid ≠ 1
  | _ => True

instance (k : Kernel) (event : Event) (after : Kernel) : Decidable (Spared k event after) :=
  match event with
  | .syscall (.kill pid) => inferInstanceAs (Decidable (pid ≠ 1))
  | .syscall (.exit _) | .syscall (.fork _) | .syscall (.wait _ _ _) | .syscall (.exec _) | .syscall .yield
  | .syscall (.setPriority _) | .syscall (.plain _) | .syscall .undefined | .tick | .exception _ | .initMain _ | .userMain _
  | .resume => isTrue trivial

/-- `initproc` has pid 1 and has not been marked. -/
structure Unmarked (k : Kernel) (init : Ptr) : Prop where
  initproc : k.initproc = some init
  pid : k.table.pid init = 1
  clear : k.exiting init = false

theorem killed_pid {pid : Int} (inv : k.Invariant procs kids queue init) (target : k.killed pid = some proc) :
    k.table.pid proc = pid := by
  obtain ⟨found, searched, hit⟩ := findProc_spec inv.stable.core.table.indexed pid
  rw [killed, searched] at target
  cases found with
  | none => cases target
  | some other =>
    dsimp only at target
    split at target
    · cases target
    · cases target
      exact ((hit proc).mp rfl).2

theorem Unmarked.step {event : Event} {procs' queue' : List Ptr} {kids' : Ptr → List Ptr} {asked : Option (Int × Nat)}
    (unmarked : k.Unmarked init) (inv : k.Invariant procs kids queue init)
    (moves : Moves k after (killedBy event k) asked procs' kids' queue queue' init) (spared : Spared k event after) :
    after.Unmarked init := by
  have frame := moves.frame
  have live : init ∈ k.allocated := inv.stable.live.mem_iff.mpr (List.mem_cons_of_mem _ inv.stable.initLive.1)
  have away : some init ≠ killedBy event k := by
    intro target
    cases event with
    | syscall call =>
      cases call with
      | kill pid => exact spared ((killed_pid inv target.symm).symm.trans unmarked.pid)
      | exit | fork | wait | exec | yield | setPriority | plain | undefined => cases target
    | tick | exception | initMain | userMain | resume => cases target
  refine ⟨frame.initproc.trans unmarked.initproc, (frame.pid init live).trans unmarked.pid, ?_⟩
  rw [exiting, frame.flags init live away]
  exact unmarked.clear

theorem Guarded.unmarked (guarded : Guarded schedClass Spared k) : ∃ init, k.Unmarked init := by
  induction guarded with
  | boot granted booted =>
    obtain ⟨init, -, -, -, initproc, -, -, -, pid, ⟨-, flags⟩, -⟩ := booted_spec granted booted
    refine ⟨init, initproc, pid, ?_⟩
    simp [exiting, flags]
  | step reached enabled stepped spared unmarked =>
    obtain ⟨init, unmarked⟩ := unmarked
    obtain ⟨_, _, _, init', _, _, _, inv, moves⟩ := reached.reachable.moves enabled stepped
    cases Option.some.inj (inv.stable.initproc.symm.trans unmarked.initproc)
    exact ⟨init, unmarked.step inv moves spared⟩

/-- In the runs in which nobody calls `do_kill(1)`, `do_exit` is not entered by the
idle process, nor by `initproc` before its loop has found no more children, and
`do_wait` never finds either of them. -/
theorem permanent_stay (schedClass : SchedClass) : ∀ k, Guarded schedClass Spared k → ∀ event halt, k.Enabled event →
    k.step event = .error halt → halt ≠ .panic "idleproc exit.\n" ∧ halt ≠ .panic "wait idleproc or initproc.\n" ∧
      (halt = .panic "initproc exit.\n" → some k.current = k.initproc ∧ k.waitSearch 0 = .ok (false, none)) := by
  intro k guarded event halt enabled stopped
  obtain ⟨init, unmarked⟩ := guarded.unmarked
  obtain ⟨init', initproc, stop⟩ := guarded.reachable.stops enabled stopped
  cases Option.some.inj (initproc.symm.trans unmarked.initproc)
  cases stop with
  | killed first dying => exact absurd (dying.symm.trans unmarked.clear) (by decide)
  | ended first alone =>
    refine ⟨by simp, by simp, fun _ => ⟨?_, alone⟩⟩
    rw [initproc, first]
  | refused | undefined | misaligned => simp

/-- The loop of `init_main` ends when its only child has exited and been reaped. -/
theorem permanent_stay_user_main : ∃ k : Kernel, k.step .resume = .error (.panic "initproc exit.\n") ∧
    some k.current = k.initproc ∧ k.waitSearch 0 = .ok (false, none) := by
  have reaches : ∃ k, Guarded .rr Spared k ∧ k.Enabled .resume ∧ stopsWith (.panic "initproc exit.\n") (k.step .resume) = true :=
    @playFromUnder_reaches .rr [.resume, .initMain (granting 2), .resume, .userMain .loaded, .syscall (.exit 0), .resume]
      Spared _ _ _ (by decide +kernel)
  obtain ⟨k, guarded, enabled, stopped⟩ := reaches
  have done := stopsWith_iff.mp stopped
  exact ⟨k, done, (permanent_stay .rr k guarded .resume _ enabled done).2.2 rfl⟩

/-- A user process calls `do_kill(1)` while `initproc` sleeps in `do_wait`. -/
theorem initproc_killed : ¬ ∀ schedClass k, Reachable schedClass k → ∀ event halt, k.Enabled event →
    k.step event = .error halt → halt = .panic "initproc exit.\n" → k.waitSearch 0 = .ok (false, none) := by
  intro stay
  have reaches : ∃ k, Reachable .rr k ∧ k.Enabled .resume ∧ stopsWith (.panic "initproc exit.\n") (k.step .resume) = true ∧
      (k.waitSearch 0).toOption ≠ some (false, none) :=
    @playFrom_reaches .rr [.resume, .initMain (granting 2), .resume, .userMain .loaded, .syscall (.kill 1), .resume,
      .syscall .yield, .resume] _ _ (by decide +kernel)
  obtain ⟨k, reached, enabled, stopped, children⟩ := reaches
  apply children
  rw [stay .rr k reached .resume _ enabled (stopsWith_iff.mp stopped) rfl]
  rfl

end Initproc

end Ucore.Kernel
