import Mathlib
import Ucore.Proofs.Step

/-! The kernel boots into a state in which the invariant holds, so it holds in
every state that is reached. -/

namespace Ucore.Kernel
open Lib RunQueue ProcTable

variable {schedClass : SchedClass} {memory k : Kernel} {idle : Ptr} {answers : ForkAnswers}

/-- The kernel when `proc_init` forks `init_main`. -/
def primed (schedClass : SchedClass) (memory : Kernel) (idle : Ptr) : Kernel :=
  let k := schedInit schedClass memory.clear
  let k := { k with table := { k.table with
    procList := listInit none k.table.procList
    hashList := initHashList k.table.hashList } }
  let k := k.allocProc idle
  let k := { k with idleproc := idle }
  let k := { k with table := { k.table with
    pid := Function.update k.table.pid idle 0
    nrProcess := k.table.nrProcess + 1 } }
  let k := ((k.setState idle .runnable).setNeedResched idle true).setLoc idle .cpuIdle
  { k with current := idle }

private theorem schedInit_holds (schedClass : SchedClass) (rq : RunQueue) : Holds schedClass (schedClass.init rq) [] := by
  refine ⟨?_, List.nodup_nil, fun _ inside => absurd inside List.not_mem_nil, ?_, Nat.zero_le _⟩
  · cases schedClass with
    | rr | fifo => exact Links.Ring.single _ _
    | stride | sjf | hpf =>
      exact ⟨.leaf, ⟨trivial, rfl, fun _ top => nomatch top⟩, List.Perm.refl _, fun _ inside => absurd inside List.not_mem_nil⟩
  · cases schedClass <;> rfl

private theorem initHashList_ring (links : Links HashLink) {index : Nat} (bound : index < hashListSize) :
    (initHashList links).Ring (.bucket index) [] := by
  refine ⟨⟨?_, ?_⟩, by simp⟩
  · exact if_pos bound
  · exact if_pos bound

theorem primed_core (schedClass : SchedClass) (memory : Kernel) (idle : Ptr) :
    (primed schedClass memory idle).Core [] (fun _ => []) [] := by
  refine ⟨⟨?_, ?_⟩, ⟨?_, ?_, ?_⟩, ⟨⟨?_, ?_⟩, ?_, ?_, ?_⟩, ⟨?_, ?_⟩⟩
  · refine ⟨Links.Ring.single _ _, ?_, rfl, by decide, List.not_mem_nil, ?_, nofun, nofun, ?_, le_refl _, nofun⟩
    · intro index bound
      exact ⟨[], initHashList_ring _ bound, fun proc => ⟨nofun, nofun⟩⟩
    · exact Function.update_self _ _ _
    · exact (by decide : 1 ≤ maxPid)
  · refine ⟨?_, fun _ _ => trivial, fun _ _ _ => trivial, fun _ _ => List.nodup_nil, ?_, nofun, Function.update_self _ _ _⟩
    · intro proc member
      cases List.mem_singleton.mp member
      exact Function.update_self _ _ _
    · exact fun proc _ child => ⟨fun inside => absurd inside List.not_mem_nil, fun edge => absurd edge.1 List.not_mem_nil⟩
  · exact initSched_holds (schedInit_holds schedClass _) List.not_mem_nil
  · exact fun proc => ⟨nofun, nofun⟩
  · exact nofun
  · exact Function.update_self _ _ _
  · exact Function.update_self _ _ _
  all_goals exact nofun

theorem boot_eq (schedClass : SchedClass) (memory : Kernel) (idle : Ptr) (answers : ForkAnswers) :
    boot schedClass memory idle answers = doFork .initMain answers (primed schedClass memory idle) >>= fun forked =>
      if forked.1 ≤ 0 then .error (.panic "create init_main failed.\n") else procInitEnd forked.1 forked.2 := rfl

private theorem procInitEnd_spec {pid : Int} {init : Ptr} (found : k.table.findProc pid = .ok (some init))
    (idlePid : k.table.pid k.idleproc = 0) (initPid : k.table.pid init = 1) :
    procInitEnd pid k = .ok { k with initproc := some init } := by
  rw [procInitEnd, found]
  simp only [ok_bind, idlePid, deref, initPid, decide_true, assert_true]

/-- `proc_init` ends with the idle process and `initproc`, unless there is no memory
for `initproc`. -/
theorem boot_spec (granted : answers.proc ≠ some idle ∧ (answers.copyMm = 0 ∨ answers.copyMm = -eNoMem)) :
    (∃ init after kids, boot schedClass memory idle answers = .ok { after with initproc := some init } ∧
      Forked (primed schedClass memory idle) .initMain [] (fun _ => []) [] 1 after [init] kids [init] ∧
      ({ after with initproc := some init } : Kernel).Invariant [init] kids [init] init) ∨
    boot schedClass memory idle answers = .error (.panic "create init_main failed.\n") := by
  have core := primed_core schedClass memory idle
  have self : (primed schedClass memory idle).state idle = .runnable := Function.update_self _ _ _
  have memoryAnswers : (primed schedClass memory idle).Grants answers := by
    refine ⟨fun proc given inside => granted.1 ?_, granted.2⟩
    rw [show proc = idle from List.mem_singleton.mp inside] at given
    exact given
  obtain ⟨result, after, procs', kids', queue', done, forked, core'⟩ := doFork_spec .initMain core
    (fun proc new inside => new inside) memoryAnswers List.mem_cons_self self
  rw [boot_eq, done, ok_bind]
  have frame := forked.frame
  cases forked with
  | refused negative | abandoned negative =>
    right
    rw [if_pos (Int.le_of_lt negative)]
  | @born init table rq fresh given positive pids parents entered =>
    left
    have apart : idle ≠ init := fun same => fresh (same ▸ List.mem_cons_self)
    have first : result = 1 := by
      obtain ⟨searched, found⟩ := given
      have direct : ((primed schedClass memory idle).prepared init .initMain).table.getPid =
          .ok (1, { ((primed schedClass memory idle).prepared init .initMain).table with lastPid := 1, nextSafe := maxPid }) := rfl
      exact (congrArg Prod.fst (Except.ok.inj (found.symm.trans direct)))
    subst first
    have initPid : table.pid init = 1 := pids ▸ Function.update_self _ _ _
    have idlePid : table.pid idle = 0 := by
      rw [pids, Function.update_of_ne apart]
      exact Function.update_self _ _ _
    obtain ⟨found, searched, hit⟩ := findProc_spec core'.table.indexed 1
    have target : found = some init := (hit init).mpr ⟨List.mem_cons_self, initPid⟩
    refine ⟨init, _, _, ?_, .born fresh given positive pids parents entered, ⟨⟨⟨core'.table, ⟨core'.queued.holds,
      core'.queued.members, core'.queued.detached⟩, ⟨core'.slept.idle, core'.slept.born, core'.slept.asleep, core'.slept.awake⟩,
      ⟨core'.waits.waiting, core'.waits.barren⟩⟩, ?_, ⟨?_, ?_, ?_, ?_⟩, rfl, ⟨List.mem_cons_self, ?_⟩, ?_, ?_⟩, ?_⟩⟩
    · dsimp only
      rw [if_neg (by decide)]
      exact procInitEnd_spec (target ▸ searched) idlePid initPid
    · exact List.Perm.swap _ _ _
    · exact (Function.update_of_ne apart _ _).trans (Function.update_self _ _ _)
    · rw [show (({ (primed schedClass memory idle).prepared init .initMain with table := table } : Kernel).woken init rq).loc
        init = .initMain from Function.update_self _ _ _]
      trivial
    · exact fun proc member away => absurd (List.mem_singleton.mp member) away
    · intro proc member gone
      cases List.mem_singleton.mp member
      rw [show (({ (primed schedClass memory idle).prepared init .initMain with table := table } : Kernel).woken init rq).loc
        init = .initMain from Function.update_self _ _ _] at gone
      cases gone
    · rw [show (({ (primed schedClass memory idle).prepared init .initMain with table := table } : Kernel).woken init rq).state
        init = .runnable from Function.update_self _ _ _]
      exact nofun
    · exact Function.update_self _ _ _
    · exact List.mem_cons_self
    · exact (Function.update_of_ne apart _ _).trans ((Function.update_of_ne apart _ _).trans self)

theorem Reachable.invariant (reached : Reachable schedClass k) : ∃ procs kids queue init, k.Invariant procs kids queue init := by
  induction reached with
  | boot granted booted =>
    rcases boot_spec granted with ⟨init, after, kids, done, -, invariant⟩ | failed
    · cases Except.ok.inj (done.symm.trans booted)
      exact ⟨_, _, _, _, invariant⟩
    · cases failed.symm.trans booted
  | step _ enabled stepped ih =>
    obtain ⟨procs, kids, queue, init, inv⟩ := ih
    rcases step_ends inv enabled with ⟨after, procs', kids', queue', done, moves⟩ | ⟨halt, -, done⟩
    · cases Except.ok.inj (done.symm.trans stepped)
      exact ⟨_, _, _, _, moves.invariant⟩
    · cases done.symm.trans stepped

/-- A step from a state that is reached, and what it does. -/
theorem Reachable.moves {event : Event} {after : Kernel} (reached : Reachable schedClass k) (enabled : k.Enabled event)
    (stepped : k.step event = .ok after) : ∃ procs kids queue init procs' kids' queue',
      k.Invariant procs kids queue init ∧ Moves k after (killedBy event k) (askedBy event k) procs' kids' queue queue' init := by
  obtain ⟨procs, kids, queue, init, inv⟩ := reached.invariant
  rcases step_ends inv enabled with ⟨after', procs', kids', queue', done, moves⟩ | ⟨halt, -, done⟩
  · cases Except.ok.inj (done.symm.trans stepped)
    exact ⟨procs, kids, queue, init, procs', kids', queue', inv, moves⟩
  · cases done.symm.trans stepped

theorem Reachable.stops {event : Event} {halt : Halt} (reached : Reachable schedClass k) (enabled : k.Enabled event)
    (stepped : k.step event = .error halt) : ∃ init, k.initproc = some init ∧ k.Stop init halt := by
  obtain ⟨procs, kids, queue, init, inv⟩ := reached.invariant
  rcases step_ends inv enabled with ⟨after, procs', kids', queue', done, moves⟩ | ⟨halt', stop, done⟩
  · cases done.symm.trans stepped
  · cases Except.error.inj (done.symm.trans stepped)
    exact ⟨init, inv.stable.initproc, stop⟩

theorem Reachable.halts {event : Event} {halt : Halt} (reached : Reachable schedClass k) (enabled : k.Enabled event)
    (stepped : k.step event = .error halt) : halt ∈ panics := by
  obtain ⟨init, -, stop⟩ := reached.stops enabled stepped
  exact stop.listed

theorem Guarded.reachable {condition : Kernel → Event → Kernel → Prop} (guarded : Guarded schedClass condition k) :
    Reachable schedClass k := by
  induction guarded with
  | boot granted booted => exact .boot granted booted
  | step _ enabled stepped _ ih => exact .step ih enabled stepped

/-- After the boot only the idle process and `initproc` are live, with pids 0 and 1;
neither has been killed. -/
theorem booted_spec (granted : answers.proc ≠ some idle ∧ (answers.copyMm = 0 ∨ answers.copyMm = -eNoMem))
    (booted : boot schedClass memory idle answers = .ok k) : ∃ init, k.allocated = [init, idle] ∧ idle ≠ init ∧
      k.idleproc = idle ∧ k.initproc = some init ∧ k.current = idle ∧ k.loc idle = .cpuIdle ∧ k.loc init = .initMain ∧
      k.table.pid init = 1 ∧ (k.flags idle = 0 ∧ k.flags init = 0) ∧ k.state idle = .runnable ∧ k.state init = .runnable := by
  rcases boot_spec granted with ⟨init, after, kids, done, forked, -⟩ | failed
  · cases Except.ok.inj (done.symm.trans booted)
    cases forked with
    | @born _ table rq fresh given positive pids =>
      have apart : idle ≠ init := fun same => fresh (same ▸ List.mem_cons_self)
      refine ⟨init, rfl, apart, rfl, rfl, rfl, ?_, Function.update_self _ _ _, ?_,
        ⟨?_, Function.update_self _ _ _⟩, ?_, Function.update_self _ _ _⟩
      · exact (Function.update_of_ne apart _ _).trans (Function.update_self _ _ _)
      · exact (congrFun pids init).trans (Function.update_self _ _ _)
      · exact (Function.update_of_ne apart _ _).trans (Function.update_self _ _ _)
      · exact (Function.update_of_ne apart _ _).trans ((Function.update_of_ne apart _ _).trans (Function.update_self _ _ _))
  · cases failed.symm.trans booted

theorem Reachable.schedClass_eq (reached : Reachable schedClass k) : k.schedClass = schedClass := by
  induction reached with
  | boot granted booted =>
    rcases boot_spec granted with ⟨init, after, kids, done, forked, -⟩ | failed
    · cases Except.ok.inj (done.symm.trans booted)
      exact forked.frame.schedClass
    · cases failed.symm.trans booted
  | step reached enabled stepped ih =>
    obtain ⟨_, _, _, _, _, _, _, _, moves⟩ := reached.moves enabled stepped
    exact moves.frame.schedClass.trans ih

end Ucore.Kernel
