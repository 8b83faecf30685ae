import Mathlib
import Ucore.Proofs.Exit
import Ucore.Proofs.Fork
import Ucore.Proofs.Wait

/-! Every event leads to a state in which the invariant holds again, or to one of
four panics. -/

namespace Ucore.Kernel
open Lib RunQueue ProcTable

variable {k : Kernel} {procs queue : List Ptr} {kids : Ptr → List Ptr} {proc init : Ptr} {loc : Loc} {asked : Option (Int × Nat)}

theorem Moves.refl (inv : k.Invariant procs kids queue init) : Moves k k none asked procs kids queue queue init := by
  refine ⟨inv, .refl k, .steady rfl ?_ (Or.inl rfl), .none (.refl _ _) (fun _ _ => rfl) (fun _ _ _ => ⟨rfl, rfl⟩)⟩
  rw [inv.runnable]
  exact ProcState.runnable_alive

section Places

theorem InitLoc.not_user (first : InitLoc loc) : ¬ UserLoc loc := by
  cases loc with
  | waiting pid codeStore caller =>
    intro user
    obtain ⟨-, -, rfl⟩ := first
    cases user
  | initMain | initLoop => exact id
  | cpuIdle | userMain | forkret | user | trapDispatched | trapScheduled | exited => exact absurd first id

theorem Invariant.userProc (inv : k.Invariant procs kids queue init) (user : UserLoc (k.loc k.current)) :
    k.current ≠ k.idleproc ∧ k.current ≠ init := by
  refine ⟨fun idle => ?_, fun first => ?_⟩
  · rw [idle, inv.stable.located.idle] at user
    exact user
  · rw [first] at user
    exact InitLoc.not_user inv.stable.located.first user

theorem Invariant.initProc (inv : k.Invariant procs kids queue init) (first : InitLoc (k.loc k.current)) : k.current = init := by
  by_contra away
  rcases List.mem_cons.mp inv.stable.current with idle | member
  · rw [idle, inv.stable.located.idle] at first
    exact first
  · exact InitLoc.not_user first (inv.stable.located.user _ member away)

theorem Invariant.suitsUser (inv : k.Invariant procs kids queue init) (here : UserLoc (k.loc k.current)) (user : UserLoc loc)
    (stays : loc ≠ .exited) : k.Suits init loc := by
  obtain ⟨busy, notInit⟩ := inv.userProc here
  exact ⟨busy, fun first => absurd first notInit, fun _ => ⟨user, stays⟩⟩

theorem Invariant.suitsInit (inv : k.Invariant procs kids queue init) (here : InitLoc (k.loc k.current)) (first : InitLoc loc) :
    k.Suits init loc := by
  have own := inv.initProc here
  have busy : k.current ≠ k.idleproc := own ▸ ne_of_mem_of_not_mem inv.stable.initLive.1 inv.stable.core.table.indexed.root
  exact ⟨busy, fun _ => first, fun away => absurd own away⟩

theorem Invariant.suitsHere (inv : k.Invariant procs kids queue init) {pid : Int} {codeStore : Nat} {caller : WaitCaller}
    (here : k.loc k.current = .waiting pid codeStore caller) : k.Suits init (.waiting pid codeStore caller) := by
  have busy : k.current ≠ k.idleproc := by
    intro idle
    rw [idle, inv.stable.located.idle] at here
    cases here
  refine ⟨busy, fun first => ?_, fun away => ⟨?_, nofun⟩⟩
  · rw [← here, first]
    exact inv.stable.located.first
  · rw [← here]
    exact inv.stable.located.user _ ((List.mem_cons.mp inv.stable.current).resolve_left busy) away

end Places

section Tune

/-- Time slices, the priority of the running process and `need_resched` change. -/
theorem Invariant.tunes (inv : k.Invariant procs kids queue init) (timeSlice : Ptr → Int) (lab6Priority : Ptr → BitVec 32)
    (needResched : Ptr → Bool) (others : ∀ proc, some proc ≠ k.running → lab6Priority proc = k.rq.lab6Priority proc)
    (positive : ∀ proc, k.rq.lab6Priority proc ≠ 0 → lab6Priority proc ≠ 0) :
    Moves k { k with
      rq := { k.rq with timeSlice := timeSlice, lab6Priority := lab6Priority }
      needResched := needResched } none asked procs kids queue queue init := by
  refine ⟨inv.alike ⟨rfl, rfl, ⟨_, _, rfl⟩, rfl, rfl, rfl, rfl, rfl, rfl, rfl⟩, ⟨rfl, rfl, rfl, fun _ _ _ => rfl,
    fun _ _ _ => Or.inl rfl, fun _ _ _ => rfl, fun _ _ _ => rfl, fun _ _ => rfl, fun _ _ => rfl, le_refl _,
    fun away => absurd rfl away⟩, .steady rfl ?_ (Or.inl rfl),
    .none (.adjust timeSlice lab6Priority rfl others positive rfl rfl rfl) (fun _ _ => rfl) (fun _ _ _ => ⟨rfl, rfl⟩)⟩
  change k.state k.current ≠ .zombie
  rw [inv.runnable]
  exact ProcState.runnable_alive

theorem procTick_eq (schedClass : SchedClass) (proc : Ptr) (rq : RunQueue) :
    ∃ timeSlice, (schedClass.procTick proc rq).1 = { rq with timeSlice := timeSlice } := by
  cases schedClass with
  | rr | stride | sjf | hpf => exact countDown_eq proc rq
  | fifo => exact ⟨rq.timeSlice, rfl⟩

theorem schedClassProcTick_spec (inv : k.Invariant procs kids queue init) (proc : Ptr) :
    Moves k (k.schedClassProcTick proc) none asked procs kids queue queue init := by
  have tuned : ∀ timeSlice needResched, Moves k
      { k with rq := { k.rq with timeSlice := timeSlice }, needResched := needResched } none asked procs kids queue queue init :=
    fun timeSlice needResched =>
      inv.tunes timeSlice k.rq.lab6Priority needResched (fun _ _ => rfl) (fun _ positive => positive)
  rw [schedClassProcTick]
  by_cases busy : proc ≠ k.idleproc
  · rw [if_pos busy]
    obtain ⟨timeSlice, ticked⟩ := procTick_eq k.schedClass proc k.rq
    cases spent : (k.schedClass.procTick proc k.rq).2 with
    | true =>
      simp only [spent, ticked, if_true]
      exact tuned timeSlice _
    | false =>
      simp only [spent, ticked, if_false, Bool.false_eq_true]
      exact tuned timeSlice k.needResched
  · rw [if_neg busy]
    exact tuned k.rq.timeSlice _

end Tune

section Fork

variable {after : Kernel} {procs' queue' : List Ptr} {kids' : Ptr → List Ptr} {entry : Loc} {result : Int}

/-- A `do_fork` keeps the invariant: the child starts at a place of user processes. -/
theorem Forked.moves (inv : k.Invariant procs kids queue init) (busy : k.current ≠ k.idleproc)
    (forked : Forked k entry procs kids queue result after procs' kids' queue') (core : after.Core procs' kids' queue')
    (user : UserLoc entry) (stays : entry ≠ .exited) : Moves k after none asked procs' kids' queue queue' init := by
  obtain ⟨⟨⟨table, queued, slept, waits⟩, live, located, initproc, initLive, initOnly, current⟩, runnable⟩ := inv
  have fresh : ∀ proc, proc ∉ k.allocated → proc ∉ k.idleproc :: procs := fun proc new inside => new (live.mem_iff.mpr inside)
  have frame := forked.frame
  have effect := forked.effect queued fresh current
  have old : ∀ other ∈ k.idleproc :: procs, other ∈ k.allocated := fun other member => live.mem_iff.mpr member
  have stays' : ∀ other ∈ procs', after.loc other = .exited → after.state other = .zombie := by
    have inner : ∀ other ∈ procs, after.loc other = .exited → after.state other = .zombie := by
      intro other member gone
      obtain ⟨state, place, -⟩ := frame.old other (old other (List.mem_cons_of_mem _ member))
      rw [place] at gone
      exact state.trans (located.exited other member gone)
    intro other member gone
    rcases frame.born with ⟨rfl, -⟩ | ⟨proc, -, rfl, -, -, place, -⟩
    · exact inner other member gone
    · rcases List.mem_cons.mp member with rfl | member
      · exact absurd (place.symm.trans gone) stays
      · exact inner other member gone
  have users : ∀ other ∈ procs', other ≠ init → UserLoc (after.loc other) := by
    have inner : ∀ other ∈ procs, other ≠ init → UserLoc (after.loc other) := by
      intro other member away
      rw [(frame.old other (old other (List.mem_cons_of_mem _ member))).2.1]
      exact located.user other member away
    intro other member away
    rcases frame.born with ⟨rfl, -⟩ | ⟨proc, -, rfl, -, -, place, -⟩
    · exact inner other member away
    · rcases List.mem_cons.mp member with rfl | member
      · rw [place]
        exact user
      · exact inner other member away
  have grows : ∀ other ∈ procs, other ∈ procs' := by
    intro other member
    rcases frame.born with ⟨rfl, -⟩ | ⟨proc, -, rfl, -⟩
    · exact member
    · exact List.mem_cons_of_mem _ member
  have initIn := old init (List.mem_cons_of_mem _ initLive.1)
  have idleIn := old k.idleproc List.mem_cons_self
  have currentIn := old k.current current
  have alive : after.state k.current ≠ .zombie := by
    rw [(frame.old _ currentIn).1, runnable]
    exact ProcState.runnable_alive
  refine ⟨⟨⟨core, ?_, ⟨?_, ?_, users, stays'⟩, frame.initproc.trans initproc, ⟨grows init initLive.1, ?_⟩, ?_, ?_⟩, ?_⟩,
    ⟨frame.schedClass, frame.idleproc, frame.initproc, ?_, ?_, ?_, ?_, ?_, frame.pid, frame.births.1, ?_⟩, ?_,
    .none effect (fun other member => (frame.old other member).2.2.2.1) (fun other member _ => frame.strides other member)⟩
  · rw [frame.idleproc]
    rcases frame.born with ⟨rfl, same⟩ | ⟨proc, -, rfl, same, -⟩
    · rw [same]
      exact live
    · rw [same]
      exact (live.cons proc).trans (List.Perm.swap _ _ _)
  · rw [frame.idleproc, (frame.old _ idleIn).2.1]
    exact located.idle
  · rw [(frame.old init initIn).2.1]
    exact located.first
  · rw [(frame.old init initIn).1]
    exact initLive.2
  · rw [frame.idleproc]
    cases forked with
    | refused | abandoned => exact initOnly
    | @born child _ _ unused =>
      have away : k.idleproc ≠ child := ne_of_mem_of_not_mem idleIn unused
      rw [Function.update_of_ne busy.symm, Function.update_of_ne away]
      exact initOnly
  · rw [frame.current, frame.idleproc]
    rcases List.mem_cons.mp current with idle | member
    · exact absurd idle busy
    · exact List.mem_cons_of_mem _ (grows _ member)
  · rw [frame.current, (frame.old _ currentIn).1]
    exact runnable
  · exact fun other member _ => (frame.old other member).2.1
  · exact fun other member _ => Or.inl (frame.old other member).1
  · exact fun other member _ => (frame.old other member).2.2.1
  · exact fun other _ _ => congrFun frame.exitCode other
  · exact fun other member => (frame.old other member).2.2.2.2
  · exact fun counted => absurd (frame.old _ idleIn).2.2.2.1 counted
  · rcases frame.born with ⟨rfl, same⟩ | ⟨proc, unused, rfl, same, state, -, flags, serial, strides⟩
    · exact .steady same alive (Or.inl frame.history)
    · refine .fork proc unused same state flags serial (frame.births.2 ?_) alive frame.history strides
      rw [same]
      exact List.cons_ne_self _ _

end Fork

section Kill

/-- The process that `do_kill(pid)` marks. -/
def killed (k : Kernel) (pid : Int) : Option Ptr :=
  match k.table.findProc pid with
  | .ok (some proc) => if k.exiting proc then none else some proc
  | _ => none

/-- A sleeping process is woken. -/
theorem Invariant.wakes (inv : k.Invariant procs kids queue init) (member : proc ∈ procs) (asleep : k.state proc = .sleeping) :
    ∃ rq, k.schedClass.enqueue k.table.pid proc k.rq = .ok rq ∧ wakeupProc proc k = .ok (k.woken proc rq) ∧
      (k.woken proc rq).Invariant procs kids (queue ++ [proc]) init := by
  obtain ⟨⟨⟨table, queued, slept, waits⟩, live, located, initproc, initLive, initOnly, current⟩, runnable⟩ := inv
  have away : proc ≠ k.current := by
    rintro rfl
    exact absurd (asleep.symm.trans runnable) (by decide)
  obtain ⟨rq, entered, woke, queued'⟩ := wakeupProc_spec queued table.indexed.root table.indexed.room member
    (by simp [asleep]) (by simp [asleep]) away
  have own : (k.woken proc rq).state proc = .runnable := Function.update_self _ _ _
  have states : ∀ other, other ≠ proc → (k.woken proc rq).state other = k.state other :=
    fun other apart => Function.update_of_ne apart _ _
  refine ⟨rq, entered, woke, ⟨⟨table, queued', slept.woken (ne_of_mem_of_not_mem member table.indexed.root) rq, ⟨?_, ?_⟩⟩, live,
    ⟨located.idle, located.first, located.user, ?_⟩, initproc, ⟨initLive.1, ?_⟩, initOnly, current⟩, ?_⟩
  · intro other inside sleeping
    have apart : other ≠ proc := by
      rintro rfl
      rw [own] at sleeping
      cases sleeping
    rw [states other apart] at sleeping
    obtain ⟨pid, codeStore, caller, loc, none⟩ := waits.waiting other inside sleeping
    refine ⟨pid, codeStore, caller, loc, fun child below same => ?_⟩
    by_cases same' : child = proc
    · rw [same', own]
      exact ProcState.runnable_alive
    · rw [states child same']
      exact none child below same
  · intro other inside gone
    have apart : other ≠ proc := by
      rintro rfl
      rw [own] at gone
      cases gone
    rw [states other apart] at gone
    exact waits.barren other inside gone
  · intro other inside gone
    have exited := located.exited other inside gone
    have apart : other ≠ proc := by
      rintro rfl
      exact absurd (exited.symm.trans asleep) (by decide)
    exact (states other apart).trans exited
  · by_cases same : init = proc
    · rw [same, own]
      exact ProcState.runnable_alive
    · rw [states init same]
      exact initLive.2
  · exact (states k.current away.symm).trans runnable

private theorem wtChild_interrupted : wtChild &&& wtInterrupted ≠ 0 := by decide

/-- `do_kill` marks its target and wakes it from `do_wait`. -/
theorem doKill_spec (inv : k.Invariant procs kids queue init) (pid : Int) :
    ∃ result after queue', doKill pid k = .ok (result, after) ∧
      Moves k after (k.killed pid) asked procs kids queue queue' init ∧ after.current = k.current ∧ after.loc = k.loc ∧
      (∀ proc, k.killed pid = some proc → after.state proc ≠ .sleeping) ∧
      after.exiting = fun proc => k.exiting proc || some proc = k.killed pid := by
  obtain ⟨found, searched, hit⟩ := findProc_spec inv.stable.core.table.indexed pid
  have unmarked : k.killed pid = none → k.exiting = fun proc => k.exiting proc || some proc = k.killed pid := by
    intro nobody
    funext proc
    rw [nobody]
    simp
  cases found with
  | none =>
    have nobody : k.killed pid = none := by rw [killed, searched]
    refine ⟨-eInval, k, queue, ?_, nobody ▸ Moves.refl inv, rfl, rfl, fun proc target => absurd (nobody.symm.trans target) (Option.some_ne_none proc).symm, unmarked nobody⟩
    rw [doKill, searched]
    rfl
  | some proc =>
    obtain ⟨member, -⟩ := (hit proc).mp rfl
    by_cases already : k.exiting proc = true
    · have nobody : k.killed pid = none := by simp [killed, searched, already]
      refine ⟨-eKilled, k, queue, ?_, nobody ▸ Moves.refl inv, rfl, rfl, fun proc target => absurd (nobody.symm.trans target) (Option.some_ne_none proc).symm, unmarked nobody⟩
      rw [doKill, searched, ok_bind]
      simp only [already, Bool.not_true, Bool.false_eq_true, if_false]
    · have target : k.killed pid = some proc := by simp [killed, searched, already]
      have marking : (k.setFlags proc (k.flags proc ||| pfExiting)).exiting =
          fun other => k.exiting other || some other = k.killed pid := by
        funext other
        rw [target]
        by_cases same : other = proc
        · subst same
          have set : (k.flags other ||| pfExiting) &&& pfExiting ≠ 0 := by
            rw [BitVec.and_comm, BitVec.and_or_distrib_left]
            intro zero
            exact absurd (BitVec.or_eq_zero_iff.mp zero).2 (by decide)
          have lit : (k.setFlags other (k.flags other ||| pfExiting)).exiting other = true := by
            rw [exiting, decide_eq_true_eq, show (k.setFlags other (k.flags other ||| pfExiting)).flags other =
              k.flags other ||| pfExiting from Function.update_self _ _ _]
            exact set
          simp [lit]
        · simp [exiting, setFlags, same]
      have marked : (k.setFlags proc (k.flags proc ||| pfExiting)).Invariant procs kids queue init :=
        inv.alike ⟨rfl, rfl, ⟨_, _, rfl⟩, rfl, rfl, rfl, rfl, rfl, rfl, rfl⟩
      have flags : ∀ other ∈ k.allocated, some other ≠ k.killed pid →
          (k.setFlags proc (k.flags proc ||| pfExiting)).flags other = k.flags other := by
        intro other _ away
        rw [target] at away
        exact Function.update_of_ne (fun same => away (congrArg some same)) _ _
      have alive : k.state k.current ≠ .zombie := by
        rw [inv.runnable]
        exact ProcState.runnable_alive
      have start : doKill pid k = onlyIf (k.waitState proc &&& wtInterrupted ≠ 0) (wakeupProc proc)
          (k.setFlags proc (k.flags proc ||| pfExiting)) >>= fun k => .ok (0, k) := by
        rw [doKill, searched, ok_bind]
        simp only [already, Bool.not_false, if_true]
        rfl
      by_cases asleep : k.state proc = .sleeping
      · have waits := inv.stable.core.slept.asleep proc member asleep
        obtain ⟨rq, entered, woke, awake⟩ := marked.wakes member asleep
        refine ⟨0, _, queue ++ [proc], ?_, ⟨awake, ⟨rfl, rfl, rfl, fun _ _ _ => rfl, ?_, flags, fun _ _ _ => rfl, fun _ _ => rfl,
          fun _ _ => rfl, le_refl _, fun away => absurd rfl away⟩, .steady rfl ?_ (Or.inl rfl),
          .none ?_ (fun _ _ => rfl) ?_⟩, rfl, rfl, ?_, marking⟩
        · rw [start, onlyIf, if_pos (by rw [waits]; exact wtChild_interrupted), woke]
          rfl
        · intro other _ _
          by_cases same : other = proc
          · right
            rw [same]
            exact ⟨asleep, Function.update_self _ _ _⟩
          · exact Or.inl (Function.update_of_ne same _ _)
        · have away : k.current ≠ proc := by
            rintro rfl
            exact absurd (asleep.symm.trans inv.runnable) (by decide)
          rw [show ((k.setFlags proc (k.flags proc ||| pfExiting)).woken proc rq).state k.current = k.state k.current from
            Function.update_of_ne away _ _]
          exact alive
        · have absent : proc ∉ queue := fun inside =>
            absurd (((inv.stable.core.queued.members proc).mp inside).2.1.symm.trans asleep) (by decide)
          refine .wake proc absent ?_ entered rfl ?_ rfl
          · intro runs
            exact absurd (((running_eq_some.mp runs).2.1).symm.trans asleep) (by decide)
          · exact running_congr (awake.runnable.trans inv.runnable.symm) rfl rfl
        · intro other _ _
          have keys := enqueue_keys entered
          exact ⟨congrFun keys.stride other, congrFun keys.trueStride other⟩
        · intro other target'
          cases target.symm.trans target'
          rw [show ((k.setFlags proc (k.flags proc ||| pfExiting)).woken proc rq).state proc = .runnable from
            Function.update_self _ _ _]
          exact ProcState.runnable_awake
      · have still := inv.stable.core.slept.awake proc member asleep
        refine ⟨0, _, queue, ?_, ⟨marked, ⟨rfl, rfl, rfl, fun _ _ _ => rfl, fun _ _ _ => Or.inl rfl, flags, fun _ _ _ => rfl,
          fun _ _ => rfl, fun _ _ => rfl, le_refl _, fun away => absurd rfl away⟩, .steady rfl alive (Or.inl rfl),
          .none (.refl _ _) (fun _ _ => rfl) (fun _ _ _ => ⟨rfl, rfl⟩)⟩, rfl, rfl, ?_, marking⟩
        · rw [start, onlyIf, if_neg (by rw [still]; decide)]
          rfl
        · intro other target'
          cases target.symm.trans target'
          exact asleep

end Kill

/-- Why a run ends: `initproc` has been killed, or the loop of `init_main` has come to
its end, or `user_main` was not created, or a system call does not exist, or a
store was misaligned. -/
inductive Stop (k : Kernel) (init : Ptr) : Halt → Prop where
  | killed (first : k.current = init) (dying : k.exiting init = true) : Stop k init (.panic "initproc exit.\n")
  | ended (first : k.current = init) (alone : k.waitSearch 0 = .ok (false, none)) : Stop k init (.panic "initproc exit.\n")
  | refused : Stop k init (.panic "create user_main failed.\n")
  | undefined : Stop k init (.panic "undefined syscall")
  | misaligned : Stop k init (.panic "AMO address misaligned\n")

def panics : List Halt :=
  [.panic "initproc exit.\n", .panic "create user_main failed.\n", .panic "undefined syscall",
    .panic "AMO address misaligned\n"]

theorem Stop.listed {halt : Halt} (stop : k.Stop init halt) : halt ∈ panics := by
  cases stop with
  | killed | ended | refused | undefined | misaligned => decide

/-- A computation ends in a state that a step may lead to, or stops for one of the
reasons above. -/
def Ends (k : Kernel) (killed : Option Ptr) (asked : Option (Int × Nat)) (queue : List Ptr) (init : Ptr)
    (outcome : Kern Kernel) : Prop :=
  (∃ after procs' kids' queue', outcome = .ok after ∧ Moves k after killed asked procs' kids' queue queue' init) ∨
    ∃ halt, k.Stop init halt ∧ outcome = .error halt

def killedBy (event : Event) (k : Kernel) : Option Ptr :=
  match event with
  | .syscall (.kill pid) => k.killed pid
  | _ => none

def askedAt : Loc → Option (Int × Nat)
  | .waiting pid codeStore _ => some (pid, codeStore)
  | .initLoop => some (0, 0)
  | _ => none

/-- The arguments of the `do_wait` that runs in the step. -/
def askedBy (event : Event) (k : Kernel) : Option (Int × Nat) :=
  match event with
  | .syscall (.wait pid codeStore _) => some (pid, codeStore)
  | .resume => askedAt (k.loc k.current)
  | _ => none

section Ends

theorem Moves.ends {after : Kernel} {killed : Option Ptr} {procs' queue' : List Ptr} {kids' : Ptr → List Ptr}
    (moves : Moves k after killed asked procs' kids' queue queue' init) : Ends k killed asked queue init (.ok after) :=
  Or.inl ⟨after, procs', kids', queue', rfl, moves⟩

private theorem waitScan_place (fuel : Nat) (proc : Option Ptr) (haskid : Bool) :
    (k.setLoc k.current loc).waitScan fuel proc haskid = k.waitScan fuel proc haskid := by
  induction fuel generalizing proc haskid with
  | zero => cases proc <;> rfl
  | succ fuel ih =>
    cases proc with
    | none => rfl
    | some proc =>
      rw [waitScan, waitScan, ih]
      rfl

private theorem waitSearch_place (pid : Int) : (k.setLoc k.current loc).waitSearch pid = k.waitSearch pid := by
  rw [waitSearch, waitSearch, waitScan_place]
  rfl

theorem Stop.place {halt : Halt} (stop : (k.setLoc k.current loc).Stop init halt) : k.Stop init halt := by
  cases stop with
  | killed first dying => exact .killed first dying
  | ended first alone => exact .ended first (waitSearch_place 0 ▸ alone)
  | refused => exact .refused
  | undefined => exact .undefined
  | misaligned => exact .misaligned

theorem Ends.place {killed : Option Ptr} {outcome : Kern Kernel} (ends : Ends (k.setLoc k.current loc) killed asked queue init outcome) :
    Ends k killed asked queue init outcome := by
  rcases ends with ⟨after, procs', kids', queue', rfl, moves⟩ | ⟨halt, stop, same⟩
  · exact moves.place.ends
  · exact Or.inr ⟨halt, stop.place, same⟩

theorem doExit_ends (inv : k.Invariant procs kids queue init) (busy : k.current ≠ k.idleproc)
    (dying : k.current = init → k.exiting init = true) (code : Int) :
    Ends k none asked queue init (doExit code k) := by
  by_cases first : k.current = init
  · refine Or.inr ⟨_, .killed first (dying first), ?_⟩
    rw [doExit, if_neg busy, if_pos (first ▸ inv.stable.initproc.symm)]
  · obtain ⟨after, kids', queue', done, moves, -⟩ := doExit_spec inv busy first code
    rw [done]
    exact moves.ends

theorem waitRepeat_ends {pid : Int} {codeStore : Nat} {caller : WaitCaller} (inv : k.Invariant procs kids queue init)
    (suits : k.Suits init (.waiting pid codeStore caller)) : 
    Ends k none (some (pid, codeStore)) queue init (k.waitRepeat pid codeStore caller) := by
  rcases waitRepeat_spec inv suits with ⟨after, procs', kids', queue', done, moves⟩ | ⟨halts, first, alone⟩
  · rw [done]
    exact moves.ends
  · exact Or.inr ⟨_, .ended first alone, halts⟩

theorem giveWay_ends (inv : k.Invariant procs kids queue init) : Ends k none asked queue init (schedule k) := by
  obtain ⟨next, rq, queue', done, moves⟩ := inv.giveWay
  rw [done]
  exact moves.ends

theorem doExecve_ends (inv : k.Invariant procs kids queue init) (user : k.current ≠ k.idleproc ∧ k.current ≠ init) (outcome : ExecOutcome) :
    Ends k none asked queue init (doExecve outcome k) := by
  cases outcome with
  | invalid => exact ((Moves.refl inv).setA0 _ _).ends
  | loaded => exact ((Moves.refl inv).setA0 _ _).ends
  | failed error => exact doExit_ends inv user.1 (fun first => absurd first user.2) error

theorem syscall_ends (inv : k.Invariant procs kids queue init) (here : k.loc k.current = .trapDispatched) (call : Syscall)
    (granted : ∀ answers, call = .fork answers → k.Grants answers) :
    Ends k (killedBy (.syscall call) k) (askedBy (.syscall call) k) queue init (syscall call k) := by
  have user : UserLoc (k.loc k.current) := by
    rw [here]
    trivial
  obtain ⟨busy, notInit⟩ := inv.userProc user
  have runs : k.running = some k.current := running_eq_some.mpr ⟨rfl, inv.runnable, busy⟩
  cases call with
  | exit code => exact doExit_ends inv busy (fun first => absurd first notInit) code
  | fork answers =>
    have live := inv.stable.live
    have fresh : ∀ proc, proc ∉ k.allocated → proc ∉ k.idleproc :: procs := fun proc new inside => new (live.mem_iff.mpr inside)
    obtain ⟨result, after, procs', kids', queue', done, forked, core⟩ := doFork_spec .forkret inv.stable.core fresh
      (granted answers rfl) inv.stable.current inv.runnable
    rw [syscall, done]
    exact ((forked.moves inv busy core trivial nofun).setA0 _ _).ends
  | wait pid codeStore valid =>
    rw [syscall, doWait]
    by_cases refused : codeStore ≠ 0 ∧ !valid
    · rw [if_pos refused]
      obtain ⟨after, done, moves⟩ := waitFails inv (inv.suitsUser user trivial nofun) (show -eInval ≠ 0 by decide)
      rw [done]
      exact moves.ends
    · rw [if_neg refused]
      exact waitRepeat_ends inv (inv.suitsUser user rfl nofun)
  | exec outcome => exact doExecve_ends inv ⟨busy, notInit⟩ outcome
  | yield =>
    exact ((inv.tunes k.rq.timeSlice k.rq.lab6Priority _ (fun _ _ => rfl) (fun _ positive => positive)).setA0 _ _).ends
  | kill pid =>
    obtain ⟨result, after, queue', done, moves, -⟩ := doKill_spec inv pid
    rw [syscall, done]
    exact (moves.setA0 _ _).ends
  | setPriority priority =>
    refine ((inv.tunes k.rq.timeSlice _ k.needResched ?_ ?_).setA0 _ _).ends
    · intro proc away
      rw [runs] at away
      exact Function.update_of_ne (fun same => away (congrArg some same)) _ _
    · intro proc positive
      by_cases same : proc = k.current
      · rw [same, Function.update_self]
        split
        · decide
        · assumption
      · rwa [Function.update_of_ne same]
  | plain result => exact ((Moves.refl inv).setA0 _ _).ends
  | undefined => exact Or.inr ⟨_, .undefined, rfl⟩

theorem trapEnd_ends (inv : k.Invariant procs kids queue init) (here : k.loc k.current = .trapDispatched) :
    Ends k none asked queue init (trapEnd k) := by
  have user : UserLoc (k.loc k.current) := by
    rw [here]
    trivial
  rw [trapEnd]
  by_cases dying : k.exiting k.current = true
  · rw [if_pos dying]
    exact doExit_ends inv (inv.userProc user).1 (fun first => absurd first (inv.userProc user).2) _
  · rw [if_neg dying]
    by_cases spent : k.needResched k.current = true
    · rw [if_pos spent]
      have suits : k.Suits init .trapScheduled := inv.suitsUser user trivial nofun
      exact (giveWay_ends (inv.setLoc suits)).place
    · rw [if_neg spent]
      have suits : k.Suits init .user := inv.suitsUser user trivial nofun
      exact (inv.goes suits).ends

theorem resume_ends (inv : k.Invariant procs kids queue init)
    (here : k.loc k.current ≠ .user ∧ k.loc k.current ≠ .initMain ∧ k.loc k.current ≠ .userMain) :
    Ends k none (askedAt (k.loc k.current)) queue init (resume k) := by
  have user : UserLoc (k.loc k.current) → k.Suits init .user := fun here => inv.suitsUser here trivial nofun
  rw [resume]
  cases place : k.loc k.current with
  | cpuIdle =>
    dsimp only
    split
    · exact giveWay_ends inv
    · exact (Moves.refl inv).ends
  | initMain => exact absurd place here.2.1
  | userMain => exact absurd place here.2.2
  | user => exact absurd place here.1
  | initLoop =>
    have first : InitLoc (k.loc k.current) := by
      rw [place]
      trivial
    exact waitRepeat_ends inv (inv.suitsInit first ⟨rfl, rfl, rfl⟩)
  | forkret | trapScheduled => exact (inv.goes (user (by rw [place]; trivial))).ends
  | trapDispatched => exact trapEnd_ends inv place
  | waiting pid codeStore caller =>
    have suits := inv.suitsHere place
    dsimp only
    split
    · rename_i dying
      exact doExit_ends inv suits.busy (fun first => first ▸ dying) _
    · exact waitRepeat_ends inv suits
  | exited =>
    have notIdle : k.current ≠ k.idleproc := by
      intro idle
      rw [idle, inv.stable.located.idle] at place
      cases place
    have gone := inv.stable.located.exited _ ((List.mem_cons.mp inv.stable.current).resolve_left notIdle) place
    exact absurd (gone.symm.trans inv.runnable) (by decide)

theorem initMain_ends {answers : ForkAnswers} (inv : k.Invariant procs kids queue init) (here : k.loc k.current = .initMain)
    (granted : k.Grants answers) : Ends k none asked queue init (initMain answers k) := by
  have first : InitLoc (k.loc k.current) := by
    rw [here]
    trivial
  have suits : k.Suits init .initLoop := inv.suitsInit first trivial
  have live := inv.stable.live
  have fresh : ∀ proc, proc ∉ k.allocated → proc ∉ k.idleproc :: procs := fun proc new inside => new (live.mem_iff.mpr inside)
  obtain ⟨result, after, procs', kids', queue', done, forked, core⟩ := doFork_spec .userMain inv.stable.core fresh
    granted inv.stable.current inv.runnable
  have frame := forked.frame
  have moves : Moves k after none asked procs' kids' queue queue' init := forked.moves inv suits.busy core trivial nofun
  rw [initMain, done, ok_bind]
  dsimp only
  split
  · exact Or.inr ⟨_, .refused, rfl⟩
  · obtain ⟨invariant, frame', life, dispatch⟩ := moves
    have suits' : after.Suits init .initLoop := by
      refine ⟨?_, ?_, ?_⟩
      · rw [frame.current, frame.idleproc]
        exact suits.busy
      · rw [frame.current]
        exact suits.first
      · rw [frame.current]
        exact suits.user
    refine Moves.ends ⟨invariant.setLoc suits', ⟨frame'.schedClass, frame'.idleproc, frame'.initproc, ?_, frame'.state, frame'.flags,
      frame'.exitCode, frame'.serial, frame'.pid, frame'.births, frame'.idle⟩, ?_, ?_⟩
    · intro proc member away
      have apart : proc ≠ after.current := by
        rw [frame.current]
        exact away
      exact (Function.update_of_ne apart _ _).trans (frame'.loc proc member away)
    · cases life with
      | steady allocated alive history => exact .steady allocated alive history
      | fork child fresh allocated runnable flags serial births alive history strides =>
        exact .fork child fresh allocated runnable flags serial births alive history strides
      | exit code allocated gone place exitCode history =>
        refine .exit code allocated gone ?_ exitCode history
        exact absurd gone (by rw [(frame.old _ (live.mem_iff.mpr inv.stable.current)).1, inv.runnable]; exact ProcState.runnable_alive)
      | reap pid codeStore child call live below same exited allocated alive history =>
        exact .reap pid codeStore child call live below same exited allocated alive history
    · cases dispatch with
      | none effect runs strides => exact .none effect runs strides
      | next effect runs old => exact .next effect runs old

theorem step_ends {event : Event} (inv : k.Invariant procs kids queue init) (enabled : k.Enabled event) :
    Ends k (killedBy event k) (askedBy event k) queue init (step event k) := by
  have atUser : k.loc k.current = .user → UserLoc (k.loc k.current) := by
    intro here
    rw [here]
    trivial
  have suits : k.loc k.current = .user → k.Suits init .trapDispatched :=
    fun here => inv.suitsUser (atUser here) trivial nofun
  have placed : k.loc k.current = .user → (k.setLoc k.current .trapDispatched).Invariant procs kids queue init :=
    fun here => inv.setLoc (suits here)
  have traps : ∀ call, k.loc k.current = .user → (∀ answers, call = .fork answers → k.Grants answers) →
      Ends k (killedBy (.syscall call) k) (askedBy (.syscall call) k) queue init (syscall call (k.setLoc k.current .trapDispatched)) := by
    intro call here granted
    have ends := syscall_ends (placed here) (Function.update_self _ _ _) call granted
    cases call with
    | exit | fork | wait | exec | yield | kill | setPriority | plain | undefined => exact ends.place
  cases event with
  | tick =>
    rw [step]
    by_cases here : k.loc k.current = .user
    · rw [if_pos here]
      exact (schedClassProcTick_spec (placed here) k.current).place.ends
    · rw [if_neg here]
      exact (schedClassProcTick_spec inv k.current).ends
  | exception misalignedStore =>
    rw [step]
    split
    · exact Or.inr ⟨_, .misaligned, rfl⟩
    · exact (inv.goes (suits enabled)).ends
  | syscall call =>
    cases call with
    | fork answers =>
      refine traps _ enabled.1 ?_
      intro answers' same
      cases same
      exact enabled.2
    | exit | wait | exec | yield | kill | setPriority | plain | undefined => exact traps _ enabled nofun
  | initMain answers => exact initMain_ends inv enabled.1 enabled.2
  | userMain outcome =>
    obtain ⟨here, -⟩ := enabled
    have user : UserLoc (k.loc k.current) := by
      rw [here]
      trivial
    have suits : k.Suits init .user := inv.suitsUser user trivial nofun
    exact (doExecve_ends (inv.setLoc suits) (inv.userProc user) outcome).place
  | resume => exact resume_ends inv enabled

end Ends

end Ucore.Kernel
