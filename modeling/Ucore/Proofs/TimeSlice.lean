import Mathlib
import Ucore.Proofs.Stride

/-! Time slices under round-robin. `RR_enqueue` makes a slice whole if it is used up or
too large, and leaves it alone otherwise. -/

namespace Ucore
open Lib

namespace RunQueue

variable {rq middle after : RunQueue} {entered others : List Ptr} {proc : Ptr}

/-- No part of the slice of `proc` is left over from an earlier turn. -/
def Due (rq : RunQueue) (proc : Ptr) : Prop := rq.timeSlice proc = 0 ∨ rq.maxTimeSlice ≤ rq.timeSlice proc

/-- `proc` has a full slice. -/
def Whole (rq : RunQueue) (proc : Ptr) : Prop := rq.timeSlice proc = rq.maxTimeSlice

theorem Whole.due (whole : rq.Whole proc) : rq.Due proc := Or.inr (le_of_eq whole.symm)

/-- Only the slices of `entered` change, and those that are due become whole. -/
structure Refills (rq after : RunQueue) (entered : List Ptr) : Prop where
  most : after.maxTimeSlice = rq.maxTimeSlice
  others : ∀ proc ∉ entered, after.timeSlice proc = rq.timeSlice proc
  due : ∀ proc ∈ entered, rq.Due proc → after.Whole proc

theorem Refills.refl (rq : RunQueue) : Refills rq rq [] :=
  ⟨rfl, fun _ _ => rfl, fun _ inside => absurd inside List.not_mem_nil⟩

theorem Refills.whole (refills : Refills rq after entered) (whole : rq.Whole proc) : after.Whole proc := by
  by_cases inside : proc ∈ entered
  · exact refills.due proc inside whole.due
  · rw [Whole, refills.others proc inside, refills.most]
    exact whole

theorem Refills.trans (first : Refills rq middle entered) (second : Refills middle after others) :
    Refills rq after (entered ++ others) := by
  refine ⟨second.most.trans first.most, ?_, ?_⟩
  · intro proc outside
    rw [List.mem_append, not_or] at outside
    rw [second.others proc outside.2, first.others proc outside.1]
  · intro proc inside due
    by_cases early : proc ∈ entered
    · exact second.whole (first.due proc early due)
    · apply second.due proc ((List.mem_append.mp inside).resolve_left early)
      rw [Due, first.others proc early, first.most]
      exact due

theorem refill_refills (proc : Ptr) (rq : RunQueue) : Refills rq (rq.refill proc) [proc] := by
  rw [refill]
  split
  · refine ⟨rfl, ?_, ?_⟩
    · exact fun other outside => Function.update_of_ne (fun same => outside (List.mem_singleton.mpr same)) _ _
    · intro other inside _
      rw [List.mem_singleton.mp inside]
      exact Function.update_self _ _ _
  · rename_i part
    refine ⟨rfl, fun _ _ => rfl, ?_⟩
    intro other inside due
    rw [List.mem_singleton.mp inside] at due ⊢
    rcases due with spent | most
    · exact absurd (Or.inl spent) part
    · have large : ¬ rq.timeSlice proc > rq.maxTimeSlice := fun large => part (Or.inr large)
      exact le_antisymm (not_lt.mp large) most

theorem countDown_others {other : Ptr} (away : other ≠ proc) : (rq.countDown proc).1.timeSlice other = rq.timeSlice other := by
  rw [countDown]
  dsimp only
  split
  · exact Function.update_of_ne away _ _
  · rfl

theorem countDown_own {left : Nat} (slice : rq.timeSlice proc = left) : (rq.countDown proc).1.timeSlice proc = ((left - 1 : Nat) : Int) ∧
    ((rq.countDown proc).2 = true ↔ left ≤ 1) := by
  by_cases some : rq.timeSlice proc > 0
  · have counted : (rq.countDown proc).1.timeSlice proc = ((left - 1 : Nat) : Int) := by
      simp only [countDown, if_pos some, Function.update_self]
      omega
    refine ⟨counted, ?_⟩
    rw [show (rq.countDown proc).2 = decide ((rq.countDown proc).1.timeSlice proc = 0) from rfl, counted, decide_eq_true_eq]
    omega
  · have counted : (rq.countDown proc).1.timeSlice proc = ((left - 1 : Nat) : Int) := by
      simp only [countDown, if_neg some]
      omega
    refine ⟨counted, ?_⟩
    rw [show (rq.countDown proc).2 = decide ((rq.countDown proc).1.timeSlice proc = 0) from rfl, counted, decide_eq_true_eq]
    omega

theorem countDown_most : (rq.countDown proc).1.maxTimeSlice = rq.maxTimeSlice := by
  obtain ⟨_, counted⟩ := countDown_eq proc rq
  rw [counted]

theorem rrEnqueue_refills (done : rrEnqueue proc rq = .ok after) : Refills rq after [proc] := by
  obtain ⟨_, _, rest⟩ := bind_ok done
  cases rest
  have refills := refill_refills proc (rq.append proc)
  exact ⟨refills.most, refills.others, refills.due⟩

theorem rrDequeue_refills (done : rrDequeue proc rq = .ok after) : Refills rq after [] := by
  obtain ⟨_, _, rest⟩ := bind_ok done
  cases rest
  exact ⟨rfl, fun _ _ => rfl, fun _ inside => absurd inside List.not_mem_nil⟩

end RunQueue

open RunQueue

variable {before after : View} {added woken : List Ptr} {pid : Ptr → Int} {rq middle : RunQueue} {proc : Ptr}

theorem wakeAll_refills {after : RunQueue} (wakes : wakeAll .rr pid woken rq = .ok after) : Refills rq after woken := by
  induction woken generalizing rq with
  | nil =>
    cases wakes
    exact .refl _
  | cons proc woken ih =>
    obtain ⟨middle, entered, rest⟩ := bind_ok wakes
    exact (rrEnqueue_refills entered).trans (ih rest)

theorem Pick.refills (pick : Pick .rr before after added middle) : Refills before.rq after.rq added := by
  have entered := wakeAll_refills pick.wakes
  rcases turn_cases pick.held pick.turns with ⟨-, -, same⟩ | ⟨next, -, -, left⟩
  · rw [same]
    exact entered
  · have out : Refills middle after.rq [] := rrDequeue_refills left
    have both := entered.trans out
    rw [List.append_nil] at both
    exact both

namespace Kernel

variable {k middle after : Kernel} {proc : Ptr} {ticks : Nat}

/-- What the steps that call no `schedule` do between two ticks: the running process
keeps its slice, and every whole slice stays whole. -/
structure Still (k after : Kernel) : Prop where
  schedClass : after.schedClass = k.schedClass
  current : after.current = k.current
  runs : after.runs = k.runs
  old : ∀ proc ∈ after.allocated, proc ∈ k.allocated
  own : after.rq.timeSlice k.current = k.rq.timeSlice k.current
  most : after.rq.maxTimeSlice = k.rq.maxTimeSlice
  whole : ∀ proc, k.rq.Whole proc → after.rq.Whole proc

theorem Still.alike (schedClass : after.schedClass = k.schedClass) (current : after.current = k.current)
    (runs : after.runs = k.runs) (allocated : after.allocated = k.allocated) (rq : after.rq = k.rq) : Still k after := by
  refine ⟨schedClass, current, runs, ?_, ?_, ?_, ?_⟩
  · rw [allocated]
    exact fun _ live => live
  · rw [rq]
  · rw [rq]
  · intro proc whole
    rw [rq]
    exact whole

theorem Still.refl (k : Kernel) : Still k k := .alike rfl rfl rfl rfl rfl

theorem Still.trans (first : Still k middle) (second : Still middle after) : Still k after := by
  refine ⟨second.schedClass.trans first.schedClass, second.current.trans first.current, second.runs.trans first.runs,
    fun proc live => first.old proc (second.old proc live), ?_, second.most.trans first.most, fun proc whole => second.whole proc (first.whole proc whole)⟩
  have kept := second.own
  rw [first.current] at kept
  exact kept.trans first.own

/-- What happened first did not come near the scheduler. -/
theorem Still.behind (still : Still middle after) (schedClass : middle.schedClass = k.schedClass)
    (current : middle.current = k.current) (runs : middle.runs = k.runs) (allocated : middle.allocated = k.allocated)
    (rq : middle.rq = k.rq) : Still k after :=
  (Still.alike schedClass current runs allocated rq).trans still

theorem schedClassEnqueue_still (done : k.schedClassEnqueue proc = .ok after) (bound : k.schedClass = .rr)
    (away : proc ≠ k.current) : Still k after := by
  rw [schedClassEnqueue] at done
  split at done
  · obtain ⟨rq, entered, rest⟩ := bind_ok done
    cases rest
    rw [bound] at entered
    have refills : Refills k.rq rq [proc] := rrEnqueue_refills entered
    refine ⟨rfl, rfl, rfl, fun _ live => live, refills.others _ ?_, refills.most, fun _ whole => refills.whole whole⟩
    exact fun inside => away (List.mem_singleton.mp inside).symm
  · cases done
    exact .refl k

theorem wakeupProc_still (bound : k.schedClass = .rr) (done : wakeupProc proc k = .ok after) : Still k after := by
  obtain ⟨_, -, rest⟩ := bind_ok done
  split at rest
  · dsimp only at rest
    split at rest
    · rename_i away
      exact (schedClassEnqueue_still rest bound away).behind rfl rfl rfl rfl rfl
    · cases rest
      exact .alike rfl rfl rfl rfl rfl
  · cases rest
    exact .alike rfl rfl rfl rfl rfl

theorem wakeIf_still {condition : Prop} [Decidable condition] (done : onlyIf condition (wakeupProc proc) k = .ok after)
    (bound : k.schedClass = .rr) : Still k after := by
  rw [onlyIf] at done
  split at done
  · exact wakeupProc_still bound done
  · cases done
    exact .refl k

theorem reparent_still {fuel : Nat} (bound : k.schedClass = .rr) (done : reparent fuel k = .ok after) : Still k after := by
  induction fuel generalizing k with
  | zero => cases done
  | succ fuel ih =>
    rw [reparent] at done
    split at done
    · cases done
      exact .refl _
    · obtain ⟨initproc, -, rest⟩ := bind_ok done
      obtain ⟨middle, woken, rest⟩ := bind_ok rest
      have given := wakeIf_still woken bound
      exact (given.trans (ih (given.schedClass.trans bound) rest)).behind rfl rfl rfl rfl rfl

/-- The step ends in a `schedule`. -/
def Calls (k after : Kernel) : Prop := ∃ middle, Still k middle ∧ schedule middle = .ok after

theorem Still.calls (still : Still k middle) (calls : Calls middle after) : Calls k after := by
  obtain ⟨last, kept, done⟩ := calls
  exact ⟨last, still.trans kept, done⟩

theorem doExit_calls {code : Int} (bound : k.schedClass = .rr) (done : doExit code k = .ok after) : Calls k after := by
  rw [doExit] at done
  split at done
  · cases done
  split at done
  · cases done
  obtain ⟨parent, -, rest⟩ := bind_ok done
  obtain ⟨woken, woke, rest⟩ := bind_ok rest
  obtain ⟨left, given, rest⟩ := bind_ok rest
  have first := wakeIf_still woke bound
  have second := reparent_still (first.schedClass.trans bound) given
  have both : Still k left := (first.trans second).behind rfl rfl rfl rfl rfl
  refine ⟨_, both.trans ?_, rest⟩
  exact .alike rfl rfl rfl rfl rfl

theorem waitReturn_still {caller : WaitCaller} {result : Int} (bound : k.schedClass = .rr)
    (done : k.waitReturn caller result = .ok after) : Still k after ∨ Calls k after := by
  cases caller with
  | sysWait =>
    cases done
    exact Or.inl (.alike rfl rfl rfl rfl rfl)
  | initMain =>
    right
    rw [waitReturn] at done
    split at done
    · refine ⟨_, ?_, done⟩
      exact .alike rfl rfl rfl rfl rfl
    · rw [initMainEnd] at done
      obtain ⟨_, -, done⟩ := bind_ok done
      obtain ⟨_, -, done⟩ := bind_ok done
      obtain ⟨_, -, done⟩ := bind_ok done
      obtain ⟨_, -, done⟩ := bind_ok done
      obtain ⟨_, -, done⟩ := bind_ok done
      have noted : Still k (k.record (.waited (k.serial k.current) result)) := .alike rfl rfl rfl rfl rfl
      exact noted.calls (doExit_calls bound done)

theorem reap_still {codeStore : Nat} (done : k.reap proc codeStore = .ok after) : Still k after := by
  rw [reap] at done
  split at done
  · cases done
  · obtain ⟨table, -, rest⟩ := bind_ok done
    cases rest
    split
    · exact ⟨rfl, rfl, rfl, fun _ live => List.mem_of_mem_erase live, rfl, rfl, fun _ whole => whole⟩
    · exact ⟨rfl, rfl, rfl, fun _ live => List.mem_of_mem_erase live, rfl, rfl, fun _ whole => whole⟩

theorem waitRepeat_still {pid : Int} {codeStore : Nat} {caller : WaitCaller} (bound : k.schedClass = .rr)
    (done : k.waitRepeat pid codeStore caller = .ok after) : Still k after ∨ Calls k after := by
  rw [waitRepeat] at done
  obtain ⟨⟨haskid, found⟩, -, rest⟩ := bind_ok done
  cases found with
  | some proc =>
    obtain ⟨reaped, freed, rest⟩ := bind_ok rest
    have still := reap_still freed
    rcases waitReturn_still (still.schedClass.trans bound) rest with kept | calls
    · exact Or.inl (still.trans kept)
    · exact Or.inr (still.calls calls)
  | none =>
    dsimp only at rest
    split at rest
    · refine Or.inr ⟨_, ?_, rest⟩
      exact .alike rfl rfl rfl rfl rfl
    · exact waitReturn_still bound rest

theorem doKill_still {pid result : Int} (bound : k.schedClass = .rr) (done : doKill pid k = .ok (result, after)) : Still k after := by
  rw [doKill] at done
  obtain ⟨found, -, rest⟩ := bind_ok done
  cases found with
  | none =>
    cases rest
    exact .refl k
  | some proc =>
    dsimp only at rest
    split at rest
    · obtain ⟨woken, woke, rest⟩ := bind_ok rest
      cases rest
      have first := wakeIf_still woke bound
      exact first.behind rfl rfl rfl rfl rfl
    · cases rest
      exact .refl k

theorem doExecve_still {outcome : ExecOutcome} (done : doExecve outcome k = .ok after) (bound : k.schedClass = .rr) :
    Still k after ∨ Calls k after := by
  cases outcome with
  | invalid | loaded =>
    cases done
    exact Or.inl (.alike rfl rfl rfl rfl rfl)
  | failed error => exact Or.inr (doExit_calls bound done)

theorem resume_still (bound : k.schedClass = .rr) (done : resume k = .ok after) : Still k after ∨ Calls k after := by
  have goes : ∀ loc, Still k (k.setLoc k.current loc) := fun _ => .alike rfl rfl rfl rfl rfl
  rw [resume] at done
  split at done
  · split at done
    · exact Or.inr ⟨k, .refl k, done⟩
    · cases done
      exact Or.inl (.refl k)
  · exact waitRepeat_still bound done
  · cases done
    exact Or.inl (goes _)
  · rw [trapEnd] at done
    split at done
    · exact Or.inr (doExit_calls bound done)
    split at done
    · exact Or.inr ⟨_, goes _, done⟩
    · cases done
      exact Or.inl (goes _)
  · cases done
    exact Or.inl (goes _)
  · split at done
    · exact Or.inr (doExit_calls bound done)
    · exact waitRepeat_still bound done
  · cases done
  all_goals
    cases done
    exact Or.inl (.refl k)

theorem syscall_still {call : Syscall} (done : syscall call k = .ok after) (bound : k.schedClass = .rr)
    (old : ∀ answers, call ≠ .fork answers) : Still k after ∨ Calls k after := by
  cases call with
  | exit code => exact Or.inr (doExit_calls bound done)
  | fork answers => exact absurd rfl (old answers)
  | wait pid codeStore valid =>
    rw [syscall, doWait] at done
    split at done
    · exact waitReturn_still bound done
    · exact waitRepeat_still bound done
  | exec outcome => exact doExecve_still done bound
  | kill pid =>
    obtain ⟨⟨result, killed⟩, marked, rest⟩ := bind_ok done
    cases rest
    exact Or.inl ((doKill_still bound marked).trans (.alike rfl rfl rfl rfl rfl))
  | yield | plain =>
    cases done
    exact Or.inl (.alike rfl rfl rfl rfl rfl)
  | setPriority priority =>
    cases done
    exact Or.inl ⟨rfl, rfl, rfl, fun _ live => live, rfl, rfl, fun _ whole => whole⟩
  | undefined => cases done

private theorem schedClassEnqueue_runs (done : k.schedClassEnqueue proc = .ok after) : after.runs = k.runs := by
  rw [schedClassEnqueue] at done
  split at done
  · obtain ⟨rq, -, rest⟩ := bind_ok done
    cases rest
    rfl
  · cases done
    rfl

private theorem schedClassDequeueNext_runs {next : Option Ptr} (done : schedClassDequeueNext next k = .ok after) :
    after.runs = k.runs := by
  cases next with
  | none =>
    cases done
    rfl
  | some next =>
    obtain ⟨rq, -, rest⟩ := bind_ok done
    cases rest
    rfl

theorem schedule_counts (done : schedule k = .ok after) :
    after.runs after.current = k.runs after.current + 1 := by
  obtain ⟨entered, enters, rest⟩ := bind_ok done
  obtain ⟨left, leaves, rest⟩ := bind_ok rest
  cases rest
  have first : entered.runs = k.runs := by
    rw [onlyIf] at enters
    split at enters
    · exact (schedClassEnqueue_runs enters).trans rfl
    · cases enters
      rfl
  have second : left.runs = entered.runs := (schedClassDequeueNext_runs leaves).trans rfl
  change Function.update left.runs _ _ _ = _
  rw [Function.update_self, second, first]

theorem Calls.scheduled (calls : Calls k after) : scheduled k after ≠ none := by
  obtain ⟨middle, still, done⟩ := calls
  have counted := schedule_counts done
  rw [still.runs] at counted
  rw [Kernel.scheduled, if_neg (by omega)]
  exact Option.some_ne_none _

section Events

variable {procs queue procs' queue' : List Ptr} {kids kids' : Ptr → List Ptr} {init : Ptr} {entry : Loc} {result : Int} {event : Event}
  {killed : Option Ptr} {asked : Option (Int × Nat)}

/-- A `do_fork` writes no slice but that of the child, which is whole when it enters the queue. -/
structure Bears (k after : Kernel) : Prop where
  most : after.rq.maxTimeSlice = k.rq.maxTimeSlice
  others : ∀ proc ∈ k.allocated, after.rq.timeSlice proc = k.rq.timeSlice proc
  state : ∀ proc ∈ k.allocated, after.state proc = k.state proc
  whole : ∀ proc ∈ after.allocated, proc ∉ k.allocated → after.rq.Whole proc

theorem Forked.bears (forked : Forked k entry procs kids queue result after procs' kids' queue') (bound : k.schedClass = .rr) :
    Bears k after := by
  have frame := forked.frame
  cases forked with
  | refused => exact ⟨rfl, fun _ _ => rfl, fun _ _ => rfl, fun _ live fresh => absurd live fresh⟩
  | @abandoned proc _ fresh =>
    refine ⟨rfl, ?_, fun other member => (frame.old other member).1, ?_⟩
    · exact fun other member => Function.update_of_ne (ne_of_mem_of_not_mem member fresh) _ _
    · intro other live new
      have same : ((k.spawned proc).kfree proc).allocated = k.allocated := List.erase_cons_head ..
      exact absurd (same ▸ live) new
  | @born proc table rq fresh _ _ _ _ entered =>
    rw [bound] at entered
    have refills : Refills (initSched proc k.rq) rq [proc] := rrEnqueue_refills entered
    refine ⟨refills.most, ?_, fun other member => (frame.old other member).1, ?_⟩
    · intro other member
      have apart : other ≠ proc := ne_of_mem_of_not_mem member fresh
      refine (refills.others other ?_).trans (Function.update_of_ne apart _ _)
      rwa [List.mem_singleton]
    · intro other live new
      rcases List.mem_cons.mp live with rfl | old
      · exact refills.due other (List.mem_singleton.mpr rfl) (Or.inl (Function.update_self _ _ _))
      · exact absurd old new

/-- A step but a tick: a `do_fork`, one that calls `schedule`, or one that leaves the
running process its slice. -/
theorem step_still (inv : k.Invariant procs kids queue init) (bound : k.schedClass = .rr) (enabled : k.Enabled event)
    (stepped : step event k = .ok after) (untimed : event ≠ .tick) : Bears k after ∨ Still k after ∨ Calls k after := by
  have fresh : ∀ proc, proc ∉ k.allocated → proc ∉ k.idleproc :: procs := fun proc new inside => new (inv.stable.live.mem_iff.mpr inside)
  cases event with
  | tick => exact absurd rfl untimed
  | exception misalignedStore =>
    rw [step] at stepped
    split at stepped
    · cases stepped
    · cases stepped
      exact Or.inr (Or.inl (.alike rfl rfl rfl rfl rfl))
  | syscall call =>
    by_cases forks : ∃ answers, call = .fork answers
    · left
      obtain ⟨answers, rfl⟩ := forks
      have user : UserLoc (k.loc k.current) := by
        rw [enabled.1]
        trivial
      have placed : (k.setLoc k.current .trapDispatched).Invariant procs kids queue init :=
        inv.setLoc (inv.suitsUser user trivial (by decide))
      obtain ⟨result, forked, procs', kids', queue', done, ends, -⟩ := doFork_spec .forkret placed.stable.core fresh enabled.2
        placed.stable.current placed.runnable
      rw [step, syscall, done] at stepped
      cases stepped
      obtain ⟨most, others, state, whole⟩ := ends.bears bound
      exact ⟨most, others, state, whole⟩
    · right
      rw [step] at stepped
      rcases syscall_still stepped bound (fun answers same => forks ⟨answers, same⟩) with still | calls
      · exact Or.inl (still.behind rfl rfl rfl rfl rfl)
      · obtain ⟨middle, still, done⟩ := calls
        exact Or.inr ⟨middle, still.behind rfl rfl rfl rfl rfl, done⟩
  | initMain answers =>
    left
    obtain ⟨result, forked, procs', kids', queue', done, ends, -⟩ := doFork_spec .userMain inv.stable.core fresh enabled.2
      inv.stable.current inv.runnable
    rw [step, initMain, done, ok_bind] at stepped
    dsimp only at stepped
    split at stepped
    · cases stepped
    · cases stepped
      obtain ⟨most, others, state, whole⟩ := ends.bears bound
      exact ⟨most, others, state, whole⟩
  | userMain outcome =>
    right
    rw [step, userMain] at stepped
    rcases doExecve_still stepped bound with still | calls
    · exact Or.inl (still.behind rfl rfl rfl rfl rfl)
    · obtain ⟨middle, still, done⟩ := calls
      exact Or.inr ⟨middle, still.behind rfl rfl rfl rfl rfl, done⟩
  | resume => exact Or.inr (resume_still bound stepped)

theorem tick_spec (bound : k.schedClass = .rr) (stepped : step .tick k = .ok after) :
    after.rq = (if k.current = k.idleproc then k.rq else (k.rq.countDown k.current).1) ∧ after.state = k.state ∧
      after.allocated = k.allocated := by
  have ticked : ∀ k : Kernel, k.schedClass = .rr →
      (k.schedClassProcTick k.current).rq = (if k.current = k.idleproc then k.rq else (k.rq.countDown k.current).1) ∧
        (k.schedClassProcTick k.current).state = k.state ∧ (k.schedClassProcTick k.current).allocated = k.allocated := by
    intro k bound
    rw [schedClassProcTick]
    by_cases idle : k.current = k.idleproc
    · rw [if_neg (not_not.mpr idle), if_pos idle]
      exact ⟨rfl, rfl, rfl⟩
    · rw [if_pos idle, if_neg idle, bound]
      dsimp only
      split
      · exact ⟨rfl, rfl, rfl⟩
      · exact ⟨rfl, rfl, rfl⟩
  cases stepped
  by_cases user : k.loc k.current = .user
  · rw [if_pos user]
    exact ticked (k.setLoc k.current .trapDispatched) bound
  · rw [if_neg user]
    exact ticked k bound

/-- `proc` enters the run queue in the step: it is woken, or it gives way. -/
def Enters (k after : Kernel) (proc : Ptr) : Prop :=
  k.Live proc ∧ after.Contends proc ∧ (k.Contends proc → proc = k.current ∧ scheduled k after ≠ none)

/-- No process enters the run queue with a part of its slice left. -/
def Rested (k : Kernel) (_event : Event) (after : Kernel) : Prop := ∀ proc, Enters k after proc → k.rq.Due proc

instance (k : Kernel) (event : Event) (after : Kernel) : Decidable (Rested k event after) :=
  decidable_of_iff (∀ proc ∈ k.allocated, after.Contends proc → (k.Contends proc → proc = k.current ∧ scheduled k after ≠ none) →
    k.rq.timeSlice proc = 0 ∨ k.rq.maxTimeSlice ≤ k.rq.timeSlice proc)
    ⟨fun bounded proc enters => bounded proc enters.1 enters.2.1 enters.2.2, fun rested proc live contends new =>
      rested proc ⟨live, contends, new⟩⟩

/-- Every process in the run queue has a full slice. -/
structure Sliced (k : Kernel) : Prop where
  most : k.rq.maxTimeSlice = Ucore.maxTimeSlice
  whole : ∀ proc, k.Contends proc → proc ≠ k.current → k.rq.Whole proc

private theorem Sliced.quiet (sliced : k.Sliced) (inv : k.Invariant procs kids queue init) (bound : k.schedClass = .rr)
    (moves : Moves k after killed asked procs' kids' queue queue' init) (enabled : k.Enabled event)
    (stepped : step event k = .ok after) (rested : Rested k event after) (quiet : scheduled k after = none)
    (here : after.current = k.current) (effect : Effect k.schedClass (k.view queue) (after.view queue') false) : after.Sliced := by
  have inQueue : ∀ proc ∈ queue, k.Contends proc := fun proc inside => inv.contends_iff.mpr (Or.inl inside)
  have queued : ∀ proc, after.Contends proc → proc ≠ after.current → proc ∈ queue' := by
    intro proc contends away
    rcases moves.invariant.contends_iff.mp contends with inside | top
    · exact inside
    · exact absurd (running_eq_some.mp top).1 away
  by_cases timed : event = .tick
  · obtain ⟨ticked, state, allocated⟩ := tick_spec bound (timed ▸ stepped)
    have most : after.rq.maxTimeSlice = k.rq.maxTimeSlice := by
      rw [ticked]
      split
      · rfl
      · exact countDown_most
    refine ⟨most.trans sliced.most, ?_⟩
    rintro proc ⟨live, runnable, busy⟩ away
    rw [here] at away
    rw [Live, allocated] at live
    rw [state] at runnable
    rw [moves.frame.idleproc] at busy
    have old : k.Contends proc := ⟨live, runnable, busy⟩
    have kept : after.rq.timeSlice proc = k.rq.timeSlice proc := by
      rw [ticked]
      split
      · rfl
      · exact countDown_others away
    rw [Whole, kept, most]
    exact sliced.whole proc old away
  rcases step_still inv bound enabled stepped timed with bears | still | calls
  · refine ⟨bears.most.trans sliced.most, ?_⟩
    intro proc contends away
    by_cases live : proc ∈ k.allocated
    · have old : k.Contends proc := by
        refine ⟨live, ?_, ?_⟩
        · rw [← bears.state proc live]
          exact contends.2.1
        · rw [← moves.frame.idleproc]
          exact contends.2.2
      rw [Whole, bears.others proc live, bears.most]
      exact sliced.whole proc old (here ▸ away)
    · exact bears.whole proc contends.1 live
  · refine ⟨still.most.trans sliced.most, ?_⟩
    intro proc contends away
    by_cases old : k.Contends proc
    · exact still.whole proc (sliced.whole proc old (here ▸ away))
    have member := queued proc contends away
    have due : k.rq.Due proc := rested proc ⟨still.old proc contends.1, contends, fun same => absurd same old⟩
    rw [bound] at effect
    cases effect with
    | adjust _ _ _ _ _ same | spawn _ _ _ _ same =>
      rw [show queue' = queue from same] at member
      exact absurd (inQueue proc member) old
    | enlist child value _ _ _ entered grown =>
      have refills : Refills (initSched child k.rq) after.rq [child] := rrEnqueue_refills entered
      rw [show queue' = queue ++ [child] from grown, List.mem_append, List.mem_singleton] at member
      obtain rfl := member.resolve_left (fun inside => old (inQueue proc inside))
      exact refills.due proc (List.mem_singleton.mpr rfl) (Or.inl (Function.update_self _ _ _))
    | wake woken _ _ entered grown =>
      have refills : Refills k.rq after.rq [woken] := rrEnqueue_refills entered
      rw [show queue' = queue ++ [woken] from grown, List.mem_append, List.mem_singleton] at member
      obtain rfl := member.resolve_left (fun inside => old (inQueue proc inside))
      exact refills.due proc (List.mem_singleton.mpr rfl) due
  · exact absurd quiet calls.scheduled

private theorem Moves.called (moves : Moves k after killed asked procs' kids' queue queue' init) (inv : k.Invariant procs kids queue init)
    (called : scheduled k after ≠ none) : (∀ proc ∈ after.allocated, proc ∈ k.allocated) ∧
      ∃ added middle, Pick k.schedClass (k.view queue) (after.view queue') added middle := by
  cases moves.dispatch with
  | none effect runs =>
    have here : after.current = k.current := by
      rw [moves.invariant.current_eq, inv.current_eq, moves.frame.idleproc]
      exact congrArg (Option.getD · k.idleproc) effect.running_eq
    refine absurd ?_ called
    rw [scheduled, here, runs _ (inv.stable.live.mem_iff.mpr inv.stable.current)]
    exact if_pos rfl
  | next effect _ old => exact ⟨old, inv.pick effect⟩

private theorem Sliced.next (sliced : k.Sliced) (inv : k.Invariant procs kids queue init) (bound : k.schedClass = .rr)
    (moves : Moves k after killed asked procs' kids' queue queue' init) (rested : Rested k event after)
    (called : scheduled k after ≠ none) :
    after.rq.maxTimeSlice = Ucore.maxTimeSlice ∧ ∀ proc, after.Contends proc → after.rq.Whole proc := by
  obtain ⟨old, added, middle, pick⟩ := moves.called inv called
  have members : ∀ proc, proc ∈ queue ++ added ↔ after.Contends proc := fun proc => moves.invariant.candidates_iff pick
  have distinct : (queue ++ added).Nodup := pick.held.distinct
  rw [bound] at pick
  have refills : Refills k.rq after.rq added := pick.refills
  refine ⟨refills.most.trans sliced.most, ?_⟩
  intro proc contends
  rcases List.mem_append.mp ((members proc).mpr contends) with inside | new
  · have away : proc ≠ k.current := ((inv.stable.core.queued.members proc).mp inside).2.2
    exact refills.whole (sliced.whole proc (inv.contends_iff.mpr (Or.inl inside)) away)
  · apply refills.due proc new
    apply rested proc
    refine ⟨old proc contends.1, contends, fun before => ⟨?_, called⟩⟩
    rcases inv.contends_iff.mp before with inside | top
    · exact absurd rfl ((List.nodup_append.mp distinct).2.2 proc inside proc new)
    · exact (running_eq_some.mp top).1

/-- What a step does to the slices: the queued processes have full ones afterwards, and
so has the process that is dispatched. -/
theorem Sliced.step (sliced : k.Sliced) (inv : k.Invariant procs kids queue init) (bound : k.schedClass = .rr)
    (moves : Moves k after killed asked procs' kids' queue queue' init) (enabled : k.Enabled event)
    (stepped : step event k = .ok after) (rested : Rested k event after) :
    after.Sliced ∧ ∀ proc, scheduled k after = some proc → proc ≠ after.idleproc → after.rq.Whole proc := by
  rcases moves.scheduled_cases inv with ⟨quiet, here, effect⟩ | ⟨next, -⟩
  · refine ⟨sliced.quiet inv bound moves enabled stepped rested quiet here effect, fun proc chosen => ?_⟩
    cases quiet.symm.trans chosen
  · have called : scheduled k after ≠ none := by
      rw [next]
      exact Option.some_ne_none _
    obtain ⟨most, whole⟩ := sliced.next inv bound moves rested called
    refine ⟨⟨most, fun proc contends _ => whole proc contends⟩, ?_⟩
    intro proc chosen busy
    cases next.symm.trans chosen
    exact whole _ ⟨moves.invariant.stable.live.mem_iff.mpr moves.invariant.stable.current, moves.invariant.runnable, busy⟩

end Events

theorem booted_sliced {memory : Kernel} {idle : Ptr} {answers : ForkAnswers}
    (granted : answers.proc ≠ some idle ∧ (answers.copyMm = 0 ∨ answers.copyMm = -eNoMem))
    (booted : boot .rr memory idle answers = .ok k) : k.Sliced := by
  rcases boot_spec granted with ⟨init, after, kids, done, forked, -⟩ | failed
  · cases Except.ok.inj (done.symm.trans booted)
    have bears := forked.bears rfl
    have frame := forked.frame
    refine ⟨bears.most, ?_⟩
    rintro proc ⟨live, -, -⟩ away
    apply bears.whole proc live
    intro old
    apply away
    exact (List.mem_singleton.mp old).trans frame.current.symm
  · cases failed.symm.trans booted

theorem Guarded.sliced (guarded : Guarded .rr Rested k) : k.Sliced := by
  induction guarded with
  | boot granted booted => exact booted_sliced granted booted
  | step reached enabled stepped rested sliced =>
    have reached := reached.reachable
    obtain ⟨_, _, _, _, _, _, _, inv, moves⟩ := reached.moves enabled stepped
    exact (sliced.step inv reached.schedClass_eq moves enabled stepped rested).1

/-- How many ticks there are in an event. -/
def ticksIn : Event → Nat
  | .tick => 1
  | .exception _ | .syscall _ | .initMain _ | .userMain _ | .resume => 0

/-- The states of the turn that begins in `start`, with the ticks that there have been. -/
inductive During (start : Kernel) : Nat → Kernel → Prop where
  | start : During start 0 start
  | step {ticks middle after event} (during : During start ticks middle) (enabled : middle.Enabled event)
      (stepped : step event middle = .ok after) (quiet : scheduled middle after = none) :
      During start (ticks + ticksIn event) after

/-- In a turn that began with a full slice, the slice is what the ticks have left of it. -/
theorem During.slice {start : Kernel} (during : During start ticks k) (reached : Reachable .rr start)
    (busy : start.current ≠ start.idleproc) (most : start.rq.maxTimeSlice = maxTimeSlice)
    (whole : start.rq.Whole start.current) :
    Reachable .rr k ∧ k.current = start.current ∧ k.idleproc = start.idleproc ∧
      k.rq.timeSlice k.current = ((maxTimeSlice.toNat - ticks : Nat) : Int) := by
  induction during with
  | start =>
    refine ⟨reached, rfl, rfl, ?_⟩
    rw [whole, most]
    rfl
  | @step ticks middle after event _ enabled stepped quiet ih =>
    obtain ⟨reached, current, idleproc, slice⟩ := ih
    have bound := reached.schedClass_eq
    obtain ⟨procs, kids, queue, init, procs', kids', queue', inv, moves⟩ := reached.moves enabled stepped
    have here : after.current = middle.current := by
      rcases moves.scheduled_cases inv with ⟨-, here, -⟩ | ⟨called, -⟩
      · exact here
      · cases quiet.symm.trans called
    refine ⟨reached.step enabled stepped, here.trans current, moves.frame.idleproc.trans idleproc, ?_⟩
    rw [here]
    by_cases timed : event = .tick
    · subst timed
      obtain ⟨ticked, -, -⟩ := tick_spec bound stepped
      have own : middle.current ≠ middle.idleproc := by
        rw [current, idleproc]
        exact busy
      rw [ticked, if_neg own, (countDown_own slice).1]
      rfl
    · have untimed : ticksIn event = 0 := by
        cases event with
        | tick => exact absurd rfl timed
        | exception | syscall | initMain | userMain | resume => rfl
      rw [untimed, Nat.add_zero, ← slice]
      rcases step_still inv bound enabled stepped timed with bears | still | calls
      · exact bears.others _ (inv.stable.live.mem_iff.mpr inv.stable.current)
      · exact still.own
      · exact absurd quiet calls.scheduled

/-- In the runs in which no process enters the run queue with a part of its slice left,
`schedule` dispatches processes with a full slice, and the tick that sets
`need_resched` in such a turn is the one with the number `max_time_slice`. -/
theorem full_slices : ∀ k, Guarded .rr Rested k → ∀ event after, k.Enabled event → step event k = .ok after →
    Rested k event after → ∀ proc, scheduled k after = some proc → proc ≠ after.idleproc →
    after.rq.timeSlice proc = after.rq.maxTimeSlice ∧ after.rq.maxTimeSlice = maxTimeSlice ∧
      ∀ ticks later, During after ticks later → later.current = proc ∧
        ((later.schedClass.procTick proc later.rq).2 = true ↔ after.rq.maxTimeSlice ≤ ticks + 1) := by
  intro k guarded event after enabled stepped rested proc chosen busy
  have reached := guarded.reachable
  obtain ⟨_, _, _, _, _, _, _, inv, moves⟩ := reached.moves enabled stepped
  obtain ⟨sliced, full⟩ := guarded.sliced.step inv reached.schedClass_eq moves enabled stepped rested
  have whole := full proc chosen busy
  have own : proc = after.current := by
    rcases moves.scheduled_cases inv with ⟨quiet, -⟩ | ⟨next, -⟩
    · cases quiet.symm.trans chosen
    · cases next.symm.trans chosen
      rfl
  refine ⟨whole, sliced.most, ?_⟩
  intro ticks later during
  rw [own] at whole busy ⊢
  obtain ⟨reached', current, -, slice⟩ := during.slice (reached.step enabled stepped) busy sliced.most whole
  refine ⟨current, ?_⟩
  rw [← current, reached'.schedClass_eq, sliced.most]
  refine (countDown_own slice).2.trans ?_
  rw [show maxTimeSlice.toNat = 5 from rfl, show maxTimeSlice = 5 from rfl]
  omega

/-- The child of `user_main`'s process is dispatched with a full slice when its parent,
whose slice is untouched, yields. -/
theorem full_slices_child : ∃ k after, scheduled k after = some 3 ∧ after.rq.timeSlice 3 = after.rq.maxTimeSlice := by
  have reaches : ∃ k, Guarded .rr Rested k ∧ k.Enabled .resume ∧ ((k.step .resume).toOption.map fun after =>
      (decide (Rested k .resume after), scheduled k after, decide (3 = after.idleproc))) = some (true, some 3, false) :=
    @playFromUnder_reaches .rr [.resume, .initMain (granting 2), .resume, .userMain .loaded, .syscall (.fork (granting 3)),
      .resume, .syscall .yield] Rested _ _ _ (by decide +kernel)
  obtain ⟨k, guarded, enabled, outcome⟩ := reaches
  cases stepped : k.step .resume with
  | error halt =>
    rw [stepped] at outcome
    cases outcome
  | ok after =>
    rw [stepped] at outcome
    have results := Prod.mk.inj (Option.some.inj outcome)
    have rested := of_decide_eq_true results.1
    have chosen := (Prod.mk.inj results.2).1
    have busy := of_decide_eq_false (Prod.mk.inj results.2).2
    exact ⟨k, after, chosen, (full_slices k guarded .resume after enabled stepped rested 3 chosen busy).1⟩

/-- A process that yields after one tick is dispatched again with the rest of its slice. -/
theorem slice_left : ¬ ∀ k, Reachable .rr k → ∀ event after, k.Enabled event → step event k = .ok after →
    ∀ proc, scheduled k after = some proc → proc ≠ after.idleproc → after.rq.timeSlice proc = after.rq.maxTimeSlice := by
  intro full
  have reaches : ∃ k, Reachable .rr k ∧ k.Enabled .resume ∧ ((k.step .resume).toOption.map fun after =>
      (scheduled k after, decide (2 = after.idleproc), decide (after.rq.timeSlice 2 = after.rq.maxTimeSlice))) =
        some (some 2, false, false) :=
    @playFrom_reaches .rr [.resume, .initMain (granting 2), .resume, .userMain .loaded, .tick, .resume, .syscall .yield] _ _
      (by decide +kernel)
  obtain ⟨k, reached, enabled, outcome⟩ := reaches
  cases stepped : k.step .resume with
  | error halt =>
    rw [stepped] at outcome
    cases outcome
  | ok after =>
    rw [stepped] at outcome
    have results := Prod.mk.inj (Option.some.inj outcome)
    have others := Prod.mk.inj results.2
    exact absurd (full k reached .resume after enabled stepped 2 results.1 (of_decide_eq_false others.1))
      (of_decide_eq_false others.2)

end Kernel

end Ucore
