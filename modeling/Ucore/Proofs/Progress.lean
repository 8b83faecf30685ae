import Mathlib
import Ucore.Lib.Forest
import Ucore.Proofs.Family

/-! A process sleeps only as long as it has a child to wait for. So there is always a process
that can run, and the idle process never gets the processor back. -/

namespace Ucore.Kernel
open Lib ProcTable

variable {schedClass : SchedClass} {k middle after : Kernel} {old procs queue : List Ptr} {kids : Ptr → List Ptr} {proc init : Ptr}

/-- None of the processes `old` gets another parent, and none of them falls asleep or exits. -/
structure Awake (old : List Ptr) (k after : Kernel) : Prop where
  parent : ∀ proc ∈ old, after.table.parent proc = k.table.parent proc
  state : ∀ proc ∈ old, after.state proc = k.state proc ∨ after.state proc = .runnable

theorem Awake.alike (parent : after.table.parent = k.table.parent) (state : after.state = k.state) : Awake old k after :=
  ⟨fun proc _ => congrFun parent proc, fun proc _ => Or.inl (congrFun state proc)⟩

theorem Awake.refl : Awake old k k := .alike rfl rfl

theorem Awake.trans (first : Awake old k middle) (second : Awake old middle after) : Awake old k after := by
  refine ⟨fun proc member => (second.parent proc member).trans (first.parent proc member), ?_⟩
  intro proc member
  rcases second.state proc member with same | awake
  · rw [same]
    exact first.state proc member
  · exact Or.inr awake

theorem Awake.ahead (awake : Awake old k middle) (parent : after.table.parent = middle.table.parent) (state : after.state = middle.state) :
    Awake old k after :=
  awake.trans (.alike parent state)

theorem Awake.behind (awake : Awake old middle after) (parent : middle.table.parent = k.table.parent) (state : middle.state = k.state) :
    Awake old k after :=
  (Awake.alike parent state).trans awake

section Operations

theorem schedClassEnqueue_same (done : k.schedClassEnqueue proc = .ok after) : after.table = k.table ∧ after.state = k.state := by
  rw [schedClassEnqueue] at done
  split at done
  · obtain ⟨rq, -, rest⟩ := bind_ok done
    cases rest
    exact ⟨rfl, rfl⟩
  · cases done
    exact ⟨rfl, rfl⟩

theorem wakeupProc_awake (done : wakeupProc proc k = .ok after) : after.table = k.table ∧ Awake old k after := by
  have woken : Awake old k ((k.setState proc .runnable).setWaitState proc 0) := by
    refine ⟨fun _ _ => rfl, ?_⟩
    intro other _
    by_cases same : other = proc
    · exact Or.inr (same ▸ Function.update_self _ _ _)
    · exact Or.inl (Function.update_of_ne same _ _)
  obtain ⟨_, -, rest⟩ := bind_ok done
  split at rest
  · dsimp only at rest
    split at rest
    · obtain ⟨table, state⟩ := schedClassEnqueue_same rest
      exact ⟨table, woken.trans (.alike (congrArg ProcTable.parent table) state)⟩
    · cases rest
      exact ⟨rfl, woken⟩
  · cases rest
    exact ⟨rfl, .alike rfl rfl⟩

theorem wakeIf_awake {condition : Prop} [Decidable condition] (done : onlyIf condition (wakeupProc proc) k = .ok after) :
    after.table = k.table ∧ Awake old k after := by
  rw [onlyIf] at done
  split at done
  · exact wakeupProc_awake done
  · cases done
    exact ⟨rfl, .refl⟩

theorem schedule_awake (done : schedule k = .ok after) : Awake old k after := by
  rw [schedule_eq] at done
  obtain ⟨turned, -, rest⟩ := bind_ok done
  cases rest
  exact .alike rfl rfl

theorem removeLinks_parent {table table' : ProcTable} (done : table.removeLinks proc = .ok table') : table'.parent = table.parent := by
  rw [removeLinks] at done
  dsimp only at done
  split at done
  · obtain ⟨middle, linked, rest⟩ := bind_ok done
    cases linked
    cases rest
    dsimp only
    split
    · rfl
    · rfl
  · obtain ⟨parent, -, rest⟩ := bind_ok done
    obtain ⟨middle, linked, rest⟩ := bind_ok rest
    cases linked
    cases rest
    dsimp only
    split
    · rfl
    · rfl

theorem reap_awake {codeStore : Nat} (done : k.reap proc codeStore = .ok after) : Awake old k after := by
  rw [reap] at done
  split at done
  · cases done
  · obtain ⟨table, removed, rest⟩ := bind_ok done
    cases rest
    have parents := removeLinks_parent removed
    split at parents
    · exact .alike (by split; exact parents; exact parents) (by split; rfl; rfl)
    · exact .alike (by split; exact parents; exact parents) (by split; rfl; rfl)

theorem schedClassProcTick_same (proc : Ptr) (k : Kernel) :
    (k.schedClassProcTick proc).table = k.table ∧ (k.schedClassProcTick proc).state = k.state := by
  rw [schedClassProcTick]
  split
  · dsimp only
    split
    · exact ⟨rfl, rfl⟩
    · exact ⟨rfl, rfl⟩
  · exact ⟨rfl, rfl⟩

theorem doKill_awake {pid result : Int} (done : doKill pid k = .ok (result, after)) : Awake old k after := by
  rw [doKill] at done
  obtain ⟨found, -, rest⟩ := bind_ok done
  cases found with
  | none =>
    cases rest
    exact .refl
  | some proc =>
    dsimp only at rest
    split at rest
    · obtain ⟨woken, woke, rest⟩ := bind_ok rest
      cases rest
      exact (wakeIf_awake woke).2.behind rfl rfl
    · cases rest
      exact .refl

end Operations

/-- `proc` sleeps in a `do_wait`, and `child` is a child that it waits for. -/
def Awaits (k : Kernel) (proc child : Ptr) : Prop :=
  ∃ pid codeStore caller, k.loc proc = .waiting pid codeStore caller ∧ k.Matches pid child ∧ k.Live child ∧ k.table.parent child = some proc

/-- What a step does to the parents and to the sleep of processes: only the children of the running process may get
another parent, and it falls asleep only if it has a child to wait for. -/
structure Settles (k after : Kernel) : Prop where
  parent : ∀ proc ∈ k.allocated, k.table.parent proc ≠ some k.current → after.table.parent proc = k.table.parent proc
  sleeps : after.state k.current = .sleeping → ∃ child, after.Awaits k.current child

theorem Awake.settles (awake : Awake k.allocated k after) (live : k.current ∈ k.allocated) (runnable : k.state k.current = .runnable) :
    Settles k after := by
  refine ⟨fun proc member _ => awake.parent proc member, fun asleep => ?_⟩
  rcases awake.state k.current live with same | awake
  · exact absurd ((asleep.symm.trans same).trans runnable) (by decide)
  · exact absurd (asleep.symm.trans awake) (by decide)

theorem Invariant.currentLive (inv : k.Invariant procs kids queue init) : k.current ∈ k.allocated :=
  inv.stable.live.mem_iff.mpr inv.stable.current

theorem Awake.keeps (awake : Awake k.allocated k after) (inv : k.Invariant procs kids queue init) : Settles k after :=
  awake.settles inv.currentLive inv.runnable

theorem Invariant.stays (inv : k.Invariant procs kids queue init) (parent : after.table.parent = k.table.parent)
    (state : after.state = k.state) : Settles k after :=
  (Awake.alike parent state).keeps inv

section Exit

theorem giveChild_parent (giver proc parent : Ptr) (table : ProcTable) :
    (table.giveChild giver proc parent).parent = Function.update table.parent proc (some parent) := by
  simp only [giveChild, setCptr, setYptr, setOptr, setParent]
  split
  · rfl
  · rfl

theorem reparent_parent {rest : List Ptr} (orphaning : k.Orphaning procs kids queue init) (left : kids k.current = rest) {fuel : Nat}
    (done : reparent fuel k = .ok after) (strange : k.table.parent proc ≠ some k.current) :
    after.table.parent proc = k.table.parent proc := by
  have source := List.mem_cons_of_mem k.idleproc orphaning.gone.1
  induction rest generalizing k kids queue fuel with
  | nil =>
    cases fuel with
    | zero => cases done
    | succ fuel =>
      have none : k.table.cptr k.current = none := by
        rw [orphaning.tree.eldest _ source, left]
        rfl
      rw [reparent, none] at done
      cases done
      rfl
  | cons child rest ih =>
    cases fuel with
    | zero => cases done
    | succ fuel =>
      have first : k.table.cptr k.current = some child := by
        rw [orphaning.tree.eldest _ source, left]
        rfl
      have own : k.table.parent child = some k.current :=
        ((orphaning.tree.family _ source child).mp (left ▸ List.mem_cons_self)).2
      have apart : proc ≠ child := by
        rintro rfl
        exact strange own
      obtain ⟨middle, queue₁, woken, orphaning₁, round⟩ := reparent_round orphaning left
      rw [reparent, first] at done
      obtain ⟨target, reached, done⟩ := bind_ok done
      rw [orphaning.initproc] at reached
      cases reached
      dsimp only at done
      rw [woken, ok_bind] at done
      have current : middle.current = k.current := by
        obtain ⟨table, -, (⟨rfl, -⟩ | ⟨rq, -, -, rfl, -⟩)⟩ := round
        · rfl
        · rfl
      have given : middle.table.parent = Function.update k.table.parent child (some init) := by
        have kept : middle.table = k.table.giveChild k.current child init ∧ Awake [] _ middle := wakeIf_awake woken
        rw [kept.1]
        exact giveChild_parent k.current child init k.table
      have same : middle.table.parent proc = k.table.parent proc := by
        rw [given, Function.update_of_ne apart]
      have sourceKids : Function.update (Function.update kids k.current rest) init (child :: kids init) middle.current = rest := by
        rw [current, Function.update_of_ne orphaning.initLive.2.1.symm, Function.update_self]
      rw [← same]
      refine ih orphaning₁ sourceKids done ?_ ?_
      · rw [same, current]
        exact strange
      · exact List.mem_cons_of_mem _ orphaning₁.gone.1

theorem doExit_settles {code : Int} (inv : k.Invariant procs kids queue init) (done : doExit code k = .ok after) : Settles k after := by
  have whole := done
  rw [doExit] at done
  split at done
  · cases done
  split at done
  · cases done
  rename_i busy other
  have notInit : k.current ≠ init := by
    rintro rfl
    exact other inv.stable.initproc.symm
  obtain ⟨_, _, _, exits, -, gone⟩ : ∃ after kids' queue', doExit code k = .ok after ∧
      Moves k after none none procs kids' queue queue' init ∧ after.state k.current = .zombie := doExit_spec inv busy notInit code
  cases Except.ok.inj (whole.symm.trans exits)
  refine ⟨?_, fun asleep => absurd (asleep.symm.trans gone) (by decide)⟩
  intro proc member strange
  obtain ⟨⟨core, -, -, initproc, initLive, initOnly, current⟩, runnable⟩ := inv
  have source : k.current ∈ procs := (List.mem_cons.mp current).resolve_left busy
  have family := core.table.tree.family k.idleproc List.mem_cons_self
  have initTop : k.table.parent init = some k.idleproc := ((family init).mp (initOnly ▸ List.mem_singleton_self init)).2
  obtain ⟨parent, parentIn, up⟩ := core.table.tree.parent_live core.table.indexed.root source
  have parentLive : parent ∈ procs := by
    refine (List.mem_cons.mp parentIn).resolve_left ?_
    rintro rfl
    have below := (family k.current).mpr ⟨source, up⟩
    rw [initOnly, List.mem_singleton] at below
    exact notInit below
  obtain ⟨marked, woken, woke, orphaning, -, -, aside, table, -⟩ :=
    mark_spec code core initproc initLive initTop source runnable notInit up parentLive
  obtain ⟨parent', reached, done⟩ := bind_ok done
  have same : deref (k.table.parent k.current) = .ok parent' := reached
  rw [up] at same
  cases same
  obtain ⟨first, woke', done⟩ := bind_ok done
  cases Except.ok.inj (woke'.symm.trans woke)
  obtain ⟨second, looped, done⟩ := bind_ok done
  have scheduled : Awake [proc] _ after := schedule_awake done
  have strange' : marked.table.parent proc ≠ some marked.current := by
    rw [table, aside.current]
    exact strange
  have given : second.table.parent proc = marked.table.parent proc := reparent_parent orphaning rfl looped strange'
  rw [scheduled.parent proc List.mem_cons_self, ← table, ← given]
  rfl

end Exit

section Wait

variable {pid : Int} {codeStore : Nat} {caller : WaitCaller}

theorem waitSearch_child (core : k.Core procs kids queue) (live : k.current ∈ k.idleproc :: procs)
    (searched : k.waitSearch pid = .ok (true, none)) : ∃ child ∈ kids k.current, k.Matches pid child := by
  have tree := core.table.tree
  rw [waitSearch] at searched
  split at searched
  · rename_i given
    obtain ⟨found, known, hit⟩ := findProc_spec core.table.indexed pid
    rw [known, ok_bind] at searched
    cases found with
    | none => cases searched
    | some child =>
      dsimp only at searched
      split at searched
      · rename_i own
        obtain ⟨member, same⟩ := (hit child).mp rfl
        exact ⟨child, (tree.family _ live child).mpr ⟨member, own⟩, Or.inr same⟩
      · cases searched
  · rename_i any
    have few : (kids k.current).length ≤ maxProcess := by
      have within : (kids k.current).length ≤ procs.length :=
        ((tree.distinct _ live).subperm (fun child below => tree.kids_member live below)).length_le
      exact within.trans (Nat.le_of_lt core.table.indexed.room)
    obtain ⟨haskid, found, scanned, kid, -⟩ := waitScan_spec (tree.older _ live) maxProcess few false
    rw [tree.eldest _ live, scanned] at searched
    obtain ⟨rfl, -⟩ := Prod.mk.inj (Except.ok.inj searched)
    obtain ⟨child, inside⟩ := List.exists_mem_of_ne_nil _ ((kid.mp rfl).resolve_left (by decide))
    exact ⟨child, inside, Or.inl (not_not.mp any)⟩

theorem waitRepeat_settles (inv : k.Invariant procs kids queue init) (suits : k.Suits init (.waiting pid codeStore caller))
    (done : k.waitRepeat pid codeStore caller = .ok after) : Settles k after := by
  rw [waitRepeat] at done
  obtain ⟨⟨haskid, found⟩, searched, rest⟩ := bind_ok done
  cases found with
  | some proc =>
    obtain ⟨reaped, freed, rest⟩ := bind_ok rest
    refine (Awake.trans (reap_awake freed) ?_).keeps inv
    cases caller with
    | sysWait =>
      cases rest
      exact .alike rfl rfl
    | initMain =>
      rw [waitReturn, if_pos rfl] at rest
      exact (schedule_awake rest).behind rfl rfl
  | none =>
    dsimp only at rest
    split at rest
    · rename_i some
      rw [some] at searched
      obtain ⟨child, below, matched⟩ := waitSearch_child inv.stable.core inv.stable.current searched
      obtain ⟨member, own⟩ := (inv.stable.core.table.tree.family _ inv.stable.current child).mp below
      rw [schedule_eq] at rest
      obtain ⟨turned, -, rest⟩ := bind_ok rest
      cases rest
      refine ⟨fun _ _ _ => rfl, fun _ => ⟨child, pid, codeStore, caller, Function.update_self _ _ _, matched, ?_, own⟩⟩
      exact inv.stable.live.mem_iff.mpr (List.mem_cons_of_mem _ member)
    · cases caller with
      | sysWait =>
        cases rest
        exact inv.stays rfl rfl
      | initMain =>
        rw [waitReturn, if_neg (by decide), initMainEnd] at rest
        obtain ⟨_, -, rest⟩ := bind_ok rest
        obtain ⟨_, -, rest⟩ := bind_ok rest
        obtain ⟨_, -, rest⟩ := bind_ok rest
        obtain ⟨_, -, rest⟩ := bind_ok rest
        obtain ⟨_, -, rest⟩ := bind_ok rest
        have noted : (k.record (.waited (k.serial k.current) (-eBadProc))).Invariant procs kids queue init :=
          inv.alike ⟨rfl, rfl, ⟨_, _, rfl⟩, rfl, rfl, rfl, rfl, rfl, rfl, rfl⟩
        have settles := doExit_settles noted rest
        exact ⟨settles.parent, settles.sleeps⟩

end Wait

section Step

theorem doFork_awake {entry : Loc} {answers : ForkAnswers} {result : Int} (inv : k.Invariant procs kids queue init)
    (granted : k.Grants answers) (done : doFork entry answers k = .ok (result, after)) : Awake k.allocated k after := by
  have live := inv.stable.live
  have fresh : ∀ proc, proc ∉ k.allocated → proc ∉ k.idleproc :: procs := fun proc new inside => new (live.mem_iff.mpr inside)
  obtain ⟨_, _, _, _, _, forked, made, -⟩ := doFork_spec entry inv.stable.core fresh granted inv.stable.current inv.runnable
  obtain ⟨rfl, rfl⟩ := Prod.mk.inj (Except.ok.inj (done.symm.trans forked))
  refine ⟨?_, fun proc member => Or.inl (made.frame.old proc member).1⟩
  intro proc member
  cases made with
  | refused => rfl
  | @abandoned child _ unused =>
    have apart := ne_of_mem_of_not_mem member unused
    exact (Function.update_of_ne apart _ _).trans (Function.update_of_ne apart _ _)
  | @born child _ _ unused _ _ _ parents =>
    exact (congrFun parents proc).trans (Function.update_of_ne (ne_of_mem_of_not_mem member unused) _ _)

theorem doExecve_settles {outcome : ExecOutcome} (inv : k.Invariant procs kids queue init) (done : doExecve outcome k = .ok after) :
    Settles k after := by
  cases outcome with
  | invalid | loaded =>
    cases done
    exact inv.stays rfl rfl
  | failed error => exact doExit_settles inv done

theorem syscall_settles {call : Syscall} (inv : k.Invariant procs kids queue init) (here : k.loc k.current = .trapDispatched)
    (granted : ∀ answers, call = .fork answers → k.Grants answers) (done : syscall call k = .ok after) : Settles k after := by
  have user : UserLoc (k.loc k.current) := by
    rw [here]
    trivial
  cases call with
  | exit code => exact doExit_settles inv done
  | fork answers =>
    obtain ⟨⟨result, forked⟩, made, rest⟩ := bind_ok done
    cases rest
    refine Awake.keeps (.ahead (doFork_awake inv (granted answers rfl) made) rfl rfl) inv
  | wait pid codeStore valid =>
    rw [syscall, doWait] at done
    split at done
    · cases done
      exact inv.stays rfl rfl
    · exact waitRepeat_settles inv (inv.suitsUser user rfl fun same => by cases same) done
  | exec outcome => exact doExecve_settles inv done
  | kill pid =>
    obtain ⟨⟨result, killed⟩, marked, rest⟩ := bind_ok done
    cases rest
    refine Awake.keeps (.ahead (doKill_awake marked) rfl rfl) inv
  | yield | setPriority | plain =>
    cases done
    exact inv.stays rfl rfl
  | undefined => cases done

theorem resume_settles (inv : k.Invariant procs kids queue init) (done : resume k = .ok after) : Settles k after := by
  have stays : ∀ loc, Settles k (k.setLoc k.current loc) := fun _ => inv.stays rfl rfl
  rw [resume] at done
  cases place : k.loc k.current with
  | cpuIdle =>
    rw [place] at done
    dsimp only at done
    split at done
    · exact (schedule_awake done).keeps inv
    · cases done
      exact Awake.refl.keeps inv
  | initLoop =>
    rw [place] at done
    have first : InitLoc (k.loc k.current) := by
      rw [place]
      trivial
    exact waitRepeat_settles inv (inv.suitsInit first ⟨rfl, rfl, rfl⟩) done
  | trapDispatched =>
    rw [place] at done
    dsimp only at done
    rw [trapEnd] at done
    split at done
    · exact doExit_settles inv done
    split at done
    · refine Awake.keeps (.behind (schedule_awake done) rfl rfl) inv
    · cases done
      exact stays _
  | waiting pid codeStore caller =>
    rw [place] at done
    dsimp only at done
    split at done
    · exact doExit_settles inv done
    · exact waitRepeat_settles inv (inv.suitsHere place) done
  | forkret | trapScheduled =>
    rw [place] at done
    cases done
    exact stays _
  | exited =>
    rw [place] at done
    cases done
  | initMain | userMain | user =>
    rw [place] at done
    cases done
    exact Awake.refl.keeps inv

theorem step_settles {event : Event} (inv : k.Invariant procs kids queue init) (enabled : k.Enabled event)
    (done : step event k = .ok after) : Settles k after := by
  have placed : k.loc k.current = .user → (k.setLoc k.current .trapDispatched).Invariant procs kids queue init := by
    intro here
    have user : UserLoc (k.loc k.current) := by
      rw [here]
      trivial
    exact inv.setLoc (inv.suitsUser user trivial (by decide))
  have traps : ∀ call, k.loc k.current = .user → (∀ answers, call = .fork answers → k.Grants answers) →
      step (.syscall call) k = .ok after → Settles k after := by
    intro call here granted done
    have settles := syscall_settles (placed here) (Function.update_self _ _ _) granted done
    exact ⟨settles.parent, settles.sleeps⟩
  cases event with
  | tick =>
    rw [step] at done
    split at done
    · cases done
      obtain ⟨table, state⟩ := schedClassProcTick_same k.current (k.setLoc k.current .trapDispatched)
      exact inv.stays (congrArg ProcTable.parent table) state
    · cases done
      obtain ⟨table, state⟩ := schedClassProcTick_same k.current k
      exact inv.stays (congrArg ProcTable.parent table) state
  | exception misalignedStore =>
    rw [step] at done
    split at done
    · cases done
    · cases done
      exact inv.stays rfl rfl
  | syscall call =>
    cases call with
    | fork answers =>
      refine traps _ enabled.1 ?_ done
      intro answers' same
      cases same
      exact enabled.2
    | exit | wait | exec | yield | kill | setPriority | plain | undefined =>
      exact traps _ enabled (fun _ same => by cases same) done
  | initMain answers =>
    rw [step, initMain] at done
    obtain ⟨⟨pid, forked⟩, made, rest⟩ := bind_ok done
    dsimp only at rest
    split at rest
    · cases rest
    · cases rest
      refine Awake.keeps (.ahead (doFork_awake inv enabled.2 made) rfl rfl) inv
  | userMain outcome =>
    have user : UserLoc (k.loc k.current) := by
      rw [enabled.1]
      trivial
    have suits : k.Suits init .user := inv.suitsUser user trivial (by decide)
    have settles := doExecve_settles (inv.setLoc suits) done
    exact ⟨settles.parent, settles.sleeps⟩
  | resume => exact resume_settles inv done

end Step

theorem Moves.awaits {killed : Option Ptr} {asked : Option (Int × Nat)} {procs' queue' : List Ptr} {kids' : Ptr → List Ptr}
    (moves : Moves k after killed asked procs' kids' queue queue' init) (settles : Settles k after)
    (waits : ∀ proc, k.Live proc → k.state proc = .sleeping → ∃ child, k.Awaits proc child) (live : after.Live proc)
    (asleep : after.state proc = .sleeping) : ∃ child, after.Awaits proc child := by
  rcases moves.life.before live with before | ⟨-, runnable, -⟩
  · by_cases own : proc = k.current
    · rw [own]
      rw [own] at asleep
      exact settles.sleeps asleep
    · have slept : k.state proc = .sleeping := by
        rcases moves.frame.state proc before own with same | ⟨asleep, -⟩
        · exact same.symm.trans asleep
        · exact asleep
      obtain ⟨child, pid, codeStore, caller, here, matched, present, below⟩ := waits proc before slept
      have foreign : k.table.parent child ≠ some k.current := by
        rw [below]
        exact fun same => own (Option.some.inj same)
      refine ⟨child, pid, codeStore, caller, (moves.frame.loc proc before own).trans here, ?_, ?_, ?_⟩
      · rw [Matches, moves.frame.pid child present]
        exact matched
      · cases moves.life with
        | steady allocated | exit _ allocated =>
          rw [Live, allocated]
          exact present
        | fork _ _ allocated =>
          rw [Live, allocated]
          exact List.mem_cons_of_mem _ present
        | reap _ _ gone _ _ up _ _ allocated =>
          have apart : child ≠ gone := by
            rintro rfl
            exact foreign up
          rw [Live, allocated]
          exact (List.mem_erase_of_ne apart).mpr present
      · exact (settles.parent child present foreign).trans below
  · exact absurd (asleep.symm.trans runnable) (by decide)

theorem Reachable.awaits (reached : Reachable schedClass k) :
    ∀ proc, k.Live proc → k.state proc = .sleeping → ∃ child, k.Awaits proc child := by
  induction reached with
  | boot granted booted =>
    obtain ⟨init, allocated, -, -, -, -, -, -, -, -, idleAwake, initAwake⟩ := booted_spec granted booted
    intro proc live asleep
    rw [Live, allocated] at live
    rcases List.mem_cons.mp live with rfl | idle
    · exact absurd (asleep.symm.trans initAwake) (by decide)
    · rw [List.mem_singleton.mp idle] at asleep
      exact absurd (asleep.symm.trans idleAwake) (by decide)
  | step reached enabled stepped ih =>
    obtain ⟨procs, kids, queue, init, inv⟩ := reached.invariant
    rcases step_ends inv enabled with ⟨after, procs', kids', queue', done, moves⟩ | ⟨halt, -, done⟩
    · cases Except.ok.inj (done.symm.trans stepped)
      exact fun proc live asleep => moves.awaits (step_settles inv enabled done) ih live asleep
    · cases done.symm.trans stepped

/-- `child` is live, and `parent` is its parent. -/
def Below (k : Kernel) (child parent : Ptr) : Prop := k.Live child ∧ k.table.parent child = some parent

theorem Family.forest (family : k.Family procs kids) (top : k.table.parent k.idleproc = none) : Forest k.Below k.idleproc k.allocated where
  single _ _ _ first second := Option.some.inj (first.2.symm.trans second.2)
  top parent edge := by
    have absurd := edge.2
    rw [top] at absurd
    cases absurd
  climbs node live := family.rooted node live

private theorem Reachable.runs_or_awaits (reached : Reachable schedClass k) (live : k.Live proc) (alive : k.state proc ≠ .zombie) :
    k.state proc = .runnable ∨ k.state proc = .sleeping ∧ ∃ child, k.Awaits proc child ∧ k.state child ≠ .zombie := by
  obtain ⟨procs, kids, queue, init, inv⟩ := reached.invariant
  have core := inv.stable.core
  by_cases idle : proc = k.idleproc
  · exact Or.inl (idle ▸ core.slept.idle.1)
  · have member : proc ∈ procs := inv.live_iff.mp ⟨live, idle⟩
    by_cases asleep : k.state proc = .sleeping
    · obtain ⟨child, awaits⟩ := reached.awaits proc live asleep
      obtain ⟨pid, codeStore, caller, here, matched, present, below⟩ := id awaits
      obtain ⟨_, _, _, there, none⟩ := core.waits.waiting proc member asleep
      cases here.symm.trans there
      have apart : child ≠ k.idleproc := by
        rintro rfl
        rw [core.table.tree.top] at below
        cases below
      have inside : child ∈ kids proc :=
        (core.table.tree.family proc (List.mem_cons_of_mem _ member) child).mpr ⟨inv.live_iff.mp ⟨present, apart⟩, below⟩
      exact Or.inr ⟨asleep, child, awaits, none child inside matched⟩
    · cases place : k.state proc with
      | uninit => exact absurd place (core.slept.born proc member)
      | sleeping => exact absurd place asleep
      | runnable => exact Or.inl rfl
      | zombie => exact absurd place alive

private theorem Reachable.worker (reached : Reachable schedClass k) (live : k.Live proc) (alive : k.state proc ≠ .zombie) :
    ∃ worker, k.Live worker ∧ Relation.ReflTransGen k.Below worker proc ∧ k.state worker = .runnable := by
  obtain ⟨procs, kids, queue, init, inv⟩ := reached.invariant
  have forest := inv.family.forest inv.stable.core.table.tree.top
  have down : ∀ node ∈ k.allocated, k.state node ≠ .zombie →
      k.state node = .runnable ∨ ∃ child ∈ k.allocated, k.Below child node ∧ k.state child ≠ .zombie := by
    intro node member held
    rcases reached.runs_or_awaits member held with runnable | ⟨-, child, ⟨_, _, _, -, -, present, below⟩, kept⟩
    · exact Or.inl runnable
    · exact Or.inr ⟨child, present, ⟨present, below⟩, kept⟩
  exact forest.descend down live alive

private theorem Reachable.busy (reached : Reachable schedClass k) :
    ∃ worker, k.Live worker ∧ worker ≠ k.idleproc ∧ k.state worker = .runnable := by
  obtain ⟨procs, kids, queue, init, inv⟩ := reached.invariant
  obtain ⟨live, notIdle⟩ := inv.live_iff.mpr inv.stable.initLive.1
  obtain ⟨worker, present, path, runnable⟩ := reached.worker live inv.stable.initLive.2
  refine ⟨worker, present, ?_, runnable⟩
  rintro rfl
  rcases Relation.ReflTransGen.cases_head path with rfl | ⟨parent, edge, -⟩
  · exact notIdle rfl
  · have none := edge.2
    rw [inv.stable.core.table.tree.top] at none
    cases none

/-- In every state that is reached a process that sleeps has a child it waits for that has not exited, so below every
process that has not exited there is a runnable one. One of those that are not idle can always run, and the idle process
has never been dispatched. -/
theorem no_deadlock (schedClass : SchedClass) : ∀ k, Reachable schedClass k →
    (∀ proc, k.Live proc → k.state proc = .sleeping → ∃ child, k.Awaits proc child ∧ k.state child ≠ .zombie) ∧
    (∀ proc, k.Live proc → k.state proc ≠ .zombie →
      ∃ worker, k.Live worker ∧ Relation.ReflTransGen k.Below worker proc ∧ k.state worker = .runnable) ∧
    (∃ worker, k.Live worker ∧ worker ≠ k.idleproc ∧ k.state worker = .runnable) ∧ k.runs k.idleproc = 0 := by
  intro k reached
  refine ⟨?_, fun proc live alive => reached.worker live alive, reached.busy, ?_⟩
  · intro proc live asleep
    have alive : k.state proc ≠ .zombie := by
      rw [asleep]
      exact ProcState.sleeping_alive
    rcases reached.runs_or_awaits live alive with runnable | ⟨-, waits⟩
    · exact absurd (asleep.symm.trans runnable) (by decide)
    · exact waits
  · induction reached with
    | @boot memory k idle answers granted booted =>
      rcases boot_spec granted with ⟨init, after, kids, done, forked, -⟩ | failed
      · cases Except.ok.inj (done.symm.trans booted)
        have counted := (forked.frame.old idle List.mem_cons_self).2.2.2.1
        have root : after.idleproc = idle := forked.frame.idleproc
        change after.runs after.idleproc = 0
        rw [root, counted]
        exact Function.update_self _ _ _
      · cases failed.symm.trans booted
    | step reached enabled stepped ih =>
      obtain ⟨_, _, _, _, _, _, _, _, moves⟩ := reached.moves enabled stepped
      obtain ⟨worker, live, notIdle, runnable⟩ := (reached.step enabled stepped).busy
      rw [moves.frame.idleproc] at notIdle
      rw [moves.frame.idleproc]
      by_contra counted
      exact moves.frame.idle (fun same => counted (same.trans ih)) worker live notIdle runnable

/-- `initproc` sleeps in `do_wait(0, NULL)` while its child runs. -/
theorem no_deadlock_user_main : ∃ k : Kernel, k.state 1 = .sleeping ∧ (∃ child, k.Awaits 1 child ∧ k.state child ≠ .zombie) ∧
    k.runs k.idleproc = 0 := by
  have reaches : ∃ k, Reachable .rr k ∧ k.allocated.contains 1 ∧ k.state 1 = .sleeping :=
    @playFrom_reaches .rr [.resume, .initMain (granting 2), .resume] _ _ (by decide +kernel)
  obtain ⟨k, reached, live, asleep⟩ := reaches
  obtain ⟨sleepers, -, -, idle⟩ := no_deadlock .rr k reached
  exact ⟨k, asleep, sleepers 1 (List.contains_iff_mem.mp live) asleep, idle⟩

end Ucore.Kernel
