import Mathlib
import Ucore.Proofs.Moves

/-! `do_wait`: the search for a child that has exited, its removal, the sleep
when there is none, and the end of `init_main` when there are no children left. -/

namespace Ucore.Kernel
open Lib RunQueue ProcTable

variable {k : Kernel} {procs queue : List Ptr} {kids : Ptr → List Ptr} {child init : Ptr} {asked : Option (Int × Nat)}

section Search

/-- The loop over the children stops at the first one that has exited. -/
theorem waitScan_spec {nodes : List Ptr} (forward : Forward k.table.optr nodes) (fuel : Nat) (enough : nodes.length ≤ fuel)
    (haskid : Bool) :
    ∃ some found, k.waitScan fuel nodes.head? haskid = .ok (some, found) ∧ (some = true ↔ haskid = true ∨ nodes ≠ []) ∧
      (∀ child ∈ found, child ∈ nodes ∧ k.state child = .zombie) ∧
      (found = none → ∀ child ∈ nodes, k.state child ≠ .zombie) := by
  induction nodes generalizing fuel haskid with
  | nil =>
    refine ⟨haskid, none, by cases fuel <;> rfl, by simp, fun _ top => (nomatch top), ?_⟩
    exact fun _ child inside => absurd inside List.not_mem_nil
  | cons child nodes ih =>
    cases fuel with
    | zero => exact absurd enough (by simp)
    | succ fuel =>
      rw [List.head?_cons, waitScan]
      by_cases exited : k.state child = .zombie
      · rw [if_pos exited]
        refine ⟨true, some child, rfl, by simp, ?_, fun none => (nomatch none)⟩
        intro other top
        cases top
        exact ⟨List.mem_cons_self, exited⟩
      · rw [if_neg exited, forward.1]
        obtain ⟨haskid', found, scanned, kid, hit, miss⟩ := ih forward.2 fuel (Nat.le_of_succ_le_succ enough) true
        refine ⟨haskid', found, scanned, by simp [kid], ?_, ?_⟩
        · exact fun other top => ⟨List.mem_cons_of_mem _ (hit other top).1, (hit other top).2⟩
        · intro none other inside
          rcases List.mem_cons.mp inside with rfl | inside
          · exact exited
          · exact miss none other inside

/-- `do_wait` finds a child that has exited if it waits for one. -/
theorem waitSearch_spec (core : k.Core procs kids queue) (live : k.current ∈ k.idleproc :: procs) (pid : Int) :
    ∃ haskid found, k.waitSearch pid = .ok (haskid, found) ∧
      (∀ child ∈ found, child ∈ kids k.current ∧ k.Matches pid child ∧ k.state child = .zombie) ∧
      (found = none → ∀ child ∈ kids k.current, k.Matches pid child → k.state child ≠ .zombie) ∧
      (haskid = false → found = none ∧ ∀ child ∈ kids k.current, ¬ k.Matches pid child) := by
  have tree := core.table.tree
  rw [waitSearch]
  by_cases any : pid = 0
  · rw [if_neg (not_not.mpr any), tree.eldest _ live]
    have few : (kids k.current).length ≤ maxProcess := by
      have within : (kids k.current).length ≤ procs.length :=
        ((tree.distinct _ live).subperm (fun child below => tree.kids_member live below)).length_le
      exact within.trans (Nat.le_of_lt core.table.indexed.room)
    obtain ⟨haskid, found, scanned, kid, hit, miss⟩ := waitScan_spec (tree.older _ live) maxProcess few false
    refine ⟨haskid, found, scanned, fun child top => ⟨(hit child top).1, Or.inl any, (hit child top).2⟩,
      fun none child below _ => miss none child below, ?_⟩
    rintro rfl
    have empty : kids k.current = [] := by simpa using kid
    refine ⟨?_, fun child below => absurd (empty ▸ below) List.not_mem_nil⟩
    cases found with
    | none => rfl
    | some child => exact absurd (empty ▸ (hit child rfl).1) List.not_mem_nil
  · rw [if_pos any]
    obtain ⟨found, searched, hit⟩ := findProc_spec core.table.indexed pid
    have family := tree.family k.current live
    have matched : ∀ child ∈ kids k.current, k.Matches pid child → found = some child := fun child below same =>
      (hit child).mpr ⟨tree.kids_member live below, same.resolve_left any⟩
    rw [searched, ok_bind]
    cases found with
    | none =>
      have nobody : ∀ child ∈ kids k.current, ¬ k.Matches pid child := fun child below same => nomatch matched child below same
      exact ⟨false, none, rfl, fun _ top => (nomatch top), fun _ child below same => absurd same (nobody child below),
        fun _ => ⟨rfl, nobody⟩⟩
    | some proc =>
      dsimp only
      by_cases own : k.table.parent proc = some k.current
      · rw [if_pos own]
        refine ⟨true, _, rfl, ?_, ?_, fun none => (nomatch none)⟩
        · intro child top
          by_cases exited : k.state proc = .zombie
          · rw [if_pos exited] at top
            cases top
            exact ⟨(family proc).mpr ⟨((hit proc).mp rfl).1, own⟩, Or.inr ((hit proc).mp rfl).2, exited⟩
          · rw [if_neg exited] at top
            cases top
        · intro none child below same exited
          cases matched child below same
          rw [if_pos exited] at none
          cases none
      · rw [if_neg own]
        have nobody : ∀ child ∈ kids k.current, ¬ k.Matches pid child := by
          intro child below same
          cases matched child below same
          exact own ((family proc).mp below).2
        exact ⟨false, none, rfl, fun _ top => (nomatch top), fun _ child below same => absurd same (nobody child below),
          fun _ => ⟨rfl, nobody⟩⟩

end Search

section Reap

/-- `k` after the label `found` of `do_wait`. -/
def collected (k : Kernel) (child : Ptr) (codeStore : Nat) (table : ProcTable) : Kernel :=
  { k with
    table := table
    allocated := k.allocated.erase child
    history := k.collection child codeStore ++ k.history }

private theorem reap_eq (busy : child ≠ k.idleproc) (notInit : k.initproc ≠ some child) (codeStore : Nat) :
    k.reap child codeStore = (k.table.unhashProc child).removeLinks child >>= fun table => .ok (k.collected child codeStore table) := by
  rw [reap, if_neg]
  · by_cases null : codeStore = 0
    · simp only [null, ne_eq, not_true, if_false, collected, collection, record, kfree]
      rfl
    · simp only [null, ne_eq, not_false_eq_true, if_true, collected, collection, record, kfree]
      rfl
  · rintro (same | same)
    · exact busy same
    · exact notInit same.symm

/-- A child that has exited is removed. -/
theorem reap_spec (inv : k.Invariant procs kids queue init) (busy : k.current ≠ k.idleproc) (below : child ∈ kids k.current)
    (exited : k.state child = .zombie) (codeStore : Nat) :
    ∃ table, k.reap child codeStore = .ok (k.collected child codeStore table) ∧ table.pid = k.table.pid ∧
      (k.collected child codeStore table).Invariant (procs.erase child)
        (Function.update kids k.current ((kids k.current).erase child)) queue init := by
  obtain ⟨⟨⟨table, queued, slept, waits⟩, live, located, initproc, initLive, initOnly, current⟩, runnable⟩ := inv
  have member := table.tree.kids_member current below
  have up := ((table.tree.family _ current child).mp below).2
  have distinct := table.indexed.distinct
  have childBusy : child ≠ k.idleproc := ne_of_mem_of_not_mem member table.indexed.root
  have alive : ∀ other, k.state other ≠ .zombie → other ≠ child := by
    rintro other alive rfl
    exact alive exited
  have currentAway : k.current ≠ child := alive k.current (by rw [runnable]; exact ProcState.runnable_alive)
  have childless := waits.barren child member exited
  obtain ⟨after, removed, consistent, pids, parents⟩ := table.dismiss member childless current up
  have kept : ∀ other ∈ procs.erase child, other ∈ procs := fun other inside => List.mem_of_mem_erase inside
  have otherKids : ∀ other, other ≠ k.current → Function.update kids k.current ((kids k.current).erase child) other = kids other :=
    fun other away => Function.update_of_ne away _ _
  refine ⟨after, ?_, pids, ⟨⟨⟨consistent, ⟨queued.holds, ?_, ?_⟩, ⟨slept.idle, ?_, ?_, ?_⟩, ⟨?_, ?_⟩⟩, ?_, ⟨located.idle,
    located.first, ?_, ?_⟩, initproc, ⟨?_, initLive.2⟩, ?_, ?_⟩, runnable⟩⟩
  · rw [reap_eq childBusy, removed]
    · rfl
    · rw [initproc]
      exact fun same => alive init initLive.2 (Option.some.inj same)
  · intro other
    rw [queued.members other, distinct.mem_erase_iff]
    constructor
    · exact fun ⟨inside, awake, away⟩ => ⟨⟨alive other (by rw [awake]; exact ProcState.runnable_alive), inside⟩, awake, away⟩
    · exact fun ⟨⟨_, inside⟩, awake, away⟩ => ⟨inside, awake, away⟩
  · exact fun other inside outside => queued.detached other (kept other inside) outside
  · exact fun other inside => slept.born other (kept other inside)
  · exact fun other inside => slept.asleep other (kept other inside)
  · exact fun other inside => slept.awake other (kept other inside)
  · intro other inside asleep
    have away : other ≠ k.current := by
      rintro rfl
      exact absurd (asleep.symm.trans runnable) (by decide)
    rw [otherKids other away]
    obtain ⟨pid, codeStore, caller, loc, none⟩ := waits.waiting other (kept other inside) asleep
    refine ⟨pid, codeStore, caller, loc, fun inner held same => none inner held ?_⟩
    rw [Matches, show (k.collected child _ after).table.pid = k.table.pid from pids] at same
    exact same
  · intro other inside gone
    have away : other ≠ k.current := by
      rintro rfl
      exact absurd (gone.symm.trans runnable) (by decide)
    rw [otherKids other away]
    exact waits.barren other (kept other inside) gone
  · have erased := live.erase child
    rw [List.erase_cons_tail (by simpa using childBusy.symm)] at erased
    exact erased
  · exact fun other inside => located.user other (kept other inside)
  · exact fun other inside => located.exited other (kept other inside)
  · exact distinct.mem_erase_iff.mpr ⟨alive init initLive.2, initLive.1⟩
  · exact (otherKids _ busy.symm).trans initOnly
  · rcases List.mem_cons.mp current with idle | inside
    · exact absurd idle busy
    · exact List.mem_cons_of_mem _ (distinct.mem_erase_iff.mpr ⟨currentAway, inside⟩)

end Reap

/-- `k` when `do_wait` has to wait. -/
def asleep (k : Kernel) (pid : Int) (codeStore : Nat) (caller : WaitCaller) : Kernel :=
  ((k.setState k.current .sleeping).setWaitState k.current wtChild).setLoc k.current (.waiting pid codeStore caller)

/-- The current process goes to sleep while no child it waits for has exited. -/
theorem sleep_spec {pid : Int} {codeStore : Nat} {caller : WaitCaller} (inv : k.Invariant procs kids queue init)
    (suits : k.Suits init (.waiting pid codeStore caller))
    (nobody : ∀ child ∈ kids k.current, k.Matches pid child → k.state child ≠ .zombie) :
    ∃ next rq queue', schedule (k.asleep pid codeStore caller) = .ok ((k.asleep pid codeStore caller).switched next rq) ∧
      Moves k ((k.asleep pid codeStore caller).switched next rq) none asked procs kids queue queue' init := by
  obtain ⟨⟨⟨table, queued, slept, waits⟩, live, located, initproc, initLive, initOnly, current⟩, runnable⟩ := inv
  have own : (k.asleep pid codeStore caller).state k.current = .sleeping := Function.update_self _ _ _
  have states : ∀ other, other ≠ k.current → (k.asleep pid codeStore caller).state other = k.state other :=
    fun other away => Function.update_of_ne away _ _
  have waitStates : ∀ other, other ≠ k.current → (k.asleep pid codeStore caller).waitState other = k.waitState other :=
    fun other away => Function.update_of_ne away _ _
  have locs : ∀ other, other ≠ k.current → (k.asleep pid codeStore caller).loc other = k.loc other :=
    fun other away => Function.update_of_ne away _ _
  have none : ∀ child, k.state child ≠ .zombie → (k.asleep pid codeStore caller).state child ≠ .zombie := by
    intro child alive
    by_cases same : child = k.current
    · rw [same, own]
      exact ProcState.sleeping_alive
    · rwa [states child same]
  have stable : (k.asleep pid codeStore caller).Stable procs kids queue init := by
    refine ⟨⟨table, ⟨queued.holds, ?_, queued.detached⟩, ⟨?_, ?_, ?_, ?_⟩, ⟨?_, ?_⟩⟩, live, ?_, initproc,
      ⟨initLive.1, none init initLive.2⟩, initOnly, current⟩
    · intro other
      rw [queued.members other]
      refine and_congr_right (fun _ => ?_)
      by_cases same : other = k.current
      · exact ⟨fun both => absurd same both.2, fun both => absurd same both.2⟩
      · rw [states other same]
        rfl
    · exact ⟨(states _ suits.busy.symm).trans slept.idle.1, (waitStates _ suits.busy.symm).trans slept.idle.2⟩
    · intro other member
      by_cases same : other = k.current
      · rw [same, own]
        exact nofun
      · rw [states other same]
        exact slept.born other member
    · intro other member sleeping
      by_cases same : other = k.current
      · rw [same]
        exact Function.update_self _ _ _
      · rw [states other same] at sleeping
        exact (waitStates other same).trans (slept.asleep other member sleeping)
    · intro other member awake
      by_cases same : other = k.current
      · rw [same, own] at awake
        exact absurd rfl awake
      · rw [states other same] at awake
        exact (waitStates other same).trans (slept.awake other member awake)
    · intro other member sleeping
      by_cases same : other = k.current
      · rw [same]
        exact ⟨pid, codeStore, caller, Function.update_self _ _ _, fun child below held => none child (nobody child below held)⟩
      · rw [states other same] at sleeping
        obtain ⟨pid', codeStore', caller', loc, free⟩ := waits.waiting other member sleeping
        exact ⟨pid', codeStore', caller', (locs other same).trans loc, fun child below held => none child (free child below held)⟩
    · intro other member gone
      have away : other ≠ k.current := by
        rintro rfl
        rw [own] at gone
        cases gone
      rw [states other away] at gone
      exact waits.barren other member gone
    · have moved := located.setLoc suits
      refine ⟨moved.idle, moved.first, moved.user, ?_⟩
      intro other member gone
      have exited := moved.exited other member gone
      have away : other ≠ k.current := by
        rintro rfl
        exact absurd (exited.symm.trans runnable) (by decide)
      exact (states other away).trans exited
  obtain ⟨next, rq, turned, done, invariant, runs, free⟩ := stable.schedule
  have stopped : (k.asleep pid codeStore caller).running = .none := by
    rw [running, if_neg]
    rintro ⟨awake, -⟩
    rw [show (k.asleep pid codeStore caller).state (k.asleep pid codeStore caller).current = .sleeping from own] at awake
    cases awake
  rw [stopped] at turned invariant
  refine ⟨_, rq, _, done, invariant, ⟨rfl, rfl, rfl, fun proc _ away => locs proc away, fun proc _ away => Or.inl (states proc away),
    fun _ _ _ => rfl, fun _ _ _ => rfl, fun _ _ => rfl, fun _ _ => rfl, le_refl _, ?_⟩, .steady rfl ?_ (Or.inl rfl), .next ?_ rfl (fun _ live => live)⟩
  · exact switched_idle live runs free
  · rw [show ((k.asleep pid codeStore caller).switched _ rq).state k.current = .sleeping from own]
    exact ProcState.sleeping_alive
  · have held : Holds k.schedClass k.rq (queue ++ []) := by
      rw [List.append_nil]
      exact queued.holds
    refine .leave [] k.rq held (fun _ member => absurd member List.not_mem_nil) rfl ?_ ?_ rfl
    · rw [show (Kernel.view _ _).running = next from runs]
      exact turned
    · rw [show (Kernel.view _ _).running = next from runs]
      rfl

/-- What `init_main` checks at its end. -/
structure Alone (k : Kernel) (init : Ptr) : Prop where
  cptr : k.table.cptr init = none
  yptr : k.table.yptr init = none
  optr : k.table.optr init = none
  count : k.table.nrProcess = 2
  next : k.table.procList.next none = some init
  prev : k.table.procList.prev none = some init

theorem Invariant.alone (inv : k.Invariant procs kids queue init) (childless : kids init = []) : k.Alone init := by
  obtain ⟨⟨⟨⟨indexed, tree⟩, -, -, -⟩, -, -, -, initLive, initOnly, -⟩, -⟩ := inv
  have initIn : init ∈ k.idleproc :: procs := List.mem_cons_of_mem _ initLive.1
  have only : ∀ proc ∈ procs, proc = init := by
    have path : ∀ {proc}, k.table.Descends k.idleproc procs proc → proc = k.idleproc ∨ proc = init := by
      intro proc descends
      induction descends using Relation.ReflTransGen.head_induction_on with
      | refl => exact Or.inl rfl
      | head edge _ ih =>
        rcases ih with rfl | rfl
        · have below := (tree.family _ List.mem_cons_self _).mpr edge
          rw [initOnly] at below
          exact Or.inr (List.mem_singleton.mp below)
        · have below := (tree.family _ initIn _).mpr edge
          rw [childless] at below
          exact absurd below List.not_mem_nil
    intro proc member
    exact (path (tree.rooted proc member)).resolve_left (ne_of_mem_of_not_mem member indexed.root)
  have alone : procs = [init] := by
    have distinct := indexed.distinct
    cases procs with
    | nil => exact absurd initLive.1 List.not_mem_nil
    | cons proc rest =>
      cases only proc List.mem_cons_self
      cases rest with
      | nil => rfl
      | cons other rest =>
        cases only other (List.mem_cons_of_mem _ List.mem_cons_self)
        exact absurd List.mem_cons_self (List.nodup_cons.mp distinct).1
  have older := tree.older k.idleproc List.mem_cons_self
  have younger := tree.younger k.idleproc List.mem_cons_self nofun
  have ring := indexed.listed
  rw [initOnly] at older younger
  rw [alone] at ring
  refine ⟨?_, younger.1, older.1, ?_, ring.next_head, ring.prev_head⟩
  · rw [tree.eldest init initIn, childless]
    rfl
  · rw [indexed.count, alone]
    rfl

theorem initMainEnd_spec (inv : k.Invariant procs kids queue init) (first : k.current = init) (childless : kids init = []) :
    k.initMainEnd = .error (.panic "initproc exit.\n") := by
  obtain ⟨cptr, yptr, optr, count, next, prev⟩ := inv.alone childless
  have initproc := inv.stable.initproc
  have busy : k.current ≠ k.idleproc :=
    first ▸ ne_of_mem_of_not_mem inv.stable.initLive.1 inv.stable.core.table.indexed.root
  rw [initMainEnd, initproc, deref]
  simp only [ok_bind, cptr, yptr, optr, count, next, prev, and_self, decide_true, assert_true]
  rw [doExit, if_neg busy, if_pos (first ▸ initproc.symm)]

section Return

variable {caller : WaitCaller} {pid : Int} {codeStore : Nat}

/-- `do_wait` fails in a user process. -/
theorem waitFails {result : Int} (inv : k.Invariant procs kids queue init) (suits : k.Suits init .trapDispatched)
    (failed : result ≠ 0) :
    ∃ after, k.waitReturn .sysWait result = .ok after ∧ Moves k after none asked procs kids queue queue init := by
  have noted : (k.record (.waited (k.serial k.current) result)).Invariant procs kids queue init :=
    inv.alike ⟨rfl, rfl, ⟨_, _, rfl⟩, rfl, rfl, rfl, rfl, rfl, rfl, rfl⟩
  have moves : Moves _ _ none asked procs kids queue queue init :=
    (noted.goes ⟨suits.busy, suits.first, suits.user⟩).setA0 k.current result
  obtain ⟨invariant, frame, -, -⟩ := moves
  refine ⟨_, rfl, invariant, ⟨rfl, rfl, rfl, frame.loc, fun _ _ _ => Or.inl rfl, fun _ _ _ => rfl, fun _ _ _ => rfl, fun _ _ => rfl,
    fun _ _ => rfl, le_refl _, fun away => absurd rfl away⟩, .steady rfl ?_ (Or.inr ⟨result, failed, rfl⟩),
    .none (.refl _ _) (fun _ _ => rfl) (fun _ _ _ => ⟨rfl, rfl⟩)⟩
  change k.state k.current ≠ .zombie
  rw [inv.runnable]
  exact ProcState.runnable_alive

private theorem Moves.reaped {table : ProcTable} {after : Kernel} {procs' queue' : List Ptr} {kids' : Ptr → List Ptr}
    (below : child ∈ k.allocated) (up : k.table.parent child = some k.current) (matched : k.Matches pid child)
    (exited : k.state child = .zombie) (pids : table.pid = k.table.pid)
    (moves : Moves ((k.collected child codeStore table).record (.waited (k.serial k.current) 0)) after none
      (some (pid, codeStore)) procs' kids' queue queue' init)
    (others : ∀ proc ∈ k.allocated, proc ≠ k.current → after.loc proc = k.loc proc)
    (same : after.state = k.state ∧ after.flags = k.flags ∧ after.exitCode = k.exitCode ∧ after.serial = k.serial ∧
      after.table.pid = k.table.pid)
    (runs : (∀ proc, after.runs proc = k.runs proc) ∨
      after.runs = Function.update k.runs after.current (k.runs after.current + 1))
    (allocated : after.allocated = k.allocated.erase child) (runnable : k.state k.current = .runnable)
    (history : after.history = .waited (k.serial k.current) 0 :: (k.collection child codeStore ++ k.history)) :
    Moves k after none (some (pid, codeStore)) procs' kids' queue queue' init := by
  obtain ⟨invariant, frame, -, dispatch⟩ := moves
  obtain ⟨states, flags, exitCodes, serials, samePids⟩ := same
  refine ⟨invariant, ⟨frame.schedClass, frame.idleproc, frame.initproc, others, ?_, ?_, ?_, ?_, ?_, frame.births, frame.idle⟩,
    .reap pid codeStore child rfl below up matched exited allocated ?_ history, ?_⟩
  · exact fun proc _ _ => Or.inl (congrFun states proc)
  · exact fun proc _ _ => congrFun flags proc
  · exact fun proc _ _ => congrFun exitCodes proc
  · exact fun proc _ => congrFun serials proc
  · exact fun proc _ => congrFun samePids proc
  · rw [states, runnable]
    exact ProcState.runnable_alive
  · have view : (((k.collected child codeStore table).record (.waited (k.serial k.current) 0)).view queue) = k.view queue := by
      change View.mk k.rq queue (running _) table.pid = View.mk k.rq queue k.running k.table.pid
      rw [pids]
      rfl
    cases dispatch with
    | none effect counts strides =>
      refine .none (view ▸ effect) ?_ (fun proc _ present => strides proc (by rwa [allocated] at present) present)
      rcases runs with still | counted
      · exact fun proc _ => still proc
      · -- a `schedule` would have counted the process that runs
        have present : after.current ∈ after.allocated := invariant.stable.live.mem_iff.mpr invariant.stable.current
        rw [allocated] at present
        have impossible : after.runs after.current = k.runs after.current := counts after.current present
        rw [counted, Function.update_self] at impossible
        omega
    | next effect counts old =>
      exact .next (view ▸ effect) counts (fun proc present => List.mem_of_mem_erase (allocated ▸ present))

/-- `do_wait` from its search on: a child is reaped, or the process sleeps, or it
has no such child. -/
theorem waitRepeat_spec (inv : k.Invariant procs kids queue init) (suits : k.Suits init (.waiting pid codeStore caller)) :
    (∃ after procs' kids' queue', k.waitRepeat pid codeStore caller = .ok after ∧
      Moves k after none (some (pid, codeStore)) procs' kids' queue queue' init) ∨
    (k.waitRepeat pid codeStore caller = .error (.panic "initproc exit.\n") ∧ k.current = init ∧
      k.waitSearch 0 = .ok (false, none)) := by
  have live := inv.stable.current
  obtain ⟨haskid, found, searched, hit, miss, none⟩ := waitSearch_spec inv.stable.core live pid
  have returns : caller = .sysWait → k.Suits init .trapDispatched := by
    intro user
    refine ⟨suits.busy, fun first => ?_, fun _ => ⟨trivial, nofun⟩⟩
    have kernel : caller = .initMain := (suits.first first).2.2
    rw [user] at kernel
    cases kernel
  have starts : caller = .initMain → k.current = init := by
    intro kernel
    by_contra away
    have user : caller = .sysWait := (suits.user away).1
    rw [kernel] at user
    cases user
  rw [waitRepeat, searched, ok_bind]
  cases found with
  | some child =>
    left
    obtain ⟨below, matched, exited⟩ := hit child rfl
    obtain ⟨member, up⟩ := (inv.stable.core.table.tree.family _ live child).mp below
    obtain ⟨table, reaped, pids, collected⟩ := reap_spec inv suits.busy below exited codeStore
    have allocated : child ∈ k.allocated := inv.stable.live.mem_iff.mpr (List.mem_cons_of_mem _ member)
    have noted : ((k.collected child codeStore table).record (.waited (k.serial k.current) 0)).Invariant (procs.erase child)
        (Function.update kids k.current ((kids k.current).erase child)) queue init :=
      collected.alike ⟨rfl, rfl, ⟨_, _, rfl⟩, rfl, rfl, rfl, rfl, rfl, rfl, rfl⟩
    simp only [reaped, ok_bind]
    cases caller with
    | sysWait =>
      have suits' := returns rfl
      have moves : Moves _ _ .none (some (pid, codeStore)) _ _ queue queue init :=
        (noted.goes ⟨suits'.busy, suits'.first, suits'.user⟩).setA0 k.current 0
      refine ⟨_, _, _, _, rfl, moves.reaped allocated up matched exited pids ?_ ⟨rfl, rfl, rfl, rfl, pids⟩ (Or.inl fun _ => rfl) rfl
        inv.runnable rfl⟩
      exact fun proc _ away => Function.update_of_ne away _ _
    | initMain =>
      have first := starts rfl
      have suits' : ((k.collected child codeStore table).record (.waited (k.serial k.current) 0)).Suits init .initLoop :=
        ⟨suits.busy, fun _ => trivial, fun away => absurd first away⟩
      obtain ⟨next, rq, queue', done, moves⟩ := (noted.setLoc suits').giveWay
      refine ⟨_, _, _, queue', ?_, moves.place.reaped allocated up matched exited pids ?_ ⟨rfl, rfl, rfl, rfl, pids⟩ (Or.inr rfl) rfl
        inv.runnable rfl⟩
      · exact done
      · exact fun proc _ away => Function.update_of_ne away _ _
  | none =>
    by_cases some : haskid = true
    · left
      simp only [some, if_true]
      obtain ⟨next, rq, queue', done, moves⟩ := sleep_spec inv suits (miss rfl)
      exact ⟨_, _, _, queue', done, moves⟩
    · have unfound := Bool.eq_false_iff.mpr some
      obtain ⟨-, nobody⟩ := none unfound
      simp only [some, if_false, Bool.false_eq_true]
      cases caller with
      | sysWait =>
        left
        obtain ⟨after, done, moves⟩ := waitFails inv (returns rfl) (show -eBadProc ≠ 0 by decide)
        exact ⟨after, _, _, _, done, moves⟩
      | initMain =>
        right
        have first := starts rfl
        have any : pid = 0 := (suits.first first).1
        have childless : kids init = [] := by
          rw [← first]
          exact List.eq_nil_iff_forall_not_mem.mpr (fun child below => nobody child below (Or.inl any))
        have noted : (k.record (.waited (k.serial k.current) (-eBadProc))).Invariant procs kids queue init :=
          inv.alike ⟨rfl, rfl, ⟨_, _, rfl⟩, rfl, rfl, rfl, rfl, rfl, rfl, rfl⟩
        refine ⟨initMainEnd_spec noted first childless, first, ?_⟩
        rw [← any, searched, unfound]

end Return

end Ucore.Kernel
