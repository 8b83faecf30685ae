import Mathlib
import Ucore.Proofs.Moves

/-! `do_exit`: the parent is woken, the children go to `initproc`, which is woken
if one of them has exited, and another process runs. -/

namespace Ucore.Kernel
open Lib RunQueue ProcTable

variable {k : Kernel} {procs queue : List Ptr} {kids : Ptr → List Ptr} {proc init : Ptr} {asked : Option (Int × Nat)}

theorem wtChild_ne : wtChild ≠ 0 := by decide

theorem Slept.sleeping (slept : k.Slept procs) (member : proc ∈ procs) :
    k.state proc = .sleeping ↔ k.waitState proc = wtChild := by
  constructor
  · exact slept.asleep proc member
  · intro waits
    by_contra other
    exact wtChild_ne (waits.symm.trans (slept.awake proc member other))

theorem Slept.woken (slept : k.Slept procs) (busy : proc ≠ k.idleproc) (rq : RunQueue) : (k.woken proc rq).Slept procs := by
  refine ⟨⟨?_, ?_⟩, ?_, ?_, ?_⟩
  · exact (Function.update_of_ne busy.symm _ _).trans slept.idle.1
  · exact (Function.update_of_ne busy.symm _ _).trans slept.idle.2
  · intro other member
    by_cases same : other = proc
    · simp [Kernel.woken, same]
    · simpa only [Kernel.woken, Function.update_of_ne same] using slept.born other member
  · intro other member
    by_cases same : other = proc
    · simp [Kernel.woken, same]
    · simpa only [Kernel.woken, Function.update_of_ne same] using slept.asleep other member
  · intro other member
    by_cases same : other = proc
    · simp [Kernel.woken, same]
    · simpa only [Kernel.woken, Function.update_of_ne same] using slept.awake other member

/-- The state of the loop in `do_exit`: the current process is a zombie, and some
of its children may still be below it. -/
structure Orphaning (k : Kernel) (procs : List Ptr) (kids : Ptr → List Ptr) (queue : List Ptr) (init : Ptr) : Prop where
  indexed : k.table.Indexed k.idleproc procs
  tree : k.table.Tree k.idleproc (some k.current) procs kids
  queued : k.Queued procs queue
  slept : k.Slept procs
  waiting : ∀ proc ∈ procs, k.state proc = .sleeping → ∃ pid codeStore caller,
    k.loc proc = .waiting pid codeStore caller ∧ ∀ child ∈ kids proc, k.Matches pid child → k.state child ≠ .zombie
  barren : ∀ proc ∈ procs, proc ≠ k.current → k.state proc = .zombie → kids proc = []
  gone : k.current ∈ procs ∧ k.state k.current = .zombie
  initproc : k.initproc = some init
  initLive : init ∈ procs ∧ init ≠ k.current ∧ k.state init ≠ .zombie
  initTop : k.table.parent init = some k.idleproc

/-- What the loop leaves behind: only the table is different, unless it has woken
`initproc`. -/
def Reparented (k after : Kernel) (queue queue' : List Ptr) (init : Ptr) : Prop :=
  ∃ table, table.pid = k.table.pid ∧
    ((after = { k with table := table } ∧ queue' = queue) ∨
      ∃ rq, k.state init = .sleeping ∧ k.schedClass.enqueue k.table.pid init k.rq = .ok rq ∧
        after = ({ k with table := table }).woken init rq ∧ queue' = queue ++ [init])

private theorem Queued.retable (queued : k.Queued procs queue) (table : ProcTable) :
    ({ k with table := table } : Kernel).Queued procs queue :=
  ⟨queued.holds, queued.members, queued.detached⟩

/-- One round of the loop. -/
theorem reparent_round {rest : List Ptr} (orphaning : k.Orphaning procs kids queue init)
    (first : kids k.current = proc :: rest) :
    ∃ after queue', onlyIf (k.state proc = .zombie ∧ k.waitState init = wtChild) (wakeupProc init)
        { k with table := k.table.giveChild k.current proc init } = .ok after ∧
      after.Orphaning procs (Function.update (Function.update kids k.current rest) init (proc :: kids init)) queue' init ∧
      Reparented k after queue queue' init := by
  obtain ⟨indexed, tree, queued, slept, waiting, barren, ⟨source, zombie⟩, initproc, ⟨live, apart, alive⟩, top⟩ := orphaning
  obtain ⟨indexed', tree'⟩ := give indexed tree source first live apart top
  obtain ⟨-, -, pids, -⟩ := giveChild_index k.current proc init k.table
  have sourceLive : k.current ∈ k.idleproc :: procs := List.mem_cons_of_mem _ source
  have busy : init ≠ k.idleproc := ne_of_mem_of_not_mem live indexed.root
  have initAway : init ≠ proc := by
    rintro rfl
    have edge := ((tree.family k.current sourceLive init).mp (first ▸ List.mem_cons_self)).2
    exact indexed.root (Option.some.inj (edge.symm.trans top) ▸ source)
  have top' : (k.table.giveChild k.current proc init).parent init = some k.idleproc := by
    rcases tree'.parent_live indexed.root live with ⟨holder, holderLive, up⟩
    have below := (tree'.family holder holderLive init).mpr ⟨live, up⟩
    have old := (tree.family k.idleproc List.mem_cons_self init).mpr ⟨live, top⟩
    have idleKids : Function.update (Function.update kids k.current rest) init (proc :: kids init) k.idleproc = kids k.idleproc := by
      rw [Function.update_of_ne busy.symm, Function.update_of_ne (ne_of_mem_of_not_mem source indexed.root).symm]
    have stay := (tree'.family k.idleproc List.mem_cons_self init).mp (idleKids.symm ▸ old)
    exact stay.2
  have otherKids : ∀ other, other ≠ k.current → other ≠ init →
      Function.update (Function.update kids k.current rest) init (proc :: kids init) other = kids other := by
    intro other notSource notInit
    rw [Function.update_of_ne notInit, Function.update_of_ne notSource]
  have barren' : ∀ other ∈ procs, other ≠ k.current → k.state other = .zombie →
      Function.update (Function.update kids k.current rest) init (proc :: kids init) other = [] := by
    intro other member notSource exited
    have notInit : other ≠ init := by
      rintro rfl
      exact alive exited
    rw [otherKids other notSource notInit]
    exact barren other member notSource exited
  have waiting' : ∀ other ∈ procs, other ≠ init → k.state other = .sleeping → ∃ pid codeStore caller,
      k.loc other = .waiting pid codeStore caller ∧
        ∀ child ∈ Function.update (Function.update kids k.current rest) init (proc :: kids init) other,
          k.Matches pid child → k.state child ≠ .zombie := by
    intro other member notInit asleep
    have notSource : other ≠ k.current := by
      rintro rfl
      rw [zombie] at asleep
      cases asleep
    rw [otherKids other notSource notInit]
    exact waiting other member asleep
  have matches' : ∀ pid child, ({ k with table := k.table.giveChild k.current proc init } : Kernel).Matches pid child ↔
      k.Matches pid child := by
    intro pid child
    rw [Matches, Matches, pids]
  by_cases wakes : k.state proc = .zombie ∧ k.waitState init = wtChild
  · have asleep := (slept.sleeping live).mpr wakes.2
    obtain ⟨rq, entered, woke, queued'⟩ := wakeupProc_spec (queued.retable (k.table.giveChild k.current proc init)) indexed.root
      indexed.room live (by simp [asleep]) alive apart
    rw [onlyIf, if_pos wakes]
    refine ⟨_, queue ++ [init], woke, ?_, k.table.giveChild k.current proc init, pids, Or.inr ⟨rq, asleep, ?_, rfl, rfl⟩⟩
    · have states : ∀ other, other ≠ init →
          Function.update k.state init .runnable other = k.state other := fun other away => Function.update_of_ne away _ _
      refine ⟨indexed', tree', queued', Slept.woken (k := { k with table := k.table.giveChild k.current proc init }) ?_ busy rq,
        ?_, ?_, ⟨source, ?_⟩, initproc, ⟨live, apart, ?_⟩, top'⟩
      · exact ⟨slept.idle, slept.born, slept.asleep, slept.awake⟩
      · intro other member sleeping
        have notInit : other ≠ init := by
          rintro rfl
          simp [woken] at sleeping
        simp only [woken, states other notInit] at sleeping
        obtain ⟨pid, codeStore, caller, loc, none⟩ := waiting' other member notInit sleeping
        refine ⟨pid, codeStore, caller, loc, ?_⟩
        intro child below same
        by_cases isInit : child = init
        · subst isInit
          simp [woken]
        · simp only [woken, states child isInit]
          exact none child below ((matches' pid child).mp same)
      · intro other member notSource exited
        have notInit : other ≠ init := by
          rintro rfl
          simp [woken] at exited
        simp only [woken, states other notInit] at exited
        exact barren' other member notSource exited
      · exact (states k.current apart.symm).trans zombie
      · simp [woken]
    · exact pids ▸ entered
  · rw [onlyIf, if_neg wakes]
    refine ⟨_, queue, rfl, ?_, k.table.giveChild k.current proc init, pids, Or.inl ⟨rfl, rfl⟩⟩
    refine ⟨indexed', tree', queued.retable _, ⟨slept.idle, slept.born, slept.asleep, slept.awake⟩, ?_, barren',
      ⟨source, zombie⟩, initproc, ⟨live, apart, alive⟩, top'⟩
    intro other member asleep
    by_cases isInit : other = init
    · subst isInit
      obtain ⟨pid, codeStore, caller, loc, none⟩ := waiting other member asleep
      refine ⟨pid, codeStore, caller, loc, ?_⟩
      intro child below same
      rw [Function.update_self, List.mem_cons] at below
      rcases below with rfl | old
      · exact fun exited => wakes ⟨exited, slept.asleep other member asleep⟩
      · exact none child old ((matches' pid child).mp same)
    · obtain ⟨pid, codeStore, caller, loc, none⟩ := waiting' other member isInit asleep
      exact ⟨pid, codeStore, caller, loc, fun child below same => none child below ((matches' pid child).mp same)⟩

private theorem Reparented.trans {middle after : Kernel} {queue₁ queue₂ queue₃ : List Ptr}
    (first : Reparented k middle queue₁ queue₂ init) (second : Reparented middle after queue₂ queue₃ init) :
    Reparented k after queue₁ queue₃ init := by
  obtain ⟨table₁, pids₁, (⟨rfl, rfl⟩ | ⟨rq₁, asleep₁, entered₁, rfl, rfl⟩)⟩ := first
  · obtain ⟨table₂, pids₂, (⟨rfl, rfl⟩ | ⟨rq₂, asleep₂, entered₂, rfl, rfl⟩)⟩ := second
    · exact ⟨table₂, pids₂.trans pids₁, Or.inl ⟨rfl, rfl⟩⟩
    · exact ⟨table₂, pids₂.trans pids₁, Or.inr ⟨rq₂, asleep₂, pids₁ ▸ entered₂, rfl, rfl⟩⟩
  · obtain ⟨table₂, pids₂, (⟨rfl, rfl⟩ | ⟨rq₂, asleep₂, entered₂, rfl, rfl⟩)⟩ := second
    · exact ⟨table₂, pids₂.trans pids₁, Or.inr ⟨rq₁, asleep₁, entered₁, rfl, rfl⟩⟩
    · simp [woken] at asleep₂

/-- The whole loop, by induction on the children that are left. -/
theorem reparent_spec {rest : List Ptr} (orphaning : k.Orphaning procs kids queue init) (left : kids k.current = rest)
    {fuel : Nat} (enough : rest.length < fuel) :
    ∃ after kids' queue', reparent fuel k = .ok after ∧ after.Orphaning procs kids' queue' init ∧
      kids' k.current = [] ∧ kids' k.idleproc = kids k.idleproc ∧ Reparented k after queue queue' init := by
  induction rest generalizing k kids queue fuel with
  | nil =>
    cases fuel with
    | zero => exact absurd enough (Nat.not_lt_zero _)
    | succ fuel =>
      have none : k.table.cptr k.current = none := by
        rw [orphaning.tree.eldest _ (List.mem_cons_of_mem _ orphaning.gone.1), left]
        rfl
      refine ⟨k, kids, queue, by rw [reparent, none], orphaning, left, rfl, k.table, rfl, Or.inl ⟨rfl, rfl⟩⟩
  | cons proc rest ih =>
    cases fuel with
    | zero => exact absurd enough (Nat.not_lt_zero _)
    | succ fuel =>
      have first : k.table.cptr k.current = some proc := by
        rw [orphaning.tree.eldest _ (List.mem_cons_of_mem _ orphaning.gone.1), left]
        rfl
      obtain ⟨middle, queue₁, done, orphaning₁, round⟩ := reparent_round orphaning left
      have kept : middle.current = k.current ∧ middle.idleproc = k.idleproc := by
        obtain ⟨table, -, (⟨rfl, -⟩ | ⟨rq, -, -, rfl, -⟩)⟩ := round
        · exact ⟨rfl, rfl⟩
        · exact ⟨rfl, rfl⟩
      have apart := orphaning.initLive.2.1
      have sourceKids : Function.update (Function.update kids k.current rest) init (proc :: kids init) middle.current = rest := by
        rw [kept.1, Function.update_of_ne apart.symm, Function.update_self]
      have idleKids : Function.update (Function.update kids k.current rest) init (proc :: kids init) k.idleproc = kids k.idleproc := by
        have root := orphaning.indexed.root
        rw [Function.update_of_ne (ne_of_mem_of_not_mem orphaning.initLive.1 root).symm,
          Function.update_of_ne (ne_of_mem_of_not_mem orphaning.gone.1 root).symm]
      obtain ⟨after, kids', queue', rounds, orphaning', empty, idle, later⟩ := ih orphaning₁ sourceKids
        (Nat.lt_of_succ_lt_succ enough)
      refine ⟨after, kids', queue', ?_, orphaning', kept.1 ▸ empty, ?_, round.trans later⟩
      · have found : deref k.initproc = .ok init := by
          rw [orphaning.initproc]
          rfl
        rw [reparent, first]
        simp only [found, ok_bind, done]
        exact rounds
      · rw [← kept.2, idle, kept.2, idleKids]

/-- `k` with its current process marked as exited. -/
def marked (k : Kernel) (code : Int) : Kernel :=
  ((k.setState k.current .zombie).setExitCode k.current code).record (.exited (k.serial k.current) code)

private theorem marked_state (code : Int) (proc : Ptr) :
    (k.marked code).state proc = if proc = k.current then .zombie else k.state proc := by
  simp only [marked, record, setExitCode, setState, Function.update_apply]

private theorem marked_queued (code : Int) (queued : k.Queued procs queue) : (k.marked code).Queued procs queue := by
  refine ⟨queued.holds, ?_, queued.detached⟩
  intro proc
  rw [queued.members proc, marked_state]
  change _ ↔ _ ∧ _ ∧ proc ≠ k.current
  split
  · rename_i same
    simp [same]
  · exact Iff.rfl

private theorem marked_slept (code : Int) (slept : k.Slept procs) (source : k.current ∈ procs) (root : k.idleproc ∉ procs)
    (runnable : k.state k.current = .runnable) : (k.marked code).Slept procs := by
  refine ⟨⟨?_, slept.idle.2⟩, ?_, ?_, ?_⟩
  · rw [marked_state]
    exact (if_neg (ne_of_mem_of_not_mem source root).symm).trans slept.idle.1
  · intro proc member
    rw [marked_state]
    split
    · exact nofun
    · exact slept.born proc member
  · intro proc member
    rw [marked_state]
    split
    · exact nofun
    · exact slept.asleep proc member
  · intro proc member
    rw [marked_state]
    split
    · rename_i same
      subst same
      exact fun _ => slept.awake _ source (by simp [runnable])
    · exact slept.awake proc member

/-- The current process has been marked, and its parent is woken if it sleeps. -/
theorem mark_spec (code : Int) {parent : Ptr} (core : k.Core procs kids queue) (initproc : k.initproc = some init)
    (initLive : init ∈ procs ∧ k.state init ≠ .zombie) (initTop : k.table.parent init = some k.idleproc)
    (source : k.current ∈ procs) (runnable : k.state k.current = .runnable) (notInit : k.current ≠ init)
    (up : k.table.parent k.current = some parent) (parentLive : parent ∈ procs) :
    ∃ after woken, onlyIf ((k.marked code).waitState parent = wtChild) (wakeupProc parent) (k.marked code) = .ok after ∧
      after.Orphaning procs kids (queue ++ woken) init ∧
      wakeAll k.schedClass k.table.pid woken k.rq = .ok after.rq ∧ (∀ proc ∈ woken, k.state proc = .sleeping) ∧
      Aside (k.marked code) after ∧ after.table = k.table ∧
      ∀ proc, proc ≠ k.current → after.state proc = k.state proc ∨ (k.state proc = .sleeping ∧ after.state proc = .runnable) := by
  obtain ⟨⟨indexed, tree⟩, queued, slept, waits⟩ := core
  have root := indexed.root
  have apart : parent ≠ k.current := by
    rintro rfl
    exact tree.parent_ne root parentLive up
  have family : ∀ other ∈ procs, k.current ∈ kids other → other = parent := by
    intro other member below
    have edge := ((tree.family other (List.mem_cons_of_mem _ member) k.current).mp below).2
    exact Option.some.inj (edge.symm.trans up)
  -- nobody but the parent waits for the process that exits
  have waiting : ∀ other ∈ procs, other ≠ parent → (k.marked code).state other = .sleeping → ∃ pid codeStore caller,
      k.loc other = .waiting pid codeStore caller ∧
        ∀ child ∈ kids other, k.Matches pid child → (k.marked code).state child ≠ .zombie := by
    intro other member notParent asleep
    rw [marked_state] at asleep
    split at asleep
    · cases asleep
    · obtain ⟨pid, codeStore, caller, loc, none⟩ := waits.waiting other member asleep
      refine ⟨pid, codeStore, caller, loc, fun child below same => ?_⟩
      have notCurrent : child ≠ k.current := by
        rintro rfl
        exact notParent (family other member below)
      rw [marked_state, if_neg notCurrent]
      exact none child below same
  have barren : ∀ other ∈ procs, other ≠ k.current → (k.marked code).state other = .zombie → kids other = [] := by
    intro other member away exited
    rw [marked_state, if_neg away] at exited
    exact waits.barren other member exited
  have initAlive : (k.marked code).state init ≠ .zombie := by
    rw [marked_state, if_neg notInit.symm]
    exact initLive.2
  have slept' := marked_slept code slept source root runnable
  by_cases wakes : (k.marked code).waitState parent = wtChild
  · have asleep := (slept.sleeping parentLive).mpr wakes
    have asleep' : (k.marked code).state parent = .sleeping := by
      rw [marked_state, if_neg apart]
      exact asleep
    obtain ⟨rq, entered, woke, queued'⟩ := wakeupProc_spec (marked_queued code queued) root indexed.room parentLive
      (by simp [asleep']) (by simp [asleep']) apart
    have states : ∀ other, other ≠ parent → ((k.marked code).woken parent rq).state other = (k.marked code).state other :=
      fun other away => Function.update_of_ne away _ _
    have self : ((k.marked code).woken parent rq).state parent = .runnable := Function.update_self _ _ _
    rw [onlyIf, if_pos wakes]
    refine ⟨_, [parent], woke, ?_, ?_, ?_, Aside.woken _ _ _, rfl, ?_⟩
    · refine ⟨indexed, tree.loosen _, queued', slept'.woken (ne_of_mem_of_not_mem parentLive root) rq, ?_, ?_,
        ⟨source, ?_⟩, initproc, ⟨initLive.1, notInit.symm, ?_⟩, initTop⟩
      · intro other member sleeping
        have notParent : other ≠ parent := by
          rintro rfl
          rw [self] at sleeping
          cases sleeping
        rw [states other notParent] at sleeping
        obtain ⟨pid, codeStore, caller, loc, none⟩ := waiting other member notParent sleeping
        refine ⟨pid, codeStore, caller, loc, fun child below same => ?_⟩
        by_cases isParent : child = parent
        · rw [isParent, self]
          exact ProcState.runnable_alive
        · rw [states child isParent]
          exact none child below same
      · intro other member away exited
        have notParent : other ≠ parent := by
          rintro rfl
          rw [self] at exited
          cases exited
        rw [states other notParent] at exited
        exact barren other member away exited
      · refine (states k.current apart.symm).trans ?_
        rw [marked_state, if_pos rfl]
      · by_cases isParent : init = parent
        · rw [isParent, self]
          exact ProcState.runnable_alive
        · rw [states init isParent]
          exact initAlive
    · have entered' : k.schedClass.enqueue k.table.pid parent k.rq = .ok rq := entered
      rw [wakeAll, entered']
      rfl
    · intro other member
      rw [List.mem_singleton.mp member]
      exact asleep
    · intro other away
      by_cases isParent : other = parent
      · right
        rw [isParent]
        exact ⟨asleep, Function.update_self _ _ _⟩
      · left
        refine (states other isParent).trans ?_
        rw [marked_state, if_neg away]
  · rw [onlyIf, if_neg wakes]
    refine ⟨_, [], rfl, ?_, rfl, ?_, Aside.refl _, rfl, ?_⟩
    · refine ⟨indexed, tree.loosen _, ?_, slept', ?_, barren, ⟨source, ?_⟩, initproc, ⟨initLive.1, notInit.symm, initAlive⟩,
        initTop⟩
      · rw [List.append_nil]
        exact marked_queued code queued
      · intro other member sleeping
        apply waiting other member ?_ sleeping
        rintro rfl
        exact wakes (slept'.asleep other member sleeping)
      · rw [marked_state]
        exact if_pos rfl
    · exact fun other member => absurd member List.not_mem_nil
    · intro other away
      left
      rw [marked_state, if_neg away]

private theorem wakeAll_append {schedClass : SchedClass} {pid : Ptr → Int} {first second : List Ptr} {rq middle after : RunQueue}
    (one : wakeAll schedClass pid first rq = .ok middle) (two : wakeAll schedClass pid second middle = .ok after) :
    wakeAll schedClass pid (first ++ second) rq = .ok after := by
  induction first generalizing rq with
  | nil =>
    cases one
    exact two
  | cons proc first ih =>
    rw [wakeAll] at one
    obtain ⟨next, entered, rest⟩ := bind_ok one
    rw [List.cons_append, wakeAll, entered]
    exact ih rest

private theorem Reparented.wakes {after : Kernel} {queue' : List Ptr} (reparented : Reparented k after queue queue' init) :
    ∃ woken, queue' = queue ++ woken ∧ wakeAll k.schedClass k.table.pid woken k.rq = .ok after.rq ∧
      (∀ proc ∈ woken, k.state proc = .sleeping) ∧ after.table.pid = k.table.pid ∧
      Aside k after ∧
      ∀ proc, after.state proc = k.state proc ∨ (k.state proc = .sleeping ∧ after.state proc = .runnable) := by
  obtain ⟨table, pids, (⟨rfl, rfl⟩ | ⟨rq, asleep, entered, rfl, rfl⟩)⟩ := reparented
  · exact ⟨[], (List.append_nil _).symm, rfl, fun _ member => absurd member List.not_mem_nil, pids,
      ⟨rfl, rfl, rfl, rfl, rfl, rfl, rfl, rfl, rfl, rfl, rfl, rfl, rfl, rfl⟩, fun _ => Or.inl rfl⟩
  · refine ⟨[init], rfl, ?_, ?_, pids, ⟨rfl, rfl, rfl, rfl, rfl, rfl, rfl, rfl, rfl, rfl, rfl, rfl, rfl, rfl⟩, ?_⟩
    · rw [wakeAll, entered]
      rfl
    · intro proc member
      rw [List.mem_singleton.mp member]
      exact asleep
    · intro proc
      by_cases same : proc = init
      · right
        rw [same]
        exact ⟨asleep, Function.update_self _ _ _⟩
      · exact Or.inl (Function.update_of_ne same _ _)

theorem Queued.setLoc (queued : k.Queued procs queue) (proc : Ptr) (loc : Loc) : (k.setLoc proc loc).Queued procs queue :=
  ⟨queued.holds, queued.members, queued.detached⟩

/-- `do_exit` of a process that is neither the idle process nor `initproc`. -/
theorem doExit_spec (inv : k.Invariant procs kids queue init) (busy : k.current ≠ k.idleproc) (notInit : k.current ≠ init)
    (code : Int) :
    ∃ after kids' queue', doExit code k = .ok after ∧ Moves k after none asked procs kids' queue queue' init ∧
      after.state k.current = .zombie := by
  obtain ⟨⟨core, live, located, initproc, initLive, initOnly, currentLive⟩, runnable⟩ := inv
  have root := core.table.indexed.root
  have source : k.current ∈ procs := (List.mem_cons.mp currentLive).resolve_left busy
  have initTop : k.table.parent init = some k.idleproc :=
    ((core.table.tree.family k.idleproc List.mem_cons_self init).mp (initOnly ▸ List.mem_singleton_self init)).2
  obtain ⟨parent, parentIn, up⟩ := core.table.tree.parent_live root source
  have parentLive : parent ∈ procs := by
    rcases List.mem_cons.mp parentIn with rfl | inside
    · have below := (core.table.tree.family k.idleproc List.mem_cons_self k.current).mpr ⟨source, up⟩
      rw [initOnly, List.mem_singleton] at below
      exact absurd below notInit
    · exact inside
  obtain ⟨first, woken₁, woke, orphaning, wakes₁, asleep₁, aside₁, table₁, states₁⟩ :=
    mark_spec code core initproc initLive initTop source runnable notInit up parentLive
  have few : (kids k.current).length < maxProcess := by
    have within : (kids k.current).length ≤ procs.length :=
      ((core.table.tree.distinct _ currentLive).subperm (fun child below =>
        core.table.tree.kids_member currentLive below)).length_le
    exact within.trans_lt core.table.indexed.room
  obtain ⟨second, kids', queue₂, looped, orphaning', empty, idleKids, reparented⟩ :=
    reparent_spec orphaning rfl (aside₁.current ▸ few)
  obtain ⟨woken₂, rfl, wakes₂, asleep₂, pids₂, aside₂, states₂⟩ := reparented.wakes
  have marked₁ : first.state k.current = .zombie := aside₁.current ▸ orphaning.gone.2
  have aside := aside₁.trans aside₂
  have pids : second.table.pid = k.table.pid := pids₂.trans (congrArg ProcTable.pid table₁)
  have current : second.current = k.current := aside.current
  have idle : second.idleproc = k.idleproc := aside.idleproc
  obtain ⟨indexed, tree, queued, slept, waiting, barren, ⟨-, gone⟩, initproc', ⟨initIn, -, initAlive⟩, -⟩ := orphaning'
  rw [aside₁.current] at empty
  rw [current] at barren gone
  have still : ∀ proc, proc ≠ k.current → second.state proc = k.state proc ∨
      (k.state proc = .sleeping ∧ second.state proc = .runnable) := by
    intro proc away
    rcases states₂ proc with same | ⟨asleep, awake⟩
    · rcases states₁ proc away with old | ⟨asleep, awake⟩
      · exact Or.inl (same.trans old)
      · exact Or.inr ⟨asleep, same.trans awake⟩
    · rcases states₁ proc away with old | ⟨_, awake'⟩
      · exact Or.inr ⟨old.symm.trans asleep, awake⟩
      · exact absurd (awake'.symm.trans asleep) (by decide)
  have locs : (second.setLoc k.current .exited).loc = Function.update k.loc k.current .exited := by
    rw [setLoc, aside.loc]
    rfl
  have elsewhere : ∀ proc, proc ≠ k.current → (second.setLoc k.current .exited).loc proc = k.loc proc := by
    intro proc away
    rw [locs, Function.update_of_ne away]
  have own : (second.setLoc k.current .exited).loc k.current = .exited := Function.update_self _ _ _
  have stable : (second.setLoc k.current .exited).Stable procs kids' (queue ++ woken₁ ++ woken₂) init := by
    refine ⟨⟨⟨indexed, tree.settle (current ▸ empty)⟩, queued.setLoc _ _, ⟨slept.idle, slept.born, slept.asleep, slept.awake⟩,
      ⟨?_, ?_⟩⟩, ?_, ⟨?_, ?_, ?_, ?_⟩, initproc', ⟨initIn, initAlive⟩, ?_, ?_⟩
    · intro proc member asleep
      have away : proc ≠ k.current := by
        rintro rfl
        rw [show (second.setLoc k.current .exited).state k.current = _ from gone] at asleep
        cases asleep
      obtain ⟨pid, codeStore, caller, loc, none⟩ := waiting proc member asleep
      refine ⟨pid, codeStore, caller, ?_, none⟩
      exact (Function.update_of_ne away _ _).trans loc
    · intro proc member exited
      by_cases same : proc = k.current
      · rw [same]
        exact empty
      · exact barren proc member same exited
    · rw [show (second.setLoc k.current .exited).allocated = k.allocated from aside.allocated]
      exact idle ▸ live
    · rw [show (second.setLoc k.current .exited).idleproc = k.idleproc from idle, elsewhere _ busy.symm]
      exact located.idle
    · rw [elsewhere _ notInit.symm]
      exact located.first
    · intro proc member away
      by_cases same : proc = k.current
      · rw [same, own]
        trivial
      · rw [elsewhere proc same]
        exact located.user proc member away
    · intro proc member left
      by_cases same : proc = k.current
      · rw [same]
        exact gone
      · rw [elsewhere proc same] at left
        have exited := located.exited proc member left
        refine ((still proc same).resolve_right ?_).trans exited
        rintro ⟨asleep, _⟩
        rw [exited] at asleep
        cases asleep
    · rw [show (second.setLoc k.current .exited).idleproc = k.idleproc from idle]
      rw [show first.idleproc = k.idleproc from aside₁.idleproc] at idleKids
      exact idleKids.trans initOnly
    · rw [show (second.setLoc k.current .exited).current = k.current from current,
        show (second.setLoc k.current .exited).idleproc = k.idleproc from idle]
      exact currentLive
  obtain ⟨next, rq, turned, done, invariant, runs, nobody⟩ := stable.schedule
  have stopped : (second.setLoc k.current .exited).running = none := by
    rw [running, if_neg]
    rintro ⟨alive, -⟩
    rw [show (second.setLoc k.current .exited).state (second.setLoc k.current .exited).current = .zombie from current ▸ gone] at alive
    cases alive
  rw [stopped] at turned invariant
  rw [candidates, Option.toList_none, List.append_nil] at invariant
  refine ⟨_, kids', _, ?_, ⟨invariant, ⟨aside.schedClass, idle, aside.initproc, fun proc _ away => elsewhere proc away,
    fun proc _ away => still proc away, fun proc _ _ => congrFun aside.flags proc, ?_, fun proc _ => congrFun aside.serial proc,
    fun proc _ => congrFun pids proc, aside.births.ge, ?_⟩, .exit code aside.allocated gone own ?_ aside.history,
    .next ?_ (by rw [show k.runs = second.runs from aside.runs.symm]; rfl) (fun _ live => aside.allocated ▸ live)⟩, gone⟩
  · have marking : ((k.setState k.current .zombie).setExitCode k.current code).record (.exited (k.serial k.current) code) =
        k.marked code := rfl
    have found : deref (k.table.parent k.current) = .ok parent := by rw [up]; rfl
    rw [doExit, if_neg busy, initproc, if_neg (fun same => notInit (Option.some.inj same))]
    change (deref (k.table.parent k.current) >>= fun parent =>
      onlyIf ((k.marked code).waitState parent = wtChild) (wakeupProc parent) (k.marked code) >>= fun k =>
        reparent maxProcess k >>= fun k => schedule (k.setLoc k.current .exited)) = _
    rw [found, ok_bind, woke, ok_bind, looped, ok_bind, current]
    exact done
  · intro proc _ away
    exact (congrFun aside.exitCode proc).trans (Function.update_of_ne away _ _)
  · rw [show k.runs = (second.setLoc k.current .exited).runs from aside.runs.symm,
      show k.idleproc = (second.setLoc k.current .exited).idleproc from idle.symm]
    exact switched_idle stable.live runs nobody
  · exact (congrFun aside.exitCode k.current).trans (Function.update_self _ _ _)
  · rw [aside₁.schedClass, table₁] at wakes₂
    rw [show (second.setLoc k.current .exited).schedClass = k.schedClass from aside.schedClass,
      show (second.setLoc k.current .exited).table.pid = k.table.pid from pids] at turned
    rw [List.append_assoc] at invariant ⊢
    refine Effect.leave (woken₁ ++ woken₂) second.rq ?_ ?_ (wakeAll_append wakes₁ wakes₂) ?_ ?_ pids
    · rw [show (k.view queue).queue ++ (woken₁ ++ woken₂) = queue ++ woken₁ ++ woken₂ from (List.append_assoc ..).symm,
        show k.schedClass = second.schedClass from aside.schedClass.symm]
      exact queued.holds
    · intro proc member runs'
      obtain ⟨rfl, -, -⟩ := running_eq_some.mp runs'
      rcases List.mem_append.mp member with early | late
      · exact absurd ((asleep₁ _ early).symm.trans runnable) (by decide)
      · have exited : first.state k.current = .zombie := marked₁
        exact absurd ((asleep₂ _ late).symm.trans exited) (by decide)
    · rw [show (Kernel.view _ _).running = next from runs]
      exact turned
    · rw [show (Kernel.view _ _).running = next from runs]
      rfl

end Ucore.Kernel
