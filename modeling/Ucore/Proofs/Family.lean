import Mathlib
import Ucore.Proofs.Play
import Ucore.Proofs.Scheduling

/-! The process table and the process tree in every state that is reached. -/

namespace Ucore.Kernel
open Lib ProcTable

/-- `proc_list`, the counter, the pids, the hash lists and the family pointers
describe the live processes. `procs` are the processes on `proc_list`, and `kids`
the children of each process as `cptr` and `optr` enumerate them. -/
structure Family (k : Kernel) (procs : List Ptr) (kids : Ptr → List Ptr) : Prop where
  listed : k.table.procList.Ring none (procs.map some)
  members : ∀ proc, proc ∈ procs ↔ k.Live proc ∧ proc ≠ k.idleproc
  count : k.table.nrProcess = procs.length + 1 ∧ k.table.nrProcess ≤ maxProcess
  pids : ∀ proc other, k.Live proc → k.Live other → k.table.pid proc = k.table.pid other → proc = other
  found : ∀ pid, ∃ found, k.table.findProc pid = .ok found ∧
    ∀ proc, found = some proc ↔ k.Live proc ∧ proc ≠ k.idleproc ∧ k.table.pid proc = pid
  enumerated : ∀ proc, k.Live proc → k.table.cptr proc = (kids proc).head? ∧ Forward k.table.optr (kids proc) ∧
    Backward k.table.yptr none (kids proc)
  children : ∀ proc, k.Live proc → (kids proc).Nodup ∧
    ∀ child, child ∈ kids proc ↔ k.Live child ∧ k.table.parent child = some proc
  parents : ∀ proc, k.Live proc → proc ≠ k.idleproc →
    ∃ parent, k.table.parent proc = some parent ∧ k.Live parent ∧ k.state parent ≠ .zombie
  rooted : ∀ proc, k.Live proc →
    Relation.ReflTransGen (fun child parent => k.Live child ∧ k.table.parent child = some parent) proc k.idleproc

variable {schedClass : SchedClass} {k : Kernel} {procs queue : List Ptr} {kids : Ptr → List Ptr} {init : Ptr}

private theorem Invariant.live_mem (inv : k.Invariant procs kids queue init) {proc : Ptr} :
    k.Live proc ↔ proc ∈ k.idleproc :: procs :=
  inv.stable.live.mem_iff

theorem Invariant.family (inv : k.Invariant procs kids queue init) : k.Family procs kids := by
  obtain ⟨indexed, tree⟩ := inv.stable.core.table
  have live : ∀ {proc}, k.Live proc ↔ proc ∈ k.idleproc :: procs := inv.live_mem
  have idlePid : ∀ proc ∈ procs, k.table.pid proc ≠ k.table.pid k.idleproc := by
    intro proc member
    rw [indexed.idlePid]
    have low := (indexed.pids proc member).1
    omega
  refine ⟨indexed.listed, fun proc => inv.live_iff.symm, ⟨indexed.count, ?_⟩, ?_, ?_, ?_, ?_, ?_, ?_⟩
  · have room := indexed.room
    rw [indexed.count]
    omega
  · intro proc other procLive otherLive same
    rcases List.mem_cons.mp (live.mp procLive) with rfl | procIn
    · rcases List.mem_cons.mp (live.mp otherLive) with rfl | otherIn
      · rfl
      · exact absurd same.symm (idlePid other otherIn)
    · rcases List.mem_cons.mp (live.mp otherLive) with rfl | otherIn
      · exact absurd same (idlePid proc procIn)
      · exact indexed.unique proc procIn other otherIn same
  · intro pid
    obtain ⟨found, searched, hit⟩ := findProc_spec indexed pid
    refine ⟨found, searched, fun proc => (hit proc).trans ?_⟩
    rw [← and_assoc, inv.live_iff]
  · exact fun proc alive => ⟨tree.eldest proc (live.mp alive), tree.older proc (live.mp alive),
      tree.younger proc (live.mp alive) nofun⟩
  · intro proc alive
    refine ⟨tree.distinct proc (live.mp alive), fun child => (tree.family proc (live.mp alive) child).trans ?_⟩
    rw [ParentOf, live, List.mem_cons]
    constructor
    · exact And.imp_left Or.inr
    · rintro ⟨rfl | member, up⟩
      · cases tree.top.symm.trans up
      · exact ⟨member, up⟩
  · intro proc alive busy
    have member := (List.mem_cons.mp (live.mp alive)).resolve_left busy
    obtain ⟨parent, parentIn, up⟩ := tree.parent_live indexed.root member
    refine ⟨parent, up, live.mpr parentIn, ?_⟩
    intro gone
    have below := (tree.family parent parentIn proc).mpr ⟨member, up⟩
    rcases List.mem_cons.mp parentIn with rfl | inside
    · exact absurd (gone.symm.trans inv.stable.core.slept.idle.1) (by decide)
    · rw [inv.stable.core.waits.barren parent inside gone] at below
      exact List.not_mem_nil below
  · intro proc alive
    rcases List.mem_cons.mp (live.mp alive) with rfl | member
    · exact Relation.ReflTransGen.refl
    · have widen : ∀ child parent, k.table.ParentOf procs child parent → k.Live child ∧ k.table.parent child = some parent :=
        fun child parent edge => ⟨live.mpr (List.mem_cons_of_mem _ edge.1), edge.2⟩
      exact Relation.ReflTransGen.mono widen _ _ (tree.rooted proc member)

/-- The table and the tree are consistent in every state that is reached. No step
fails an assertion, and when `do_wait(0, NULL)` of `initproc` finds no child, the
checks at the end of `init_main` hold. -/
theorem family_consistent (schedClass : SchedClass) : ∀ k, Reachable schedClass k →
    (∃ procs kids, k.Family procs kids) ∧
    (∀ event text, k.Enabled event → k.step event ≠ .error (.assertion text)) ∧
    ∀ init, k.initproc = some init → k.current = init → k.waitSearch 0 = .ok (false, none) → k.Alone init := by
  intro k reached
  obtain ⟨procs, kids, queue, init, inv⟩ := reached.invariant
  refine ⟨⟨procs, kids, inv.family⟩, ?_, ?_⟩
  · intro event text enabled failed
    have listed := reached.halts enabled failed
    simp [panics] at listed
  · intro init' initproc first nobody
    cases Option.some.inj (inv.stable.initproc.symm.trans initproc)
    obtain ⟨haskid, found, searched, -, -, none⟩ := waitSearch_spec inv.stable.core inv.stable.current 0
    obtain ⟨rfl, rfl⟩ := Prod.mk.inj (Except.ok.inj (searched.symm.trans nobody))
    apply inv.alone
    rw [← first]
    exact List.eq_nil_iff_forall_not_mem.mpr (fun child below => (none rfl).2 child below (Or.inl rfl))

/-- With `initproc` asleep and `user_main` on the processor. -/
theorem family_consistent_user_main : ∃ k, Reachable .rr k ∧ k.table.nrProcess = 3 ∧ ∃ procs kids, k.Family procs kids := by
  have reaches : ∃ k, Reachable .rr k ∧ k.table.nrProcess = 3 :=
    @playFrom_reaches .rr [.resume, .initMain (granting 2), .resume] _ _ (by decide +kernel)
  obtain ⟨k, reached, count⟩ := reaches
  exact ⟨k, reached, count, (family_consistent .rr k reached).1⟩

end Ucore.Kernel
