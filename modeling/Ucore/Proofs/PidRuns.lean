import Ucore.Proofs.PidSearch

/-! The pids that `get_pid` gives in runs in which processes come into `proc_list` and
leave it again. -/

namespace Ucore.ProcTable
open Lib

/-- `get_pid` for a new process, which comes into `proc_list` with that pid. -/
def create (proc : Ptr) (table : ProcTable) : Kern (Int × ProcTable) := do
  let (pid, table) ← table.getPid
  let table ← { table with pid := Function.update table.pid proc pid }.setLinks proc
  .ok (pid, table)

/-- What `get_pid` looks at is the same in both tables. -/
structure SamePids (table other : ProcTable) (procs : List Ptr) : Prop where
  procList : other.procList = table.procList
  pid : ∀ proc ∈ procs, other.pid proc = table.pid proc
  lastPid : other.lastPid = table.lastPid
  nextSafe : other.nextSafe = table.nextSafe

/-- The tables with the processes in `proc_list` that creations and removals reach, with
anything else happening in between. -/
inductive PidRun : ProcTable → List Ptr → Prop where
  | start {table : ProcTable} (empty : table.procList.Ring none []) (lastPid : table.lastPid = maxPid)
      (nextSafe : table.nextSafe = maxPid) : PidRun table []
  | create {table table' : ProcTable} {procs : List Ptr} {proc : Ptr} {pid : Int} (run : PidRun table procs)
      (few : procs.length < maxProcess) (fresh : proc ∉ procs) (created : table.create proc = .ok (pid, table')) :
      PidRun table' (proc :: procs)
  | remove {table table' : ProcTable} {procs : List Ptr} {proc : Ptr} (run : PidRun table procs) (member : proc ∈ procs)
      (removed : table.removeLinks proc = .ok table') : PidRun table' (procs.erase proc)
  | other {table table' : ProcTable} {procs : List Ptr} (run : PidRun table procs) (same : SamePids table table' procs) :
      PidRun table' procs

/-- `last_pid` and `next_safe` bound a gap in the pids of the processes. -/
structure Counting (table : ProcTable) (procs : List Ptr) : Prop where
  ring : table.procList.Ring none (procs.map some)
  last : 1 ≤ table.lastPid
  safe : table.nextSafe ≤ maxPid
  gap : table.Gap procs (table.lastPid + 1) table.nextSafe

variable {table table' : ProcTable} {procs : List Ptr} {proc : Ptr} {pid : Int}

private theorem setLinks_pids (linked : table.setLinks proc = .ok table') :
    table'.procList = listAdd none (some proc) table.procList ∧ table'.pid = table.pid ∧
      table'.lastPid = table.lastPid ∧ table'.nextSafe = table.nextSafe := by
  rw [setLinks] at linked
  obtain ⟨parent, -, rest⟩ := bind_ok linked
  cases rest
  dsimp only
  split <;> exact ⟨rfl, rfl, rfl, rfl⟩

private theorem removeLinks_pids (removed : table.removeLinks proc = .ok table') :
    table'.procList = listDel (some proc) table.procList ∧ table'.pid = table.pid ∧
      table'.lastPid = table.lastPid ∧ table'.nextSafe = table.nextSafe := by
  cases older : table.optr proc with
  | none =>
    cases younger : table.yptr proc with
    | none =>
      cases up : table.parent proc with
      | none => simp [removeLinks, older, younger, up, deref] at removed
      | some parent =>
        simp only [removeLinks, older, younger, up, deref, ok_bind] at removed
        cases removed
        exact ⟨rfl, rfl, rfl, rfl⟩
    | some next =>
      simp only [removeLinks, older, younger, ok_bind] at removed
      cases removed
      exact ⟨rfl, rfl, rfl, rfl⟩
  | some elder =>
    have kept : Function.update table.yptr elder (table.yptr proc) proc = table.yptr proc := by
      by_cases own : proc = elder
      · rw [own, Function.update_self]
      · rw [Function.update_of_ne own]
    cases younger : table.yptr proc with
    | none =>
      rw [younger] at kept
      cases up : table.parent proc with
      | none => simp [removeLinks, older, younger, up, deref, setYptr, kept] at removed
      | some parent =>
        simp only [removeLinks, older, younger, up, deref, ok_bind, setYptr, kept] at removed
        cases removed
        exact ⟨rfl, rfl, rfl, rfl⟩
    | some next =>
      rw [younger] at kept
      simp only [removeLinks, older, younger, ok_bind, setYptr, kept] at removed
      cases removed
      exact ⟨rfl, rfl, rfl, rfl⟩

theorem Counting.getPid (counting : table.Counting procs) (few : procs.length < maxProcess) :
    ∃ pid nextSafe, table.getPid = .ok (pid, { table with lastPid := pid, nextSafe := nextSafe }) ∧
      1 ≤ pid ∧ pid < nextSafe ∧ nextSafe ≤ maxPid ∧ table.Gap procs pid nextSafe :=
  getPid_spec counting.ring few counting.last counting.safe counting.gap

theorem Counting.create (counting : table.Counting procs) (few : procs.length < maxProcess) (fresh : proc ∉ procs)
    (created : table.create proc = .ok (pid, table')) : table'.Counting (proc :: procs) := by
  obtain ⟨pid, nextSafe, found, low, below, high, gap⟩ := counting.getPid few
  rw [ProcTable.create, found, ok_bind] at created
  obtain ⟨linked, links, rest⟩ := bind_ok created
  cases rest
  obtain ⟨procList, pids, lastPid, safe⟩ := setLinks_pids links
  constructor
  · rw [procList, List.map_cons]
    refine listAdd_head counting.ring ?_
    simpa only [List.mem_cons, reduceCtorEq, List.mem_map_of_injective (Option.some_injective _), false_or] using fresh
  · rw [lastPid]
    exact low
  · rw [safe]
    exact high
  · rw [lastPid, safe]
    intro other member
    rw [pids]
    rcases List.mem_cons.mp member with rfl | member
    · left
      simp only [Function.update_self]
      exact Int.lt_succ pid
    · have away : other ≠ proc := fun same => fresh (same ▸ member)
      simp only [Function.update_of_ne away]
      have outside := gap other member
      omega

theorem Counting.remove (counting : table.Counting procs) (member : proc ∈ procs)
    (removed : table.removeLinks proc = .ok table') : table'.Counting (procs.erase proc) := by
  obtain ⟨procList, pids, lastPid, safe⟩ := removeLinks_pids removed
  have distinct : procs.Nodup := List.Nodup.of_map some (List.nodup_cons.mp counting.ring.distinct).2
  constructor
  · obtain ⟨front, back, rfl⟩ := List.append_of_mem member
    have absent : proc ∉ front := by
      intro inside
      exact (List.nodup_append.mp distinct).2.2 proc inside proc List.mem_cons_self rfl
    have ring := counting.ring
    rw [List.map_append, List.map_cons] at ring
    rw [procList, List.erase_append_right _ absent, List.erase_cons_head, List.map_append]
    exact listDel_node ring
  · rw [lastPid]
    exact counting.last
  · rw [safe]
    exact counting.safe
  · rw [lastPid, safe]
    intro other inside
    rw [pids]
    exact counting.gap other (List.mem_of_mem_erase inside)

theorem Counting.other (counting : table.Counting procs) (same : SamePids table table' procs) : table'.Counting procs := by
  constructor
  · rw [same.procList]
    exact counting.ring
  · rw [same.lastPid]
    exact counting.last
  · rw [same.nextSafe]
    exact counting.safe
  · rw [same.lastPid, same.nextSafe]
    intro other member
    rw [same.pid other member]
    exact counting.gap other member

theorem PidRun.counting (run : PidRun table procs) : table.Counting procs := by
  induction run with
  | start empty lastPid nextSafe =>
    refine ⟨empty, ?_, nextSafe.le, fun other member => absurd member List.not_mem_nil⟩
    rw [lastPid, maxPid_eq]
    decide
  | create _ few fresh created counting => exact counting.create few fresh created
  | remove _ member removed counting => exact counting.remove member removed
  | other _ same counting => exact counting.other same

/-- In every run `get_pid` ends with a pid in range that no process of `proc_list` has. -/
theorem fresh_pids (run : PidRun table procs) (few : procs.length < maxProcess) :
    ∃ pid table', table.getPid = .ok (pid, table') ∧ 1 ≤ pid ∧ pid < maxPid ∧ ∀ proc ∈ procs, table'.pid proc ≠ pid := by
  obtain ⟨pid, nextSafe, found, low, below, high, gap⟩ := run.counting.getPid few
  exact ⟨pid, _, found, low, by omega, gap.free below⟩

/-- The table before the first process, whose parent is to be the process 0. -/
def initialTable : ProcTable where
  procList := listInit none ⟨fun _ => none, fun _ => none⟩
  hashList := ⟨id, id⟩
  pid _ := 0
  parent _ := some 0
  cptr _ := none
  yptr _ := none
  optr _ := none
  nrProcess := 1
  lastPid := maxPid
  nextSafe := maxPid

theorem fresh_pids_second : ∃ first, initialTable.create 1 = .ok (1, first) ∧
    ∃ pid table', first.getPid = .ok (pid, table') ∧ 1 ≤ pid ∧ pid < maxPid ∧ ∀ proc ∈ [1], table'.pid proc ≠ pid := by
  refine ⟨_, rfl, ?_⟩
  have start : PidRun initialTable [] := .start (listInit_ring none _) rfl rfl
  exact fresh_pids (.create start (by decide) List.not_mem_nil rfl) (by decide)

end Ucore.ProcTable
