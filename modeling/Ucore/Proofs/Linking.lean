import Mathlib
import Ucore.Proofs.ProcTable
import Ucore.Proofs.ProcTree

/-! A process enters and leaves the table: the pid, the hash list, `proc_list`, the
counter and the family pointers change together. -/

namespace Ucore.ProcTable
open Lib

structure Consistent (table : ProcTable) (idle : Ptr) (procs : List Ptr) (kids : Ptr → List Ptr) : Prop where
  indexed : table.Indexed idle procs
  tree : table.Tree idle none procs kids

variable {table : ProcTable} {idle proc parent : Ptr} {procs : List Ptr} {kids : Ptr → List Ptr}

variable (table) in
/-- What `set_links` computes when the parent is known. -/
theorem setLinks_spec (up : table.parent proc = some parent)
    (foreign : ∀ older ∈ table.cptr parent, older ≠ proc) :
    ∃ after, table.setLinks proc = .ok after ∧ after.procList = listAdd none (some proc) table.procList ∧
      after.hashList = table.hashList ∧ after.pid = table.pid ∧ after.nrProcess = table.nrProcess + 1 ∧
      after.lastPid = table.lastPid ∧ after.nextSafe = table.nextSafe ∧ after.parent = table.parent ∧
      after.cptr = Function.update table.cptr parent (some proc) ∧ Pushes table after proc parent := by
  simp only [setLinks, setYptr, up, deref, ok_bind, setOptr, Function.update_self]
  cases eldest : table.cptr parent with
  | none =>
    refine ⟨_, rfl, rfl, rfl, rfl, rfl, rfl, rfl, rfl, rfl, ?_⟩
    refine ⟨by rw [eldest]; rfl, Function.update_self _ _ _, ?_, ?_⟩
    · intro older top
      rw [eldest] at top
      cases top
    · exact fun inner away _ => Function.update_of_ne away _ _
  | some older =>
    have away := foreign older eldest
    refine ⟨_, rfl, rfl, rfl, rfl, rfl, rfl, rfl, rfl, rfl, ?_⟩
    refine ⟨by rw [eldest]; rfl, ?_, ?_, ?_⟩
    · exact (Function.update_of_ne away.symm _ _).trans (Function.update_self _ _ _)
    · intro inner top
      rw [eldest] at top
      cases top
      exact Function.update_self _ _ _
    · intro inner notProc notOlder
      have notSame : inner ≠ older := by
        rintro rfl
        exact notOlder eldest
      exact (Function.update_of_ne notSame _ _).trans (Function.update_of_ne notProc _ _)

/-- The child of a `do_fork` enters the table of its parent. -/
theorem Consistent.enlist (consistent : table.Consistent idle procs kids) (fresh : proc ∉ idle :: procs)
    (live : parent ∈ idle :: procs) (up : table.parent proc = some parent) (childless : table.cptr proc = none)
    (room : procs.length + 1 < maxProcess) :
    ∃ pid searched after, table.getPid = .ok (pid, searched) ∧
      (({ searched with pid := Function.update searched.pid proc pid } : ProcTable).hashProc proc).setLinks proc = .ok after ∧
      after.Consistent idle (proc :: procs) (Function.update (Function.update kids proc []) parent (proc :: kids parent)) ∧
      after.pid = Function.update table.pid proc pid ∧ after.parent = table.parent := by
  obtain ⟨indexed, tree⟩ := consistent
  obtain ⟨pid, nextSafe, searched, low, below, high, gap⟩ := getPid_spec indexed.listed indexed.room indexed.last indexed.safe
    indexed.gap
  have foreign : ∀ older ∈ table.cptr parent, older ≠ proc := by
    intro older top
    rw [tree.eldest parent live] at top
    exact ne_of_mem_of_not_mem (List.mem_cons_of_mem _ (tree.kids_member live (List.mem_of_head? top))) fresh
  obtain ⟨after, linked, procList, hashList, pids, count, last, safe, parents, cptr, pushes⟩ := setLinks_spec
    (({ table with lastPid := pid, nextSafe := nextSafe, pid := Function.update table.pid proc pid } : ProcTable).hashProc
      proc) up foreign
  refine ⟨pid, _, after, searched, linked, ⟨?_, ?_⟩, pids, parents⟩
  · apply indexed.add fresh room low below high gap procList ?_ pids count last safe
    have own : Function.update table.pid proc pid proc = pid := Function.update_self _ _ _
    rw [← own]
    exact hashList
  · apply tree.link indexed.root fresh live childless ?_ ?_ cptr ⟨pushes.optr, pushes.youngest, pushes.elder, pushes.same⟩
    · rw [parents]
      exact up
    · intro inner _
      rw [parents]
      rfl

variable (table) in
/-- What `remove_links` computes when the parent is known. -/
theorem removeLinks_spec (up : table.parent proc = some parent) (apart : ∀ older ∈ table.optr proc, older ≠ proc) :
    ∃ after, table.removeLinks proc = .ok after ∧ after.procList = listDel (some proc) table.procList ∧
      after.hashList = table.hashList ∧ after.pid = table.pid ∧ after.nrProcess = table.nrProcess - 1 ∧
      after.lastPid = table.lastPid ∧ after.nextSafe = table.nextSafe ∧ after.parent = table.parent ∧
      (after.cptr = match table.yptr proc with
        | some _ => table.cptr
        | none => Function.update table.cptr parent (table.optr proc)) ∧
      (∀ younger ∈ table.yptr proc, after.optr younger = table.optr proc) ∧
      (∀ inner, inner ∉ table.yptr proc → after.optr inner = table.optr inner) ∧
      (∀ older ∈ table.optr proc, after.yptr older = table.yptr proc) ∧
      (∀ inner, inner ∉ table.optr proc → after.yptr inner = table.yptr inner) := by
  have other : ∀ {pointer : Option Ptr} {inner : Ptr}, inner ∉ pointer → ∀ {value}, pointer = some value → inner ≠ value := by
    rintro pointer inner outside value rfl rfl
    exact outside rfl
  cases older : table.optr proc with
  | none =>
    cases younger : table.yptr proc with
    | none =>
      refine ⟨{ table with
        procList := listDel (some proc) table.procList
        cptr := Function.update table.cptr parent none
        nrProcess := table.nrProcess - 1 }, ?_, rfl, rfl, rfl, rfl, rfl, rfl, rfl, rfl, ?_, ?_, ?_, ?_⟩
      · simp only [removeLinks, older, younger, up, deref, ok_bind, setCptr]
      · exact fun _ top => nomatch top
      · exact fun _ _ => rfl
      · exact fun _ top => nomatch top
      · exact fun _ _ => rfl
    | some next =>
      refine ⟨{ table with
        procList := listDel (some proc) table.procList
        optr := Function.update table.optr next none
        nrProcess := table.nrProcess - 1 }, ?_, rfl, rfl, rfl, rfl, rfl, rfl, rfl, rfl, ?_, ?_, ?_, ?_⟩
      · simp only [removeLinks, older, younger, ok_bind, setOptr]
      · intro inner top
        cases top
        exact Function.update_self _ _ _
      · exact fun inner outside => Function.update_of_ne (other outside rfl) _ _
      · exact fun _ top => nomatch top
      · exact fun _ _ => rfl
  | some elder =>
    have away : proc ≠ elder := (apart elder older).symm
    cases younger : table.yptr proc with
    | none =>
      refine ⟨{ table with
        procList := listDel (some proc) table.procList
        yptr := Function.update table.yptr elder none
        cptr := Function.update table.cptr parent (some elder)
        nrProcess := table.nrProcess - 1 }, ?_, rfl, rfl, rfl, rfl, rfl, rfl, rfl, rfl, ?_, ?_, ?_, ?_⟩
      · simp only [removeLinks, older, younger, up, deref, ok_bind, setCptr, setYptr, Function.update_of_ne away]
      · exact fun _ top => nomatch top
      · exact fun _ _ => rfl
      · intro inner top
        cases top
        exact Function.update_self _ _ _
      · exact fun inner outside => Function.update_of_ne (other outside rfl) _ _
    | some next =>
      refine ⟨{ table with
        procList := listDel (some proc) table.procList
        yptr := Function.update table.yptr elder (some next)
        optr := Function.update table.optr next (some elder)
        nrProcess := table.nrProcess - 1 }, ?_, rfl, rfl, rfl, rfl, rfl, rfl, rfl, rfl, ?_, ?_, ?_, ?_⟩
      · simp only [removeLinks, older, younger, ok_bind, setYptr, setOptr, Function.update_of_ne away]
      · intro inner top
        cases top
        exact Function.update_self _ _ _
      · exact fun inner outside => Function.update_of_ne (other outside rfl) _ _
      · intro inner top
        cases top
        exact Function.update_self _ _ _
      · exact fun inner outside => Function.update_of_ne (other outside rfl) _ _

/-- A process without children leaves the table. -/
theorem Consistent.dismiss (consistent : table.Consistent idle procs kids) (member : proc ∈ procs)
    (childless : kids proc = []) (live : parent ∈ idle :: procs) (up : table.parent proc = some parent) :
    ∃ after, (table.unhashProc proc).removeLinks proc = .ok after ∧
      after.Consistent idle (procs.erase proc) (Function.update kids parent ((kids parent).erase proc)) ∧
      after.pid = table.pid ∧ after.parent = table.parent := by
  obtain ⟨indexed, tree⟩ := consistent
  have apart : ∀ older ∈ table.optr proc, older ≠ proc := by
    have inside : proc ∈ kids parent := (tree.family parent live proc).mpr ⟨member, up⟩
    obtain ⟨front, back, split⟩ := List.append_of_mem inside
    have distinct := tree.distinct parent live
    have forward := tree.older parent live
    rw [split] at distinct forward
    rw [forward.next_node]
    rintro older top rfl
    have second := (List.nodup_append.mp distinct).2.1
    exact (List.nodup_cons.mp second).1 (List.mem_of_head? top)
  obtain ⟨after, removed, procList, hashList, pids, count, last, safe, parents, cptr, optrNew, optrSame, yptrNew, yptrSame⟩ :=
    removeLinks_spec (table.unhashProc proc) up apart
  refine ⟨after, removed, ⟨?_, ?_⟩, pids, parents⟩
  · exact indexed.remove member procList hashList pids count last safe
  · exact tree.unlink member indexed.distinct childless live up parents cptr optrNew optrSame yptrNew yptrSame

variable (table) in
/-- What one round of the loop in `do_exit` computes. -/
theorem giveChild_spec {giver : Ptr} (apart : parent ≠ giver) (foreign : ∀ older ∈ table.cptr parent, older ≠ proc) :
    Pushes table (table.giveChild giver proc parent) proc parent ∧
      (table.giveChild giver proc parent).cptr =
        Function.update (Function.update table.cptr giver (table.optr proc)) parent (some proc) ∧
      (table.giveChild giver proc parent).parent = Function.update table.parent proc (some parent) := by
  have eldest : Function.update table.cptr giver (table.optr proc) parent = table.cptr parent := Function.update_of_ne apart _ _
  simp only [giveChild, setCptr, setYptr, setOptr, setParent, eldest, Function.update_self]
  cases top : table.cptr parent with
  | none =>
    refine ⟨⟨by rw [top], Function.update_self _ _ _, ?_, ?_⟩, rfl, rfl⟩
    · intro older found
      rw [top] at found
      cases found
    · exact fun inner away _ => Function.update_of_ne away _ _
  | some older =>
    have away := foreign older top
    refine ⟨⟨by rw [top], ?_, ?_, ?_⟩, rfl, rfl⟩
    · exact (Function.update_of_ne away.symm _ _).trans (Function.update_self _ _ _)
    · intro inner found
      rw [top] at found
      cases found
      exact Function.update_self _ _ _
    · intro inner notProc notOlder
      have notSame : inner ≠ older := by
        rintro rfl
        exact notOlder top
      exact (Function.update_of_ne notSame _ _).trans (Function.update_of_ne notProc _ _)

theorem giveChild_index (giver proc parent : Ptr) (table : ProcTable) :
    (table.giveChild giver proc parent).procList = table.procList ∧
      (table.giveChild giver proc parent).hashList = table.hashList ∧ (table.giveChild giver proc parent).pid = table.pid ∧
      (table.giveChild giver proc parent).nrProcess = table.nrProcess ∧
      (table.giveChild giver proc parent).lastPid = table.lastPid ∧
      (table.giveChild giver proc parent).nextSafe = table.nextSafe := by
  simp only [giveChild, setCptr, setYptr, setOptr, setParent]
  split
  · exact ⟨rfl, rfl, rfl, rfl, rfl, rfl⟩
  · exact ⟨rfl, rfl, rfl, rfl, rfl, rfl⟩

/-- One round of the loop, for both halves of the table. -/
theorem give {giver : Ptr} {rest : List Ptr} (indexed : table.Indexed idle procs)
    (tree : table.Tree idle (some giver) procs kids) (source : giver ∈ procs) (first : kids giver = proc :: rest)
    (live : parent ∈ procs) (apart : parent ≠ giver) (top : table.parent parent = some idle) :
    (table.giveChild giver proc parent).Indexed idle procs ∧
      (table.giveChild giver proc parent).Tree idle (some giver) procs
        (Function.update (Function.update kids giver rest) parent (proc :: kids parent)) := by
  have sourceLive : giver ∈ idle :: procs := List.mem_cons_of_mem _ source
  have parentLive : parent ∈ idle :: procs := List.mem_cons_of_mem _ live
  have older := tree.older giver sourceLive
  rw [first] at older
  have foreign : ∀ inner ∈ table.cptr parent, inner ≠ proc := by
    rintro inner eldest rfl
    rw [tree.eldest parent parentLive] at eldest
    exact apart (tree.disjoint parentLive sourceLive (List.mem_of_head? eldest) (first ▸ List.mem_cons_self))
  obtain ⟨procList, hashList, pids, count, last, safe⟩ := giveChild_index giver proc parent table
  obtain ⟨pushes, cptr, parents⟩ := giveChild_spec table apart foreign
  rw [older.1] at cptr
  exact ⟨indexed.frame procList hashList (fun inner _ => congrFun pids inner) count last safe,
    tree.move indexed.root source first live apart top parents cptr pushes⟩

end Ucore.ProcTable
