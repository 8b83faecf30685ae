import Mathlib
import Ucore.Proofs.PidSearch

/-! The processes of the table are indexed by `proc_list`, by the hash lists and
by the pid counter. `procs` are all processes but the idle one, the latest first. -/

namespace Ucore.ProcTable
open Lib

/-- `proc_list`, the hash lists, the counter and the pids agree on `procs`. -/
structure Indexed (table : ProcTable) (idle : Ptr) (procs : List Ptr) : Prop where
  listed : table.procList.Ring none (procs.map some)
  hashed : ∀ index < hashListSize, ∃ chain : List Ptr,
    table.hashList.Ring (.bucket index) (chain.map .hashLink) ∧
      ∀ proc, proc ∈ chain ↔ proc ∈ procs ∧ pidHashfn (table.pid proc) = index
  count : table.nrProcess = procs.length + 1
  room : procs.length < maxProcess
  root : idle ∉ procs
  idlePid : table.pid idle = 0
  pids : ∀ proc ∈ procs, 1 ≤ table.pid proc ∧ table.pid proc < maxPid
  unique : ∀ proc ∈ procs, ∀ other ∈ procs, table.pid proc = table.pid other → proc = other
  last : 1 ≤ table.lastPid
  safe : table.nextSafe ≤ maxPid
  gap : table.Gap procs (table.lastPid + 1) table.nextSafe

variable {table other : ProcTable} {idle proc : Ptr} {procs : List Ptr}

theorem pidHashfn_lt (pid : Int) : pidHashfn pid < hashListSize := by
  have bound := ((BitVec.ofInt 32 pid) * 0x9e370001#32).isLt
  simp only [pidHashfn, hash32, hashShift, hashListSize, BitVec.toNat_ushiftRight, Nat.shiftRight_eq_div_pow]
  omega

section Find

/-- The walk along one hash list. -/
theorem findProcLoop_spec {head : HashLink} {chain front back : List Ptr} (pid : Int)
    (ring : table.hashList.Ring head (chain.map .hashLink)) (split : chain = front ++ back) (fuel : Nat)
    (enough : back.length < fuel) :
    ∃ found, table.findProcLoop pid head fuel ((front.map .hashLink).getLastD head) = .ok found ∧
      (∀ proc, found = some proc → proc ∈ back ∧ table.pid proc = pid) ∧
      (found = none → ∀ proc ∈ back, table.pid proc ≠ pid) := by
  induction back generalizing front fuel with
  | nil =>
    cases fuel with
    | zero => exact absurd enough (Nat.not_lt_zero _)
    | succ fuel =>
      have last : table.hashList.next ((front.map .hashLink).getLastD head) = head := by
        rw [split, List.append_nil] at ring
        rcases List.eq_nil_or_concat front with rfl | ⟨front, last, rfl⟩
        · exact ring.next_head
        · rw [List.concat_eq_append, List.map_append, List.map_singleton] at ring
          rw [List.concat_eq_append, List.map_append, List.map_singleton, List.getLastD_concat]
          exact ring.next_node
      refine ⟨none, by rw [findProcLoop, if_pos last], fun _ found => (nomatch found), ?_⟩
      exact fun _ proc inside => absurd inside List.not_mem_nil
  | cons first back ih =>
    cases fuel with
    | zero => exact absurd enough (Nat.not_lt_zero _)
    | succ fuel =>
      have next : table.hashList.next ((front.map .hashLink).getLastD head) = .hashLink first := by
        rw [split, List.map_append] at ring
        rcases List.eq_nil_or_concat front with rfl | ⟨front, last, rfl⟩
        · exact ring.next_head
        · rw [List.concat_eq_append, List.map_append, List.map_singleton, List.append_assoc] at ring
          rw [List.concat_eq_append, List.map_append, List.map_singleton, List.getLastD_concat]
          exact ring.next_node
      have away : HashLink.hashLink first ≠ head := by
        have distinct := (List.nodup_cons.mp ring.distinct).1
        rw [split] at distinct
        exact fun same => distinct (by simp [← same])
      have split' : chain = (front ++ [first]) ++ back := by rw [split, List.append_assoc, List.singleton_append]
      obtain ⟨found, walked, hit, miss⟩ := ih split' fuel (Nat.lt_of_succ_lt_succ enough)
      rw [List.map_append, List.map_singleton, List.getLastD_concat] at walked
      rw [findProcLoop, next, if_neg away]
      simp only [HashLink.le2proc, ok_bind]
      by_cases same : table.pid first = pid
      · rw [if_pos same]
        refine ⟨some first, rfl, ?_, fun none => (nomatch none)⟩
        intro proc found
        cases found
        exact ⟨List.mem_cons_self, same⟩
      · rw [if_neg same]
        refine ⟨found, walked, ?_, ?_⟩
        · intro proc top
          exact ⟨List.mem_cons_of_mem _ (hit proc top).1, (hit proc top).2⟩
        · intro none proc inside
          rcases List.mem_cons.mp inside with rfl | inner
          · exact same
          · exact miss none proc inner

theorem findProc_spec (indexed : table.Indexed idle procs) (pid : Int) :
    ∃ found, table.findProc pid = .ok found ∧ ∀ proc, found = some proc ↔ proc ∈ procs ∧ table.pid proc = pid := by
  rw [findProc]
  by_cases range : 0 < pid ∧ pid < maxPid
  · rw [if_pos range]
    obtain ⟨chain, ring, members⟩ := indexed.hashed (pidHashfn pid) (pidHashfn_lt pid)
    have distinct : chain.Nodup := List.Nodup.of_map _ (List.nodup_cons.mp ring.distinct).2
    have few : chain.length ≤ procs.length :=
      (distinct.subperm (fun proc inside => ((members proc).mp inside).1)).length_le
    obtain ⟨found, walked, hit, miss⟩ := findProcLoop_spec pid ring (show chain = [] ++ chain from rfl) maxProcess
      (few.trans_lt indexed.room)
    refine ⟨found, walked, ?_⟩
    intro proc
    refine ⟨fun top => ?_, fun ⟨member, same⟩ => ?_⟩
    · exact ⟨((members proc).mp (hit proc top).1).1, (hit proc top).2⟩
    · cases found with
      | none => exact absurd same (miss rfl proc ((members proc).mpr ⟨member, congrArg pidHashfn same⟩))
      | some result =>
        obtain ⟨inside, equal⟩ := hit result rfl
        rw [indexed.unique proc member result ((members result).mp inside).1 (same.trans equal.symm)]
  · rw [if_neg range]
    refine ⟨none, rfl, fun proc => ⟨fun top => (nomatch top), fun ⟨member, same⟩ => ?_⟩⟩
    have bounds := indexed.pids proc member
    omega

end Find

section Index

theorem Indexed.frame (indexed : table.Indexed idle procs) (procList : other.procList = table.procList)
    (hashList : other.hashList = table.hashList) (pid : ∀ proc ∈ idle :: procs, other.pid proc = table.pid proc)
    (count : other.nrProcess = table.nrProcess) (last : other.lastPid = table.lastPid)
    (safe : other.nextSafe = table.nextSafe) : other.Indexed idle procs where
  listed := procList ▸ indexed.listed
  hashed index bound := by
    obtain ⟨chain, ring, members⟩ := indexed.hashed index bound
    refine ⟨chain, hashList ▸ ring, fun proc => (members proc).trans (and_congr_right ?_)⟩
    intro member
    rw [pid proc (List.mem_cons_of_mem _ member)]
  count := count ▸ indexed.count
  room := indexed.room
  root := indexed.root
  idlePid := (pid idle List.mem_cons_self).trans indexed.idlePid
  pids proc member := pid proc (List.mem_cons_of_mem _ member) ▸ indexed.pids proc member
  unique first firstMember second secondMember same := by
    rw [pid first (List.mem_cons_of_mem _ firstMember), pid second (List.mem_cons_of_mem _ secondMember)] at same
    exact indexed.unique first firstMember second secondMember same
  last := last ▸ indexed.last
  safe := safe ▸ indexed.safe
  gap proc member := by
    rw [pid proc (List.mem_cons_of_mem _ member), last, safe]
    exact indexed.gap proc member

private theorem hashed_add (indexed : table.Indexed idle procs) {pid : Int} (absent : proc ∉ procs) :
    ∀ index < hashListSize, ∃ chain : List Ptr,
      (listAdd (.bucket (pidHashfn pid)) (.hashLink proc) table.hashList).Ring (.bucket index) (chain.map .hashLink) ∧
        ∀ inner, inner ∈ chain ↔
          inner ∈ proc :: procs ∧ pidHashfn (Function.update table.pid proc pid inner) = index := by
  intro index bound
  have elsewhere : ∀ inner ∈ procs, Function.update table.pid proc pid inner = table.pid inner :=
    fun inner inside => Function.update_of_ne (ne_of_mem_of_not_mem inside absent) _ _
  obtain ⟨own, ownRing, ownMembers⟩ := indexed.hashed (pidHashfn pid) (pidHashfn_lt pid)
  have fresh : proc ∉ own := fun inside => absent ((ownMembers proc).mp inside).1
  by_cases same : index = pidHashfn pid
  · subst same
    refine ⟨proc :: own, ?_, ?_⟩
    · rw [List.map_cons]
      exact listAdd_head ownRing (by simpa using fresh)
    · intro inner
      by_cases new : inner = proc
      · rw [new, Function.update_self]
        simp only [List.mem_cons, true_or, true_and]
      · rw [List.mem_cons, List.mem_cons, Function.update_of_ne new, ownMembers inner]
        simp only [new, false_or]
  · obtain ⟨chain, ring, members⟩ := indexed.hashed index bound
    refine ⟨chain, ring.apart (listAdd_outside ownRing (.hashLink proc)) ?_, ?_⟩
    · intro node inside
      simp only [List.mem_cons, List.mem_map, not_or, not_exists, not_and] at inside ⊢
      rcases inside with rfl | ⟨inner, member, rfl⟩
      · exact ⟨nofun, fun eq => same (HashLink.bucket.inj eq), fun _ _ => nofun⟩
      · obtain ⟨listed, hash⟩ := (members inner).mp member
        refine ⟨fun eq => absent (HashLink.hashLink.inj eq ▸ listed), nofun, fun another inOwn eq => same ?_⟩
        rw [← hash, ← HashLink.hashLink.inj eq]
        exact ((ownMembers another).mp inOwn).2
    · intro inner
      rw [members inner, List.mem_cons]
      by_cases new : inner = proc
      · rw [new, Function.update_self]
        exact ⟨fun ⟨listed, _⟩ => absurd listed absent, fun ⟨_, hash⟩ => absurd hash.symm same⟩
      · rw [Function.update_of_ne new]
        simp only [new, false_or]

private theorem hashed_remove (indexed : table.Indexed idle procs) (member : proc ∈ procs) (distinct : procs.Nodup) :
    ∀ index < hashListSize, ∃ chain : List Ptr,
      (listDel (.hashLink proc) table.hashList).Ring (.bucket index) (chain.map .hashLink) ∧
        ∀ inner, inner ∈ chain ↔ inner ∈ procs.erase proc ∧ pidHashfn (table.pid inner) = index := by
  intro index bound
  obtain ⟨own, ownRing, ownMembers⟩ := indexed.hashed (pidHashfn (table.pid proc)) (pidHashfn_lt _)
  obtain ⟨front, back, rfl⟩ := List.append_of_mem ((ownMembers proc).mpr ⟨member, rfl⟩)
  have ownDistinct : (front ++ proc :: back).Nodup := List.Nodup.of_map _ (List.nodup_cons.mp ownRing.distinct).2
  rw [List.map_append, List.map_cons] at ownRing
  have edit := listDel_outside ownRing
  by_cases same : index = pidHashfn (table.pid proc)
  · subst same
    refine ⟨front ++ back, ?_, ?_⟩
    · rw [List.map_append]
      exact listDel_node ownRing
    · intro inner
      rw [distinct.mem_erase_iff, and_assoc, ← ownMembers inner]
      grind
  · obtain ⟨chain, ring, members⟩ := indexed.hashed index bound
    have others : ∀ inner ∈ chain, inner ∉ front ++ proc :: back := fun inner inside own =>
      same (((members inner).mp inside).2.symm.trans ((ownMembers inner).mp own).2)
    refine ⟨chain, ring.apart edit ?_, ?_⟩
    · intro node inside
      rw [← List.map_append]
      simp only [List.mem_cons, List.mem_map, not_or, not_exists, not_and] at inside ⊢
      rcases inside with rfl | ⟨inner, listed, rfl⟩
      · exact ⟨fun eq => same (HashLink.bucket.inj eq), fun _ _ => nofun⟩
      · refine ⟨nofun, fun another inOwn eq => others inner listed ?_⟩
        rw [← HashLink.hashLink.inj eq]
        grind
    · intro inner
      rw [members inner, distinct.mem_erase_iff, and_assoc]
      refine ⟨fun ⟨listed, hash⟩ => ⟨?_, listed, hash⟩, fun ⟨_, listed, hash⟩ => ⟨listed, hash⟩⟩
      rintro rfl
      exact same hash.symm

theorem Indexed.distinct (indexed : table.Indexed idle procs) : procs.Nodup :=
  List.Nodup.of_map _ (List.nodup_cons.mp indexed.listed.distinct).2

/-- A process enters under the pid that `get_pid` found. -/
theorem Indexed.add (indexed : table.Indexed idle procs) {pid nextSafe : Int} (absent : proc ∉ idle :: procs)
    (room : procs.length + 1 < maxProcess) (low : 1 ≤ pid) (below : pid < nextSafe) (high : nextSafe ≤ maxPid)
    (gap : table.Gap procs pid nextSafe) (procList : other.procList = listAdd none (some proc) table.procList)
    (hashList : other.hashList = listAdd (.bucket (pidHashfn pid)) (.hashLink proc) table.hashList)
    (pids : other.pid = Function.update table.pid proc pid) (count : other.nrProcess = table.nrProcess + 1)
    (last : other.lastPid = pid) (safe : other.nextSafe = nextSafe) : other.Indexed idle (proc :: procs) := by
  rw [List.mem_cons, not_or] at absent
  have own : other.pid proc = pid := by rw [pids, Function.update_self]
  have elsewhere : ∀ inner ∈ procs, other.pid inner = table.pid inner := fun inner inside => by
    rw [pids, Function.update_of_ne (ne_of_mem_of_not_mem inside absent.2)]
  have free := gap.free below
  constructor
  case listed =>
    rw [procList, List.map_cons]
    exact listAdd_head indexed.listed (by simpa using absent.2)
  case hashed =>
    rw [hashList, pids]
    exact hashed_add indexed absent.2
  case count =>
    rw [count, indexed.count, List.length_cons]
    push_cast
    rfl
  case room => exact room
  case root =>
    rw [List.mem_cons, not_or]
    exact ⟨Ne.symm absent.1, indexed.root⟩
  case idlePid =>
    rw [pids, Function.update_of_ne (Ne.symm absent.1)]
    exact indexed.idlePid
  case pids =>
    intro inner inside
    rcases List.mem_cons.mp inside with rfl | old
    · rw [own]
      omega
    · rw [elsewhere inner old]
      exact indexed.pids inner old
  case unique =>
    intro first firstIn second secondIn same
    rcases List.mem_cons.mp firstIn with rfl | firstOld
    · rcases List.mem_cons.mp secondIn with rfl | secondOld
      · rfl
      · rw [own, elsewhere second secondOld] at same
        exact absurd same.symm (free second secondOld)
    · rcases List.mem_cons.mp secondIn with rfl | secondOld
      · rw [own, elsewhere first firstOld] at same
        exact absurd same (free first firstOld)
      · rw [elsewhere first firstOld, elsewhere second secondOld] at same
        exact indexed.unique first firstOld second secondOld same
  case last => rw [last]; exact low
  case safe => rw [safe]; exact high
  case gap =>
    intro inner inside
    rw [last, safe]
    rcases List.mem_cons.mp inside with rfl | old
    · omega
    · rw [elsewhere inner old]
      have outside := gap inner old
      omega

theorem Indexed.remove (indexed : table.Indexed idle procs) (member : proc ∈ procs)
    (procList : other.procList = listDel (some proc) table.procList)
    (hashList : other.hashList = listDel (.hashLink proc) table.hashList) (pids : other.pid = table.pid)
    (count : other.nrProcess = table.nrProcess - 1) (last : other.lastPid = table.lastPid)
    (safe : other.nextSafe = table.nextSafe) : other.Indexed idle (procs.erase proc) := by
  have within : ∀ inner ∈ procs.erase proc, inner ∈ procs := fun inner inside => List.mem_of_mem_erase inside
  have length := List.length_erase_add_one member
  constructor
  case listed =>
    obtain ⟨front, back, rfl⟩ := List.append_of_mem member
    have ring := indexed.listed
    rw [List.map_append, List.map_cons] at ring
    have outside : proc ∉ front := fun inside =>
      (List.nodup_append.mp indexed.distinct).2.2 proc inside proc List.mem_cons_self rfl
    rw [procList, List.erase_append_right _ outside, List.erase_cons_head, List.map_append]
    exact listDel_node ring
  case hashed =>
    rw [hashList, pids]
    exact hashed_remove indexed member indexed.distinct
  case count =>
    rw [count, indexed.count, ← length]
    push_cast
    omega
  case room => exact (Nat.le_of_lt (by omega)).trans_lt indexed.room
  case root => exact fun inside => indexed.root (within idle inside)
  case idlePid => rw [pids]; exact indexed.idlePid
  case pids =>
    rw [pids]
    exact fun inner inside => indexed.pids inner (within inner inside)
  case unique =>
    rw [pids]
    exact fun first firstIn second secondIn => indexed.unique first (within first firstIn) second (within second secondIn)
  case last => rw [last]; exact indexed.last
  case safe => rw [safe]; exact indexed.safe
  case gap =>
    rw [Gap, pids, last, safe]
    exact fun inner inside => indexed.gap inner (within inner inside)

end Index

end Ucore.ProcTable
