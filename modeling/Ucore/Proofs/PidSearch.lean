import Mathlib
import Ucore.ProcTable

/-! `get_pid` ends and finds a pid that no process of `proc_list` has. The scan
moves on only over pids in use, and there are more pids than processes. -/

namespace Ucore.ProcTable
open Lib

/-- The pid after `pid`, going round at `MAX_PID`. -/
def succPid (pid : Int) : Int := if pid + 1 ≥ maxPid then 1 else pid + 1

def Free (table : ProcTable) (procs : List Ptr) (pid : Int) : Prop :=
  ∀ proc ∈ procs, table.pid proc ≠ pid

/-- No process of `procs` has a pid in `[lastPid, nextSafe)`. -/
def Gap (table : ProcTable) (procs : List Ptr) (lastPid nextSafe : Int) : Prop :=
  ∀ proc ∈ procs, table.pid proc < lastPid ∨ nextSafe ≤ table.pid proc

variable {table : ProcTable} {procs : List Ptr}

theorem maxPid_eq : maxPid = 8192 := rfl

theorem succPid_range {pid : Int} (low : 1 ≤ pid) : 1 ≤ succPid pid ∧ succPid pid < maxPid := by
  rw [succPid, maxPid_eq]
  split <;> omega

theorem succPid_iterate {pid : Int} (low : 1 ≤ pid) (high : pid < maxPid) (count : Nat) :
    succPid^[count] pid = (pid - 1 + count) % (maxPid - 1) + 1 := by
  rw [maxPid_eq] at high ⊢
  induction count with
  | zero => simp only [Function.iterate_zero, id]; omega
  | succ count ih =>
    rw [Function.iterate_succ_apply', ih, succPid, maxPid_eq]
    split <;> omega

private theorem pid_mem {pid : Int} (used : ¬ table.Free procs pid) : pid ∈ (procs.map table.pid).toFinset := by
  rw [Free] at used
  push Not at used
  obtain ⟨proc, member, same⟩ := used
  exact List.mem_toFinset.mpr (List.mem_map.mpr ⟨proc, member, same⟩)

/-- Among as many successive pids as there are processes, and one more, some pid
is free. -/
theorem exists_free {pid : Int} (low : 1 ≤ pid) (high : pid < maxPid) (few : procs.length < maxProcess) :
    ∃ count ≤ procs.length, table.Free procs (succPid^[count] pid) := by
  by_contra none
  push Not at none
  have within : (Finset.range (procs.length + 1)).image (fun count => succPid^[count] pid) ⊆
      (procs.map table.pid).toFinset := by
    intro value member
    obtain ⟨count, bound, rfl⟩ := Finset.mem_image.mp member
    exact pid_mem (none count (Nat.lt_succ_iff.mp (Finset.mem_range.mp bound)))
  have injective : Set.InjOn (fun count => succPid^[count] pid) (Finset.range (procs.length + 1)) := by
    intro first firstBound second secondBound same
    simp only [Finset.coe_range, Set.mem_Iio] at firstBound secondBound
    simp only [succPid_iterate low high, maxPid_eq] at same
    have bound : maxProcess = 4096 := rfl
    omega
  have large := Finset.card_image_of_injOn injective
  have small := (Finset.card_le_card within).trans (List.toFinset_card_le _)
  rw [large, Finset.card_range, List.length_map] at small
  omega

theorem Gap.free {lastPid nextSafe : Int} (gap : table.Gap procs lastPid nextSafe) (room : lastPid < nextSafe) :
    table.Free procs lastPid := by
  intro proc member same
  have outside := gap proc member
  omega

/-- The scan stops at a free pid, with a gap behind it. `count` is how far the
free pid is away; it drops with every process that has the pid just tried. -/
theorem getPidScan_spec (ring : table.procList.Ring none (procs.map some)) (fuel count : Nat) (front back : List Ptr)
    (lastPid nextSafe : Int) (split : procs = front ++ back) (free : table.Free procs (succPid^[count] lastPid))
    (low : 1 ≤ lastPid) (below : lastPid < nextSafe) (high : nextSafe ≤ maxPid)
    (seen : table.Gap front lastPid nextSafe) (enough : count * (procs.length + 1) + back.length < fuel) :
    ∃ lastPid' nextSafe', table.getPidScan fuel ((front.map some).getLastD none) lastPid nextSafe = .ok (lastPid', nextSafe') ∧
      1 ≤ lastPid' ∧ lastPid' < nextSafe' ∧ nextSafe' ≤ maxPid ∧ table.Gap procs lastPid' nextSafe' := by
  induction fuel generalizing count front back lastPid nextSafe with
  | zero => omega
  | succ fuel ih =>
    have next : table.procList.next ((front.map some).getLastD none) = (back.map some).headD none := by
      rw [split, List.map_append] at ring
      rcases List.eq_nil_or_concat front with rfl | ⟨front, last, rfl⟩
      · exact ring.next_head
      · rw [List.concat_eq_append, List.map_append, List.map_singleton, List.append_assoc] at ring
        rw [List.concat_eq_append, List.map_append, List.map_singleton, List.getLastD_concat]
        exact ring.next_node
    cases back with
    | nil =>
      refine ⟨lastPid, nextSafe, by rw [getPidScan, next]; rfl, low, below, high, ?_⟩
      rwa [split, List.append_nil]
    | cons proc back =>
      have member : proc ∈ procs := split ▸ List.mem_append_right _ List.mem_cons_self
      have split' : procs = (front ++ [proc]) ++ back := by rw [split, List.append_assoc, List.singleton_append]
      have size : procs.length = front.length + back.length + 1 := by
        rw [split, List.length_append, List.length_cons]
        omega
      have visited : (((front ++ [proc]).map some).getLastD none : Option Ptr) = some proc := by
        rw [List.map_append, List.map_singleton, List.getLastD_concat]
      have extend : ∀ {lower upper : Int}, table.Gap front lower upper → (table.pid proc < lower ∨ upper ≤ table.pid proc) →
          table.Gap (front ++ [proc]) lower upper := by
        intro lower upper old new other inside
        rcases List.mem_append.mp inside with before | last
        · exact old other before
        · rwa [List.mem_singleton.mp last]
      rw [List.length_cons] at enough
      rw [getPidScan, next]
      simp only [List.map_cons, List.headD_cons]
      by_cases taken : table.pid proc = lastPid
      · rw [if_pos taken]
        cases count with
        | zero => exact absurd taken (free proc member)
        | succ count =>
          rw [Function.iterate_succ_apply] at free
          rw [Nat.succ_mul] at enough
          by_cases last : lastPid + 1 ≥ nextSafe
          · rw [if_pos last]
            have range := succPid_range low
            refine ih count [] procs (succPid lastPid) maxPid rfl free range.1 range.2 (le_refl _) ?_ ?_
            · exact fun other inside => absurd inside List.not_mem_nil
            · omega
          · have step : succPid lastPid = lastPid + 1 := by
              rw [succPid, if_neg (by omega)]
            rw [if_neg last, ← visited]
            refine ih count (front ++ [proc]) back (lastPid + 1) nextSafe split' (step ▸ free) (by omega) (by omega) high ?_ ?_
            · apply extend
              · intro other inside
                have outside := seen other inside
                omega
              · omega
            · omega
      · rw [if_neg taken]
        by_cases nearer : table.pid proc > lastPid ∧ nextSafe > table.pid proc
        · rw [if_pos nearer, ← visited]
          refine ih count (front ++ [proc]) back lastPid (table.pid proc) split' free low nearer.1 (by omega) ?_ (by omega)
          apply extend
          · intro other inside
            have outside := seen other inside
            omega
          · exact Or.inr (le_refl _)
        · rw [if_neg nearer, ← visited]
          refine ih count (front ++ [proc]) back lastPid nextSafe split' free low below high ?_ (by omega)
          exact extend seen (by omega)

private theorem inside_spec (ring : table.procList.Ring none (procs.map some)) (few : procs.length < maxProcess)
    {lastPid : Int} (low : 1 ≤ lastPid) (high : lastPid < maxPid) :
    ∃ pid nextSafe, table.getPidInside lastPid = .ok (pid, { table with lastPid := pid, nextSafe := nextSafe }) ∧
      1 ≤ pid ∧ pid < nextSafe ∧ nextSafe ≤ maxPid ∧ table.Gap procs pid nextSafe := by
  obtain ⟨count, near, free⟩ : ∃ count ≤ procs.length, table.Free procs (succPid^[count] lastPid) := exists_free low high few
  have enough : count * (procs.length + 1) + procs.length < getPidFuel := by
    calc count * (procs.length + 1) + procs.length
      _ < procs.length * (procs.length + 1) + (procs.length + 1) :=
          Nat.add_lt_add_of_le_of_lt (Nat.mul_le_mul_right _ near) (Nat.lt_succ_self _)
      _ = (procs.length + 1) * (procs.length + 1) := (Nat.succ_mul _ _).symm
      _ ≤ getPidFuel := Nat.mul_le_mul few few
  obtain ⟨pid, nextSafe, scanned, facts⟩ := getPidScan_spec ring getPidFuel count [] procs lastPid maxPid rfl free low high
    (le_refl _) (fun other inside => absurd inside List.not_mem_nil) enough
  rw [List.map_nil, List.getLastD_nil] at scanned
  refine ⟨pid, nextSafe, ?_, facts⟩
  rw [getPidInside, scanned]
  rfl

/-- `get_pid` returns a pid in range that is free, and keeps its gap. -/
theorem getPid_spec (ring : table.procList.Ring none (procs.map some)) (few : procs.length < maxProcess)
    (last : 1 ≤ table.lastPid) (safe : table.nextSafe ≤ maxPid) (gap : table.Gap procs (table.lastPid + 1) table.nextSafe) :
    ∃ pid nextSafe, table.getPid = .ok (pid, { table with lastPid := pid, nextSafe := nextSafe }) ∧
      1 ≤ pid ∧ pid < nextSafe ∧ nextSafe ≤ maxPid ∧ table.Gap procs pid nextSafe := by
  rw [getPid]
  by_cases round : table.lastPid + 1 ≥ maxPid
  · rw [if_pos round]
    exact inside_spec ring few (le_refl _) (by rw [maxPid_eq]; decide)
  · rw [if_neg round]
    by_cases search : table.lastPid + 1 ≥ table.nextSafe
    · rw [if_pos search]
      exact inside_spec ring few (by omega) (by omega)
    · rw [if_neg search]
      exact ⟨table.lastPid + 1, table.nextSafe, rfl, by omega, by omega, safe, gap⟩

end Ucore.ProcTable
