import Mathlib
import Ucore.Proofs.Play
import Ucore.Proofs.Scheduling

/-! No wake-up is lost, and every exit is collected at most once, by the parent. -/

namespace Ucore.Kernel
open Lib

def exitedProc : Happening → Option Nat
  | .exited proc _ => some proc
  | _ => none

def reapedChild : Happening → Option Nat
  | .reaped _ child => some child
  | _ => none

/-- The history agrees with the live processes: who has exited is a zombie until
it is reaped, and is not live afterwards. -/
structure Chronicle (k : Kernel) : Prop where
  born : ∀ proc, k.Live proc → k.serial proc < k.births
  distinct : ∀ proc other, k.Live proc → k.Live other → k.serial proc = k.serial other → proc = other
  zombies : ∀ proc, k.Live proc → k.state proc = .zombie → .exited (k.serial proc) (k.exitCode proc) ∈ k.history
  alive : ∀ proc, k.Live proc → k.state proc ≠ .zombie → ∀ code, .exited (k.serial proc) code ∉ k.history
  past : ∀ proc code, .exited proc code ∈ k.history → proc < k.births
  gone : ∀ parent child, .reaped parent child ∈ k.history →
    (∃ code, .exited child code ∈ k.history) ∧ ∀ proc, k.Live proc → k.serial proc ≠ child
  exits : (k.history.filterMap exitedProc).Nodup
  reaps : (k.history.filterMap reapedChild).Nodup

variable {schedClass : SchedClass} {k after : Kernel} {procs queue : List Ptr} {kids : Ptr → List Ptr} {init : Ptr}

private theorem exited_mem {history : List Happening} {proc : Nat} :
    proc ∈ history.filterMap exitedProc ↔ ∃ code, .exited proc code ∈ history := by
  rw [List.mem_filterMap]
  constructor
  · rintro ⟨happening, member, same⟩
    cases happening with
    | exited other code =>
      cases same
      exact ⟨code, member⟩
    | stored | reaped | waited | warned => cases same
  · exact fun ⟨code, member⟩ => ⟨_, member, rfl⟩

private theorem reaped_mem {history : List Happening} {child : Nat} :
    child ∈ history.filterMap reapedChild ↔ ∃ parent, .reaped parent child ∈ history := by
  rw [List.mem_filterMap]
  constructor
  · rintro ⟨happening, member, same⟩
    cases happening with
    | reaped parent other =>
      cases same
      exact ⟨parent, member⟩
    | stored | exited | waited | warned => cases same
  · exact fun ⟨parent, member⟩ => ⟨_, member, rfl⟩

private theorem Chronicle.quiet {killed : Option Ptr} (added : List Happening) (chronicle : k.Chronicle)
    (frame : Frame k after killed) (runnable : k.state k.current = .runnable) (alive : after.state k.current ≠ .zombie)
    (history : after.history = added ++ k.history) (noExit : added.filterMap exitedProc = [])
    (noReap : added.filterMap reapedChild = [])
    (live : ∀ proc, after.Live proc → k.Live proc ∨
      (after.state proc ≠ .zombie ∧ after.serial proc = k.births ∧ k.births < after.births))
    (single : ∀ proc other, after.Live proc → after.Live other → ¬ k.Live proc → ¬ k.Live other → proc = other) :
    after.Chronicle := by
  have exited : ∀ proc code, .exited proc code ∈ after.history ↔ .exited proc code ∈ k.history := by
    intro proc code
    have none : .exited proc code ∉ added := fun member =>
      absurd (noExit ▸ exited_mem.mpr ⟨code, member⟩) List.not_mem_nil
    rw [history, List.mem_append]
    exact ⟨fun either => either.resolve_left none, Or.inr⟩
  have reaped : ∀ parent child, .reaped parent child ∈ after.history ↔ .reaped parent child ∈ k.history := by
    intro parent child
    have none : .reaped parent child ∉ added := fun member =>
      absurd (noReap ▸ reaped_mem.mpr ⟨parent, member⟩) List.not_mem_nil
    rw [history, List.mem_append]
    exact ⟨fun either => either.resolve_left none, Or.inr⟩
  have zombie : ∀ proc, k.Live proc → (after.state proc = .zombie ↔ k.state proc = .zombie) := by
    intro proc old
    by_cases own : proc = k.current
    · rw [own, runnable]
      exact ⟨fun gone => absurd gone alive, fun gone => absurd gone ProcState.runnable_alive⟩
    · exact frame.zombie_iff old own
  refine ⟨?_, ?_, ?_, ?_, ?_, ?_, ?_, ?_⟩
  · intro proc present
    rcases live proc present with old | ⟨-, serial, later⟩
    · rw [frame.serial proc old]
      exact (chronicle.born proc old).trans_le frame.births
    · rw [serial]
      exact later
  · intro proc other present present' same
    rcases live proc present with old | ⟨-, serial, -⟩
    · rcases live other present' with old' | ⟨-, serial', -⟩
      · rw [frame.serial proc old, frame.serial other old'] at same
        exact chronicle.distinct proc other old old' same
      · rw [frame.serial proc old, serial'] at same
        exact absurd same (chronicle.born proc old).ne
    · rcases live other present' with old' | ⟨-, serial', -⟩
      · rw [frame.serial other old', serial] at same
        exact absurd same.symm (chronicle.born other old').ne
      · by_cases old : k.Live proc
        · rw [frame.serial proc old] at serial
          exact absurd serial (chronicle.born proc old).ne
        · by_cases old' : k.Live other
          · rw [frame.serial other old'] at serial'
            exact absurd serial' (chronicle.born other old').ne
          · exact single proc other present present' old old'
  · intro proc present gone
    rcases live proc present with old | ⟨fresh, -, -⟩
    · have before := (zombie proc old).mp gone
      have away : proc ≠ k.current := by
        rintro rfl
        exact absurd (before.symm.trans runnable) (by decide)
      rw [exited, frame.serial proc old, frame.exitCode proc old away]
      exact chronicle.zombies proc old before
    · exact absurd gone fresh
  · intro proc present awake code
    rw [exited]
    rcases live proc present with old | ⟨-, serial, -⟩
    · rw [frame.serial proc old]
      exact chronicle.alive proc old (fun gone => awake ((zombie proc old).mpr gone)) code
    · rw [serial]
      exact fun member => absurd (chronicle.past _ _ member) (lt_irrefl _)
  · intro proc code member
    exact (chronicle.past proc code ((exited proc code).mp member)).trans_le frame.births
  · intro parent child member
    obtain ⟨⟨code, left⟩, absent⟩ := chronicle.gone parent child ((reaped parent child).mp member)
    refine ⟨⟨code, (exited child code).mpr left⟩, fun proc present => ?_⟩
    rcases live proc present with old | ⟨-, serial, -⟩
    · rw [frame.serial proc old]
      exact absent proc old
    · rw [serial]
      exact (chronicle.past child code left).ne'
  · rw [history, List.filterMap_append, noExit]
    exact chronicle.exits
  · rw [history, List.filterMap_append, noReap]
    exact chronicle.reaps

private theorem Chronicle.exit {killed : Option Ptr} (chronicle : k.Chronicle) (frame : Frame k after killed)
    (current : k.Live k.current) (runnable : k.state k.current = .runnable) (allocated : after.allocated = k.allocated)
    (gone : after.state k.current = .zombie)
    (history : after.history = .exited (k.serial k.current) (after.exitCode k.current) :: k.history) : after.Chronicle := by
  have live : ∀ proc, after.Live proc ↔ k.Live proc := by
    intro proc
    rw [Live, allocated]
    rfl
  have fresh : ∀ code, .exited (k.serial k.current) code ∉ k.history :=
    chronicle.alive k.current current (by rw [runnable]; exact ProcState.runnable_alive)
  refine ⟨?_, ?_, ?_, ?_, ?_, ?_, ?_, ?_⟩
  · intro proc present
    have old := (live proc).mp present
    rw [frame.serial proc old]
    exact (chronicle.born proc old).trans_le frame.births
  · intro proc other present present' same
    have old := (live proc).mp present
    have old' := (live other).mp present'
    rw [frame.serial proc old, frame.serial other old'] at same
    exact chronicle.distinct proc other old old' same
  · intro proc present exited
    have old := (live proc).mp present
    rw [history, frame.serial proc old]
    by_cases own : proc = k.current
    · rw [own]
      exact List.mem_cons_self
    · rw [frame.exitCode proc old own]
      exact List.mem_cons_of_mem _ (chronicle.zombies proc old ((frame.zombie_iff old own).mp exited))
  · intro proc present awake code
    have old := (live proc).mp present
    have away : proc ≠ k.current := by
      rintro rfl
      exact awake gone
    rw [history, frame.serial proc old, List.mem_cons, not_or]
    refine ⟨fun same => away (chronicle.distinct proc _ old current (Happening.exited.inj same).1), ?_⟩
    exact chronicle.alive proc old (fun left => awake ((frame.zombie_iff old away).mpr left)) code
  · intro proc code member
    rw [history, List.mem_cons] at member
    rcases member with same | member
    · rw [(Happening.exited.inj same).1]
      exact (chronicle.born _ current).trans_le frame.births
    · exact (chronicle.past proc code member).trans_le frame.births
  · intro parent child member
    rw [history, List.mem_cons] at member
    have past : .reaped parent child ∈ k.history := by
      rcases member with same | past
      · cases same
      · exact past
    obtain ⟨⟨code, left⟩, absent⟩ := chronicle.gone parent child past
    refine ⟨⟨code, history ▸ List.mem_cons_of_mem _ left⟩, fun proc present => ?_⟩
    rw [frame.serial proc ((live proc).mp present)]
    exact absent proc ((live proc).mp present)
  · rw [history, List.filterMap_cons_some (show exitedProc _ = some (k.serial k.current) from rfl), List.nodup_cons]
    refine ⟨fun member => ?_, chronicle.exits⟩
    obtain ⟨code, left⟩ := exited_mem.mp member
    exact fresh code left
  · rw [history, List.filterMap_cons_none rfl]
    exact chronicle.reaps

private theorem collection_exits (k : Kernel) (child : Ptr) (codeStore : Nat) :
    (k.collection child codeStore).filterMap exitedProc = [] := by
  rw [collection]
  split
  · rfl
  · rfl

private theorem collection_reaps (k : Kernel) (child : Ptr) (codeStore : Nat) :
    (k.collection child codeStore).filterMap reapedChild = [k.serial child] := by
  rw [collection]
  split
  · rfl
  · rfl

private theorem Chronicle.reap {killed : Option Ptr} {child : Ptr} {codeStore : Nat} (chronicle : k.Chronicle)
    (frame : Frame k after killed) (nodup : k.allocated.Nodup) (runnable : k.state k.current = .runnable)
    (present : k.Live child) (exited : k.state child = .zombie) (allocated : after.allocated = k.allocated.erase child)
    (alive : after.state k.current ≠ .zombie)
    (history : after.history = .waited (k.serial k.current) 0 :: (k.collection child codeStore ++ k.history)) :
    after.Chronicle := by
  have live : ∀ proc, after.Live proc ↔ proc ≠ child ∧ k.Live proc := by
    intro proc
    rw [Live, allocated, nodup.mem_erase_iff]
    rfl
  have left : ∀ proc code, .exited proc code ∈ after.history ↔ .exited proc code ∈ k.history := by
    intro proc code
    rw [history, List.mem_cons, List.mem_append]
    refine ⟨fun either => ?_, fun member => Or.inr (Or.inr member)⟩
    rcases either with same | member | member
    · cases same
    · exact absurd (exited_mem.mpr ⟨code, member⟩) (by rw [collection_exits]; exact List.not_mem_nil)
    · exact member
  have zombie : ∀ proc, k.Live proc → (after.state proc = .zombie ↔ k.state proc = .zombie) := by
    intro proc old
    by_cases own : proc = k.current
    · rw [own, runnable]
      exact ⟨fun gone => absurd gone alive, fun gone => absurd gone ProcState.runnable_alive⟩
    · exact frame.zombie_iff old own
  have reaps : after.history.filterMap reapedChild = k.serial child :: k.history.filterMap reapedChild := by
    rw [history, List.filterMap_cons_none rfl, List.filterMap_append, collection_reaps]
    rfl
  refine ⟨?_, ?_, ?_, ?_, ?_, ?_, ?_, ?_⟩
  · intro proc inside
    have old := ((live proc).mp inside).2
    rw [frame.serial proc old]
    exact (chronicle.born proc old).trans_le frame.births
  · intro proc other inside inside' same
    have old := ((live proc).mp inside).2
    have old' := ((live other).mp inside').2
    rw [frame.serial proc old, frame.serial other old'] at same
    exact chronicle.distinct proc other old old' same
  · intro proc inside gone
    have old := ((live proc).mp inside).2
    have before := (zombie proc old).mp gone
    have away : proc ≠ k.current := by
      rintro rfl
      exact absurd (before.symm.trans runnable) (by decide)
    rw [left, frame.serial proc old, frame.exitCode proc old away]
    exact chronicle.zombies proc old before
  · intro proc inside awake code
    have old := ((live proc).mp inside).2
    rw [left, frame.serial proc old]
    exact chronicle.alive proc old (fun gone => awake ((zombie proc old).mpr gone)) code
  · intro proc code member
    exact (chronicle.past proc code ((left proc code).mp member)).trans_le frame.births
  · intro parent other member
    have either : other = k.serial child ∨ ∃ parent, .reaped parent other ∈ k.history := by
      have inside := reaped_mem.mpr ⟨parent, member⟩
      rw [reaps, List.mem_cons, reaped_mem] at inside
      exact inside
    rcases either with rfl | ⟨parent, old⟩
    · refine ⟨⟨k.exitCode child, (left _ _).mpr (chronicle.zombies child present exited)⟩, fun proc inside same => ?_⟩
      obtain ⟨apart, old⟩ := (live proc).mp inside
      rw [frame.serial proc old] at same
      exact apart (chronicle.distinct proc child old present same)
    · obtain ⟨⟨code, gone⟩, absent⟩ := chronicle.gone parent other old
      refine ⟨⟨code, (left _ _).mpr gone⟩, fun proc inside => ?_⟩
      have before := ((live proc).mp inside).2
      rw [frame.serial proc before]
      exact absent proc before
  · rw [history, List.filterMap_cons_none rfl, List.filterMap_append, collection_exits]
    exact chronicle.exits
  · rw [reaps, List.nodup_cons]
    refine ⟨fun member => ?_, chronicle.reaps⟩
    obtain ⟨parent, before⟩ := reaped_mem.mp member
    exact (chronicle.gone parent _ before).2 child present rfl

theorem Chronicle.step {killed : Option Ptr} {asked : Option (Int × Nat)} {procs' queue' : List Ptr} {kids' : Ptr → List Ptr}
    (chronicle : k.Chronicle) (inv : k.Invariant procs kids queue init)
    (moves : Moves k after killed asked procs' kids' queue queue' init) : after.Chronicle := by
  have current : k.Live k.current := inv.stable.live.mem_iff.mpr inv.stable.current
  have same : after.allocated = k.allocated → ∀ proc, after.Live proc → k.Live proc ∨
      (after.state proc ≠ .zombie ∧ after.serial proc = k.births ∧ k.births < after.births) := by
    intro allocated proc present
    rw [Live, allocated] at present
    exact Or.inl present
  cases moves.life with
  | steady allocated alive history =>
    have none : ∀ proc other, after.Live proc → after.Live other → ¬ k.Live proc → ¬ k.Live other → proc = other := by
      intro proc other present _ absent _
      rw [Live, allocated] at present
      exact absurd present absent
    rcases history with history | ⟨result, -, history⟩
    · exact Chronicle.quiet [] chronicle moves.frame inv.runnable alive history rfl rfl (same allocated) none
    · exact Chronicle.quiet [_] chronicle moves.frame inv.runnable alive history rfl rfl (same allocated) none
  | fork child fresh allocated runnable flags serial births alive history =>
    have born : ∀ proc, after.Live proc → ¬ k.Live proc → proc = child := by
      intro proc present absent
      rw [Live, allocated, List.mem_cons] at present
      exact present.resolve_right absent
    refine Chronicle.quiet [] chronicle moves.frame inv.runnable alive history rfl rfl ?_ ?_
    · intro proc present
      by_cases old : k.Live proc
      · exact Or.inl old
      · right
        rw [born proc present old, runnable]
        exact ⟨ProcState.runnable_alive, serial, births⟩
    · exact fun proc other present present' absent absent' => (born proc present absent).trans (born other present' absent').symm
  | exit code allocated gone place exitCode history =>
    exact chronicle.exit moves.frame current inv.runnable allocated gone (exitCode ▸ history)
  | reap pid codeStore child call live below same exited allocated alive history =>
    have nodup : k.allocated.Nodup := by
      rw [inv.stable.live.nodup_iff, List.nodup_cons]
      exact ⟨inv.stable.core.table.indexed.root, inv.stable.core.table.indexed.distinct⟩
    exact chronicle.reap moves.frame nodup inv.runnable live exited allocated alive history

/-- The `do_wait` that returns 0 in a step reaps one child that has exited, hands
over its exit code, and says so. -/
def Reaps (k : Kernel) (event : Event) (after : Kernel) (added : List Happening) : Prop :=
  ∃ pid codeStore child, askedBy event k = some (pid, codeStore) ∧ k.Live child ∧ k.table.parent child = some k.current ∧
    k.Matches pid child ∧ k.state child = .zombie ∧ .exited (k.serial child) (k.exitCode child) ∈ k.history ∧
    (∀ proc, after.Live proc ↔ k.Live proc ∧ proc ≠ child) ∧
    added = .waited (k.serial k.current) 0 :: .reaped (k.serial k.current) (k.serial child) ::
      if codeStore ≠ 0 then [.stored codeStore (k.exitCode child)] else []

private theorem chronicle_boot {memory : Kernel} {idle : Ptr} {answers : ForkAnswers}
    (granted : answers.proc ≠ some idle ∧ (answers.copyMm = 0 ∨ answers.copyMm = -eNoMem))
    (booted : boot schedClass memory idle answers = .ok k) : k.Chronicle := by
  rcases boot_spec granted with ⟨init, after, kids, done, forked, -⟩ | failed
  · cases Except.ok.inj (done.symm.trans booted)
    have frame := forked.frame
    have history : after.history = [] := frame.history
    obtain ⟨impossible, -⟩ | ⟨proc, unused, same, allocated, runnable, -, -, serial, -⟩ := frame.born
    · cases impossible
    cases same
    have idleSerial : after.serial idle = 0 :=
      (frame.old idle List.mem_cons_self).2.2.2.2.trans (Function.update_self _ _ _)
    have initSerial : after.serial init = 1 := serial
    have idleState : after.state idle = .runnable :=
      (frame.old idle List.mem_cons_self).1.trans (Function.update_self _ _ _)
    have births : 1 < after.births := frame.births.2 (by rw [allocated]; exact List.cons_ne_self _ _)
    have live : ∀ proc, proc ∈ after.allocated → proc = init ∨ proc = idle := by
      intro proc present
      rw [allocated] at present
      rcases List.mem_cons.mp present with same | old
      · exact Or.inl same
      · exact Or.inr (List.mem_singleton.mp old)
    have awake : ∀ proc, proc ∈ after.allocated → after.state proc ≠ .zombie := by
      intro proc present
      rcases live proc present with rfl | rfl
      · rw [runnable]
        exact ProcState.runnable_alive
      · rw [idleState]
        exact ProcState.runnable_alive
    have none : ∀ happening, happening ∉ after.history := by
      intro happening
      rw [history]
      exact List.not_mem_nil
    refine ⟨?_, ?_, ?_, ?_, ?_, ?_, ?_, ?_⟩
    · intro proc present
      rcases live proc present with rfl | rfl
      · exact initSerial.trans_lt births
      · exact idleSerial.trans_lt (Nat.zero_lt_of_lt births)
    · intro proc other present present' same
      have apart : after.serial idle ≠ after.serial init := by
        rw [idleSerial, initSerial]
        decide
      rcases live proc present with rfl | rfl
      · rcases live other present' with rfl | rfl
        · rfl
        · exact absurd same.symm apart
      · rcases live other present' with rfl | rfl
        · exact absurd same apart
        · rfl
    · exact fun proc present gone => absurd gone (awake proc present)
    · exact fun proc _ _ code => none _
    · exact fun proc code member => absurd member (none _)
    · exact fun parent child member => absurd member (none _)
    · rw [show ({ after with initproc := some init } : Kernel).history = [] from history]
      exact List.nodup_nil
    · rw [show ({ after with initproc := some init } : Kernel).history = [] from history]
      exact List.nodup_nil
  · cases failed.symm.trans booted

theorem Reachable.chronicle (reached : Reachable schedClass k) : k.Chronicle := by
  induction reached with
  | boot granted booted => exact chronicle_boot granted booted
  | step reached enabled stepped ih =>
    obtain ⟨_, _, _, _, _, _, _, inv, moves⟩ := reached.moves enabled stepped
    exact ih.step inv moves

/-- No process sleeps in `do_wait` while a child it waits for is a zombie. A step
reaps one such child of the current process and returns 0, or it reaps nobody.
Over a run every process exits once at most, and is reaped once at most, after
it has exited. -/
theorem wait_exactly_once (schedClass : SchedClass) : ∀ k, Reachable schedClass k →
    (∀ proc, k.Live proc → k.state proc = .sleeping → ∃ pid codeStore caller, k.loc proc = .waiting pid codeStore caller ∧
      ∀ child, k.Live child → k.table.parent child = some proc → k.Matches pid child → k.state child ≠ .zombie) ∧
    (∀ event after, k.Enabled event → k.step event = .ok after → ∃ added, after.history = added ++ k.history ∧
      (k.Reaps event after added ∨ (∀ proc, k.Live proc → after.Live proc) ∧ (∀ parent, .waited parent 0 ∉ added) ∧
        (∀ parent child, .reaped parent child ∉ added) ∧ ∀ address code, .stored address code ∉ added)) ∧
    (k.history.filterMap exitedProc).Nodup ∧ (k.history.filterMap reapedChild).Nodup ∧
    ∀ parent child, .reaped parent child ∈ k.history → ∃ code, .exited child code ∈ k.history := by
  intro k reached
  have chronicle := reached.chronicle
  refine ⟨?_, ?_, chronicle.exits, chronicle.reaps, fun parent child member => (chronicle.gone parent child member).1⟩
  · obtain ⟨procs, kids, queue, init, inv⟩ := reached.invariant
    intro proc live asleep
    have tree := inv.stable.core.table.tree
    have busy : proc ≠ k.idleproc := by
      rintro rfl
      exact absurd (asleep.symm.trans inv.stable.core.slept.idle.1) (by decide)
    have member := inv.live_iff.mp ⟨live, busy⟩
    obtain ⟨pid, codeStore, caller, loc, none⟩ := inv.stable.core.waits.waiting proc member asleep
    refine ⟨pid, codeStore, caller, loc, fun child present up same => none child ?_ same⟩
    have apart : child ≠ k.idleproc := by
      rintro rfl
      cases tree.top.symm.trans up
    exact (tree.family proc (List.mem_cons_of_mem _ member) child).mpr ⟨inv.live_iff.mp ⟨present, apart⟩, up⟩
  · intro event after enabled stepped
    obtain ⟨_, _, _, _, _, _, _, inv, moves⟩ := reached.moves enabled stepped
    cases moves.life with
    | steady allocated alive history =>
      have stays : ∀ proc, k.Live proc → after.Live proc := by
        intro proc present
        rw [Live, allocated]
        exact present
      rcases history with history | ⟨result, failed, history⟩
      · exact ⟨[], history, Or.inr ⟨stays, fun _ => List.not_mem_nil, fun _ _ => List.not_mem_nil, fun _ _ => List.not_mem_nil⟩⟩
      · refine ⟨[_], history, Or.inr ⟨stays, fun parent member => ?_, fun _ _ member => ?_, fun _ _ member => ?_⟩⟩
        · exact failed (Happening.waited.inj (List.mem_singleton.mp member)).2.symm
        · cases List.mem_singleton.mp member
        · cases List.mem_singleton.mp member
    | fork child fresh allocated runnable flags serial births alive history =>
      refine ⟨[], history, Or.inr ⟨?_, fun _ => List.not_mem_nil, fun _ _ => List.not_mem_nil, fun _ _ => List.not_mem_nil⟩⟩
      intro proc present
      rw [Live, allocated]
      exact List.mem_cons_of_mem _ present
    | exit code allocated gone place exitCode history =>
      refine ⟨[_], history, Or.inr ⟨?_, fun _ member => ?_, fun _ _ member => ?_, fun _ _ member => ?_⟩⟩
      · intro proc present
        rw [Live, allocated]
        exact present
      · cases List.mem_singleton.mp member
      · cases List.mem_singleton.mp member
      · cases List.mem_singleton.mp member
    | reap pid codeStore child call live below same exited allocated alive history =>
      have nodup : k.allocated.Nodup := by
        rw [inv.stable.live.nodup_iff, List.nodup_cons]
        exact ⟨inv.stable.core.table.indexed.root, inv.stable.core.table.indexed.distinct⟩
      refine ⟨_ :: k.collection child codeStore, history, Or.inl ⟨pid, codeStore, child, call, live, below, same, exited,
        chronicle.zombies child live exited, ?_, rfl⟩⟩
      intro proc
      rw [Live, allocated, nodup.mem_erase_iff, and_comm]
      rfl

/-- Process 2 has waited for its child 3, which has exited with code 7. -/
theorem wait_exactly_once_child : ∃ k, Reachable .rr k ∧
    k.history = [.waited 2 0, .reaped 2 3, .stored 16 7, .exited 3 7] ∧ (k.history.filterMap reapedChild).Nodup := by
  have reaches : ∃ k, Reachable .rr k ∧ k.history = [.waited 2 0, .reaped 2 3, .stored 16 7, .exited 3 7] :=
    @playFrom_reaches .rr [.resume, .initMain (granting 2), .resume, .userMain .loaded, .syscall (.fork (granting 3)), .resume,
      .syscall (.wait 0 16 true), .resume, .syscall (.exit 7), .resume] _ _ (by decide +kernel)
  obtain ⟨k, reached, history⟩ := reaches
  exact ⟨k, reached, history, (wait_exactly_once .rr k reached).2.2.2.1⟩

end Ucore.Kernel
