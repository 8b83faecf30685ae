import Mathlib
import Ucore.Proofs.Dispatch

/-! Under round-robin the processes are dispatched in the order in which they entered
the queue. -/

namespace Ucore.Kernel
open Lib RunQueue

variable {k after : Kernel} {procs queue queue' procs' dispatched : List Ptr} {kids kids' : Ptr → List Ptr} {init : Ptr}
  {killed : Option Ptr} {asked : Option (Int × Nat)}

/-- `dispatched` are the first of `queue`, as far as there are any, and the others are
still in front in `queue'`. -/
structure Served (queue dispatched queue' : List Ptr) : Prop where
  order : dispatched.take queue.length = queue.take dispatched.length
  waiting : queue.drop dispatched.length <+: queue'

theorem Served.refl (queue : List Ptr) : Served queue [] queue :=
  ⟨by simp, by simp⟩

theorem Served.append (served : Served queue dispatched queue') (added : List Ptr) : Served queue dispatched (queue' ++ added) :=
  ⟨served.order, served.waiting.trans (List.prefix_append _ _)⟩

theorem Served.next {next : Ptr} {rest : List Ptr} (served : Served queue dispatched (next :: rest)) :
    Served queue (dispatched ++ [next]) rest := by
  obtain ⟨order, added, split⟩ := served
  cases remaining : queue.drop dispatched.length with
  | nil =>
    have done : queue.length ≤ dispatched.length := List.drop_eq_nil_iff.mp remaining
    constructor
    · rw [List.take_append_of_le_length done, order, List.take_of_length_le done, List.take_of_length_le (by simp; omega)]
    · rw [List.drop_of_length_le (by simp; omega)]
      exact List.nil_prefix
  | cons first others =>
    have left : dispatched.length < queue.length := by
      by_contra done
      rw [List.drop_of_length_le (Nat.le_of_not_lt done)] at remaining
      cases remaining
    rw [remaining, List.cons_append, List.cons.injEq] at split
    obtain ⟨rfl, split⟩ := split
    rw [List.drop_eq_getElem_cons left, List.cons.injEq] at remaining
    obtain ⟨here, rest'⟩ := remaining
    constructor
    · rw [List.take_of_length_le left.le] at order
      rw [List.length_append, List.length_singleton, List.take_of_length_le (by simp; omega), ← List.take_append_getElem left, ← order,
        here]
    · rw [List.length_append, List.length_singleton, rest']
      exact ⟨added, split⟩

theorem Served.idle {idle : Ptr} (served : Served queue dispatched []) : Served queue (dispatched ++ [idle]) [] := by
  have done : queue.length ≤ dispatched.length := List.drop_eq_nil_iff.mp (List.prefix_nil.mp served.waiting)
  constructor
  · rw [List.take_append_of_le_length done, served.order, List.take_of_length_le done, List.take_of_length_le (by simp; omega)]
  · rw [List.drop_of_length_le (by simp; omega)]

theorem Served.step (served : Served queue dispatched queue') (inv : k.Invariant procs kids queue' init) (bound : k.schedClass = .rr)
    {queue'' : List Ptr} (moves : Moves k after killed asked procs' kids' queue' queue'' init) :
    Served queue (dispatched ++ (scheduled k after).toList) queue'' := by
  rcases moves.scheduled_cases inv with ⟨quiet, -, effect⟩ | ⟨next, added, middle, pick⟩
  · obtain ⟨added, appended⟩ := effect.appends
    rw [quiet, Option.toList_none, List.append_nil, show queue'' = queue' ++ added from appended]
    exact served.append added
  · have waiting := served.append added
    have current := moves.invariant.current_eq
    have left : queue'' = remaining (queue' ++ added) after.running := pick.queue
    have held : Holds .rr middle (queue' ++ added) := bound ▸ pick.held
    rw [next, Option.toList_some, current, left]
    rcases turn_cases held (bound ▸ pick.turns) with ⟨empty, nobody, -⟩ | ⟨proc, chosen, choice, -⟩
    · rw [show after.running = none from nobody]
      rw [empty] at waiting ⊢
      exact waiting.idle
    · have front : (queue' ++ added).head? = some proc := choice
      obtain ⟨rest, split⟩ := List.head?_eq_some_iff.mp front
      rw [split] at waiting ⊢
      rw [show after.running = some proc from chosen, remaining, List.erase_cons_head]
      exact waiting.next

theorem Path.served {queue : List Ptr} (reached : Reachable .rr k) (ring : k.rq.runList.Ring none (queue.map some))
    (path : Path k dispatched after) :
    ∃ procs kids queue' init, after.Invariant procs kids queue' init ∧ Served queue dispatched queue' := by
  induction path with
  | refl =>
    obtain ⟨procs, kids, queue', init, inv⟩ := reached.invariant
    have contents : k.rq.Contents queue' .rr := reached.schedClass_eq ▸ inv.stable.core.queued.holds.contents
    have same : queue.map some = queue'.map some := ring.unique contents
    cases List.map_injective_iff.mpr (Option.some_injective _) same
    exact ⟨procs, kids, queue, init, inv, .refl queue⟩
  | step path enabled stepped ih =>
    obtain ⟨procs, kids, queue', init, inv, served⟩ := ih
    have reached := path.reachable reached
    rcases step_ends inv enabled with ⟨after, procs', kids', queue'', done, moves⟩ | ⟨halt, -, done⟩
    · cases Except.ok.inj (done.symm.trans stepped)
      exact ⟨procs', kids', queue'', init, moves.invariant, served.step inv reached.schedClass_eq moves⟩
    · cases done.symm.trans stepped

/-- Under round-robin the process at a position of the queue is dispatched by the call
of `schedule` of the same number and not before, and whoever was behind it, or
was not in the queue, is dispatched after it. -/
theorem round_robin_order : ∀ (k : Kernel) (queue : List Ptr), Reachable .rr k → k.rq.runList.Ring none (queue.map some) →
    ∀ dispatched after, Path k dispatched after → ∀ position proc, queue[position]? = some proc →
      (∀ index < position, dispatched[index]? ≠ some proc) ∧
      (position < dispatched.length → dispatched[position]? = some proc) ∧
      ∀ index other, dispatched[index]? = some other → other ∉ queue.take (position + 1) → position < index := by
  intro k queue reached ring dispatched after path position proc here
  obtain ⟨_, _, queue', _, -, served⟩ := path.served reached ring
  have inside : position < queue.length := (List.getElem?_eq_some_iff.mp here).1
  have distinct : queue.Nodup := (List.nodup_cons.mp ring.distinct).2.of_map _
  have agree : ∀ index, index < dispatched.length → index < queue.length → dispatched[index]? = queue[index]? := by
    intro index called within
    have taken := congrArg (fun list => list[index]?) served.order
    simpa [List.getElem?_take, called, within] using taken
  refine ⟨?_, ?_, ?_⟩
  · intro index before same
    have called : index < dispatched.length := (List.getElem?_eq_some_iff.mp same).1
    rw [agree index called (by omega), ← here] at same
    have twice : index = position := (List.getElem?_inj (by omega) distinct).mp same
    omega
  · intro called
    rw [agree position called inside]
    exact here
  · intro index other same behind
    by_contra early
    have called : index < dispatched.length := (List.getElem?_eq_some_iff.mp same).1
    rw [agree index called (by omega)] at same
    apply behind
    have front : (queue.take (position + 1))[index]? = some other := by
      rw [List.getElem?_take, if_pos (by omega)]
      exact same
    exact List.mem_of_getElem? front

/-- A fresh child is at the front of the queue when its parent yields. -/
theorem round_robin_order_child : ∃ k dispatched after, k.rq.front = some 3 ∧ Path k dispatched after ∧
    dispatched.length = 1 ∧ dispatched[0]? = some 3 := by
  have reaches : ∃ k, Reachable .rr k ∧ k.Enabled .resume ∧ (k.rq.runList.next none = some 3 ∧ k.rq.runList.prev (some 3) = none ∧
      k.rq.runList.next (some 3) = none ∧ k.rq.runList.prev none = some 3) ∧
      ((k.step .resume).toOption.map fun after => (scheduled k after).toList.length) = some 1 :=
    @playFrom_reaches .rr [.resume, .initMain (granting 2), .resume, .userMain .loaded, .syscall (.fork (granting 3)), .resume,
      .syscall .yield] _ _ (by decide +kernel)
  obtain ⟨k, reached, enabled, ⟨first, back, last, rear⟩, called⟩ := reaches
  cases stepped : k.step .resume with
  | error halt =>
    rw [stepped] at called
    cases called
  | ok after =>
    rw [stepped] at called
    have path : Path k ([] ++ (scheduled k after).toList) after := .step .refl enabled stepped
    have length : ([] ++ (scheduled k after).toList).length = 1 := Option.some.inj called
    have ring : k.rq.runList.Ring none ([3].map some) := ⟨⟨⟨first, back⟩, last, rear⟩, by decide⟩
    have order := round_robin_order k [3] reached ring _ after path 0 3 rfl
    exact ⟨k, _, after, first, path, length, order.2.1 (by omega)⟩

end Ucore.Kernel
