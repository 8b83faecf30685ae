import Mathlib
import Ucore.Lib.LeastFirst
import Ucore.Proofs.Stride

/-! Calls of `schedule` one after the other under stride, with nobody joining or
leaving: every process gets its share, and nobody starves unless a dispatch can
leave a stride where it is. -/

namespace Ucore
open Lib

namespace RunQueue

variable {rq after : RunQueue} {queue : List Ptr} {proc : Ptr} {pid : Ptr → Int}

theorem pass_eq (rq : RunQueue) (proc : Ptr) : pass rq proc = bigStride / (rq.lab6Priority proc).toNat := by
  rw [pass, BitVec.toNat_udiv]
  rfl

theorem enqueue_top (pooled : ∃ tree, rq.Pooled tree ∧ tree.elems.Perm queue) (distinct : queue.Nodup) (absent : proc ∉ queue)
    (room : queue.length < maxProcess) (done : strideEnqueue proc rq = .ok after)
    (least : ∀ other ∈ queue, procStrideCompF rq other proc ≠ -1) : after.lab6RunPool = some proc := by
  obtain ⟨tree, pooled, same⟩ := pooled
  obtain ⟨after', entered, pooled', -⟩ := @poolEnqueue_pooled rq proc (procStrideCompF rq) tree pooled
    (same.nodup_iff.mpr distinct) (fun inside => absent (same.subset inside)) (same.length_eq ▸ room)
  cases Except.ok.inj (entered.symm.trans done)
  rw [pooled'.root]
  cases tree with
  | leaf =>
    rw [SkewTree.merge]
    rfl
  | node left value right =>
    have later : firstBy (procStrideCompF rq) value proc = false := by
      have below := least value (same.subset List.mem_cons_self)
      simpa [firstBy] using below
    rw [SkewTree.merge, later]
    rfl

end RunQueue

namespace Kernel
open RunQueue

variable {k after : Kernel} {procs queue members : List Ptr} {kids : Ptr → List Ptr} {proc init : Ptr} {base : BitVec 32}
  {ghost : Ptr → Nat}

/-- Calls of `schedule` one after the other, and the processes that they dispatch, the
first one in front. -/
def rounds : Nat → Kernel → Kern (List Ptr × Kernel)
  | 0, k => .ok ([], k)
  | count + 1, k => do
    let k ← schedule k
    let (dispatched, after) ← rounds count k
    .ok (k.current :: dispatched, after)

/-- What one call of `schedule` leaves alone, and the pick in it. -/
structure Round (k after : Kernel) (queue queue' : List Ptr) (middle : RunQueue) : Prop where
  schedClass : after.schedClass = k.schedClass
  idleproc : after.idleproc = k.idleproc
  contends : ∀ proc, after.Contends proc ↔ k.Contends proc
  pick : Pick k.schedClass (k.view queue) (after.view queue') k.running.toList middle

theorem Settled.round (settled : k.Settled procs kids queue init) :
    ∃ after queue' middle, schedule k = .ok after ∧ after.Settled procs kids queue' init ∧ Round k after queue queue' middle := by
  have inv := settled.invariant
  obtain ⟨next, rq, turned, done, invariant, runs, -⟩ := inv.stable.schedule
  obtain ⟨middle, entered, held⟩ := inv.enters
  have turned' : turn k.schedClass k.table.pid none middle = .ok ((k.switched (next.getD k.idleproc) rq).running, rq) := by
    rw [runs, ← turn_entered entered]
    exact turned
  have pick : Pick k.schedClass (k.view queue) ((k.switched (next.getD k.idleproc) rq).view (remaining (candidates queue k.running) next))
      k.running.toList middle := ⟨entered, held, turned', congrArg (remaining (candidates queue k.running)) runs.symm, rfl⟩
  refine ⟨_, _, middle, done, ⟨invariant, fun pools => ?_⟩, ⟨rfl, rfl, fun _ => Iff.rfl, pick⟩⟩
  exact (pick.heaped pools (settled.heaped pools)).2.2

theorem Settled.rounds (settled : k.Settled procs kids queue init) (count : Nat) :
    ∃ dispatched after queue', Kernel.rounds count k = .ok (dispatched, after) ∧ after.Settled procs kids queue' init := by
  induction count generalizing k queue with
  | zero => exact ⟨[], k, queue, rfl, settled⟩
  | succ count ih =>
    obtain ⟨after, queue', middle, done, settled', -⟩ := settled.round
    obtain ⟨dispatched, last, queue'', rest, settled''⟩ := ih settled'
    refine ⟨after.current :: dispatched, last, queue'', ?_, settled''⟩
    rw [Kernel.rounds, done, ok_bind, rest]
    rfl

/-- `members` are those that want the processor under stride, and their strides are
`ghost` above `base`. -/
structure Contest (members : List Ptr) (base : BitVec 32) (ghost : Ptr → Nat) (k : Kernel) : Prop where
  settled : ∃ procs kids queue init, k.Settled procs kids queue init
  bound : k.schedClass = .stride
  listed : ∀ proc, proc ∈ members ↔ k.Contends proc
  spread : Spread base ghost k.rq members

/-- A round dispatches a process of least stride, which takes its pass. -/
theorem Contest.round (contest : Contest members base ghost k) (member : proc ∈ members) :
    ∃ after, schedule k = .ok after ∧ after.current ∈ members ∧ (∀ other ∈ members, ghost after.current ≤ ghost other) ∧
      after.rq.lab6Priority = k.rq.lab6Priority ∧
      Contest members base (Function.update ghost after.current (ghost after.current + pass k.rq after.current)) after := by
  obtain ⟨⟨procs, kids, queue, init, settled⟩, bound, listed, spread⟩ := contest
  obtain ⟨after, queue', middle, done, settled', ⟨schedClass, idleproc, contends, pick⟩⟩ := settled.round
  have heaped := settled.heaped (by rw [bound]; trivial)
  rw [bound] at pick heaped
  have same : ∀ proc, proc ∈ queue ++ k.running.toList ↔ proc ∈ members := fun proc =>
    (settled'.invariant.candidates_iff pick).trans ((contends proc).trans (listed proc).symm)
  have spread' := spread.mono (fun proc inside => (same proc).mp inside)
  rcases pick.least heaped spread' with ⟨empty, -⟩ | ⟨next, chosen, inside, least, keys⟩
  · have inside := (same proc).mpr member
    rw [show queue ++ k.running.toList = [] from empty] at inside
    cases inside
  · have current : after.current = next := by
      rw [settled'.invariant.current_eq, show after.running = some next from chosen]
      rfl
    have inside' := (same next).mp inside
    have least' : ∀ other ∈ members, ghost next ≤ ghost other := fun other member => least other ((same other).mpr member)
    refine ⟨after, done, current ▸ inside', current ▸ least', keys.priority, ⟨_, _, _, _, settled'⟩, schedClass.trans bound,
      fun proc => (listed proc).trans (contends proc).symm, ?_⟩
    rw [current]
    exact (spread.advance least' inside').congr (fun proc _ => congrFun keys.stride proc) (fun _ _ => rfl)

theorem Contest.rounds (contest : Contest members base ghost k) (member : proc ∈ members) (count : Nat) :
    ∃ dispatched after ghost', Kernel.rounds count k = .ok (dispatched, after) ∧ dispatched.length = count ∧
      LeastFirst members (pass k.rq) ghost dispatched ghost' ∧ Contest members base ghost' after ∧ pass after.rq = pass k.rq := by
  induction count generalizing k ghost with
  | zero => exact ⟨[], k, ghost, rfl, rfl, .done ghost, contest, rfl⟩
  | succ count ih =>
    obtain ⟨after, done, inside, least, priority, contest'⟩ := contest.round member
    obtain ⟨dispatched, last, ghost', rest, length, run, contest'', passes'⟩ := ih contest'
    have passes : pass after.rq = pass k.rq := by
      funext proc
      rw [RunQueue.pass, RunQueue.pass, priority]
    rw [passes] at run
    refine ⟨_, _, ghost', ?_, congrArg (· + 1) length, .next inside least run, contest'', passes'.trans passes⟩
    rw [Kernel.rounds, done, ok_bind, rest]
    rfl

/-- `proc` has the processor, and the least stride. -/
structure Leads (members : List Ptr) (base : BitVec 32) (ghost : Ptr → Nat) (k : Kernel) (proc : Ptr) : Prop where
  contest : Contest members base ghost k
  current : k.current = proc
  least : ∀ other ∈ members, ghost proc ≤ ghost other

theorem Leads.round (leads : Leads members base ghost k proc) (member : proc ∈ members) (still : pass k.rq proc = 0) :
    ∃ after, schedule k = .ok after ∧ Leads members base ghost after proc ∧ pass after.rq proc = 0 := by
  obtain ⟨contest, current, least⟩ := leads
  obtain ⟨after, done, -, -, priority, contest'⟩ := contest.round member
  obtain ⟨⟨procs, kids, queue, init, settled⟩, bound, listed, spread⟩ := contest
  obtain ⟨after', queue', middle, done', settled', ⟨-, -, -, pick⟩⟩ := settled.round
  cases Except.ok.inj (done.symm.trans done')
  have inv := settled.invariant
  obtain ⟨live, runnable, busy⟩ := (listed proc).mp member
  have top : k.running = some proc := running_eq_some.mpr ⟨current.symm, current ▸ inv.runnable, current ▸ busy⟩
  have absent := inv.running_absent proc top
  have holds := inv.stable.core.queued.holds
  have entered := pick.wakes
  have held := pick.held
  rw [bound, top, Option.toList_some] at entered held
  obtain ⟨middle', enters, same⟩ := bind_ok entered
  cases same
  have room : queue.length < maxProcess := by
    have bounded := held.room
    rw [List.length_append, List.length_singleton] at bounded
    exact bounded
  have pooled : ∃ tree, k.rq.Pooled tree ∧ tree.elems.Perm queue := by
    have contents := holds.contents
    rw [bound] at contents
    obtain ⟨tree, pooled, same, -⟩ := contents
    exact ⟨tree, pooled, same⟩
  have ties : ∀ other ∈ queue, procStrideCompF k.rq other proc ≠ -1 := by
    intro other inside
    have contends := (listed other).mpr (inv.contends_iff.mpr (Or.inl inside))
    rw [spread.compare contends member, ne_eq, Int.sign_eq_neg_one_iff_neg]
    have below := least other contends
    omega
  have root := enqueue_top pooled holds.distinct absent room enters ties
  have chosen : after.running = some proc := by
    rcases turn_cases pick.held pick.turns with ⟨empty, -⟩ | ⟨next, chosen, choice, -⟩
    · rw [top] at empty
      simp at empty
    · rw [bound] at choice
      cases Option.some.inj (root.symm.trans choice)
      exact chosen
  have current' : after.current = proc := by
    rw [settled'.invariant.current_eq, chosen]
    rfl
  rw [current', still, Nat.add_zero, Function.update_eq_self] at contest'
  refine ⟨after, done, ⟨contest', current', least⟩, ?_⟩
  rw [RunQueue.pass, priority]
  exact still

theorem Leads.rounds (leads : Leads members base ghost k proc) (member : proc ∈ members) (still : pass k.rq proc = 0) (count : Nat) :
    ∃ after, Kernel.rounds count k = .ok (List.replicate count proc, after) := by
  induction count generalizing k with
  | zero => exact ⟨k, rfl⟩
  | succ count ih =>
    obtain ⟨after, done, leads', still'⟩ := leads.round member still
    obtain ⟨last, rest⟩ := ih leads' still'
    refine ⟨last, ?_⟩
    rw [Kernel.rounds, done, ok_bind, rest, leads'.current]
    rfl

/-- From any state of the kernel with equal strides and fixed priorities, after any
number of rounds: weighted by the step of its own priority, no process is ahead of
another by more than one step. -/
theorem proportional_share : ∀ k procs kids queue init, Settled k procs kids queue init → k.schedClass = .stride → ∀ start,
    (∀ proc, k.Contends proc → k.rq.lab6Stride proc = start ∧ 1 ≤ (k.rq.lab6Priority proc).toNat ∧
      (k.rq.lab6Priority proc).toNat ≤ bigStride) →
    ∀ count, ∃ dispatched after, rounds count k = .ok (dispatched, after) ∧
      ∀ i j, k.Contends i → k.Contends j →
        ((dispatched.count i * (bigStride / (k.rq.lab6Priority i).toNat) : ℕ) : ℤ) -
          (dispatched.count j * (bigStride / (k.rq.lab6Priority j).toNat) : ℕ) ≤ (bigStride / (k.rq.lab6Priority i).toNat : ℕ) := by
  intro k procs kids queue init settled bound start keys count
  have listed : ∀ proc, proc ∈ queue ++ k.running.toList ↔ k.Contends proc := by
    intro proc
    rw [settled.invariant.contends_iff, List.mem_append, Option.mem_toList, Option.mem_def]
  have contest : Contest (queue ++ k.running.toList) start (fun _ => 0) k := by
    refine ⟨⟨_, _, _, _, settled⟩, bound, listed, fun proc inside => ?_, fun _ _ _ _ => Nat.zero_le _⟩
    rw [(keys proc ((listed proc).mp inside)).1]
    exact (add_zero start).symm
  by_cases nobody : queue ++ k.running.toList = []
  · obtain ⟨dispatched, after, queue', done, -⟩ := settled.rounds count
    refine ⟨dispatched, after, done, fun i j first => ?_⟩
    have inside := (listed i).mpr first
    rw [nobody] at inside
    cases inside
  · obtain ⟨someone, member⟩ := List.exists_mem_of_ne_nil _ nobody
    obtain ⟨dispatched, after, ghost, done, -, run, -⟩ := contest.rounds member count
    refine ⟨dispatched, after, done, fun i j first second => ?_⟩
    have share := run.share (fun _ _ _ _ => Nat.zero_le _) i ((listed i).mpr first) j ((listed j).mpr second)
    rw [run.value_eq, run.value_eq, zero_add, zero_add, pass_eq, pass_eq] at share
    omega

/-- A parent and its child have been dispatched once each since the child was forked. -/
theorem proportional_share_child : ∃ k dispatched after, rounds 5 k = .ok (dispatched, after) ∧
    ((dispatched.count 2 * (bigStride / (k.rq.lab6Priority 2).toNat) : ℕ) : ℤ) -
      (dispatched.count 3 * (bigStride / (k.rq.lab6Priority 3).toNat) : ℕ) ≤ (bigStride / (k.rq.lab6Priority 2).toNat : ℕ) := by
  have reaches : ∃ k, Reachable .stride k ∧ (∀ proc ∈ k.allocated, k.Contends proc → k.rq.lab6Stride proc = BitVec.ofNat 32 bigStride ∧
      1 ≤ (k.rq.lab6Priority proc).toNat ∧ (k.rq.lab6Priority proc).toNat ≤ bigStride) ∧ k.Contends 2 ∧ k.Contends 3 :=
    @playFrom_reaches .stride [.resume, .initMain (granting 2), .resume, .userMain .loaded, .syscall (.fork (granting 3)), .resume,
      .syscall .yield, .resume] _ _ (by decide +kernel)
  obtain ⟨k, reached, keys, first, second⟩ := reaches
  obtain ⟨procs, kids, queue, init, settled⟩ := reached.settled
  obtain ⟨dispatched, after, done, share⟩ := proportional_share k procs kids queue init settled reached.schedClass_eq _
    (fun proc contends => keys proc contends.1 contends) 5
  exact ⟨k, dispatched, after, done, share 2 3 first second⟩

/-- In any `count` rounds, now or later, each of those that want the processor is
dispatched. -/
def Serves (k : Kernel) (count : Nat) : Prop :=
  ∀ before, ∃ dispatched middle dispatched' after, rounds before k = .ok (dispatched, middle) ∧
    rounds count middle = .ok (dispatched', after) ∧ ∀ proc, k.Contends proc → proc ∈ dispatched'

/-- With passes above zero all are served, in a number of rounds that depends on how
many there are. -/
theorem Contest.serves (contest : Contest members base ghost k)
    (positive : members.length ≤ 1 ∨ ∀ proc ∈ members, 0 < pass k.rq proc) : k.Serves (members.length * (bigStride + 1)) := by
  intro before
  by_cases nobody : members = []
  · obtain ⟨procs, kids, queue, init, settled⟩ := contest.settled
    obtain ⟨dispatched, middle, queue', done, settled'⟩ := settled.rounds before
    obtain ⟨dispatched', after, -, done', -⟩ := settled'.rounds (members.length * (bigStride + 1))
    refine ⟨dispatched, middle, dispatched', after, done, done', fun proc contends => ?_⟩
    have inside := (contest.listed proc).mpr contends
    rw [nobody] at inside
    cases inside
  obtain ⟨someone, member⟩ := List.exists_mem_of_ne_nil _ nobody
  obtain ⟨dispatched, middle, ghost', done, -, -, contest', passes⟩ := contest.rounds member before
  obtain ⟨dispatched', after, ghost'', done', length, run, -⟩ := contest'.rounds member (members.length * (bigStride + 1))
  refine ⟨dispatched, middle, dispatched', after, done, done', fun proc contends => ?_⟩
  have inside := (contest.listed proc).mpr contends
  by_contra absent
  rcases positive with alone | positive
  · have size : 0 < dispatched'.length := by
      rw [length]
      exact Nat.mul_pos (List.length_pos_of_mem inside) (Nat.succ_pos _)
    obtain ⟨first, chosen⟩ := List.exists_mem_of_length_pos size
    obtain ⟨only, rfl⟩ := List.length_eq_one_iff.mp (le_antisymm alone (List.length_pos_of_mem inside))
    rw [List.mem_singleton.mp (run.subset chosen), ← List.mem_singleton.mp inside] at chosen
    exact absent chosen
  · rw [← passes] at positive
    have short := run.length_lt positive inside absent
    have bound : LeastFirst.gap members ghost' proc ≤ members.length * (bigStride + 1) :=
      LeastFirst.gap_le (fun item member => contest'.spread.near proc inside item member)
    omega

/-- A dispatch of `proc` leads to a state in which it leads. -/
theorem Contest.leads (contest : Contest members base ghost k) (member : proc ∈ members) (still : pass k.rq proc = 0) {count : Nat}
    {dispatched : List Ptr} (run : Kernel.rounds count k = .ok (dispatched, after)) (inside : proc ∈ dispatched) :
    ∃ before dispatched' middle ghost', Kernel.rounds before k = .ok (dispatched', middle) ∧ Leads members base ghost' middle proc ∧
      pass middle.rq proc = 0 := by
  induction count generalizing k ghost dispatched with
  | zero =>
    cases run
    cases inside
  | succ count ih =>
    obtain ⟨middle, done, -, least, priority, contest'⟩ := contest.round member
    have still' : pass middle.rq proc = 0 := by
      rw [RunQueue.pass, priority]
      exact still
    rw [Kernel.rounds, done, ok_bind] at run
    obtain ⟨⟨dispatched', last⟩, rest, same⟩ := bind_ok run
    cases same
    by_cases now : middle.current = proc
    · rw [now, still, Nat.add_zero, Function.update_eq_self] at contest'
      refine ⟨1, [middle.current], middle, ghost, ?_, ⟨contest', now, now ▸ least⟩, still'⟩
      rw [Kernel.rounds, done]
      rfl
    · have later := (List.mem_cons.mp inside).resolve_left (Ne.symm now)
      obtain ⟨before, dispatched'', reached, ghost', path, leads, still''⟩ := ih contest' still' rest later
      refine ⟨before + 1, middle.current :: dispatched'', reached, ghost', ?_, leads, still''⟩
      rw [Kernel.rounds, done, ok_bind, path]
      rfl

theorem Contest.starves {other : Ptr} (contest : Contest members base ghost k) (member : proc ∈ members) (inside : other ∈ members)
    (apart : other ≠ proc) (still : pass k.rq proc = 0) (count : Nat) : ¬ k.Serves count := by
  intro serves
  obtain ⟨_, middle, dispatched, after, done, run, served⟩ := serves 0
  cases done
  obtain ⟨before, dispatched', middle, ghost', path, leads, still'⟩ :=
    contest.leads member still run (served proc ((contest.listed proc).mp member))
  obtain ⟨_, _, dispatched'', after', path', run', served'⟩ := serves before
  cases Except.ok.inj (path.symm.trans path')
  obtain ⟨after'', hogged⟩ := leads.rounds member still' count
  cases Except.ok.inj (hogged.symm.trans run')
  exact apart (List.eq_of_mem_replicate (served' other ((contest.listed other).mp inside)))

/-- Under stride, with strides in one window and priorities that `lab6_set_priority`
can store, a bound on the rounds until everybody is served exists exactly if nobody
else wants the processor or all priorities are at most `BIG_STRIDE`. -/
theorem stride_serves : ∀ k procs kids queue init, Settled k procs kids queue init → k.schedClass = .stride →
    ∀ members, members.Nodup → (∀ proc, proc ∈ members ↔ k.Contends proc) → (∃ base, Within base k.rq members) →
    (∀ proc ∈ members, k.rq.lab6Priority proc ≠ 0) →
    ((∃ count, k.Serves count) ↔ members.length ≤ 1 ∨ ∀ proc ∈ members, (k.rq.lab6Priority proc).toNat ≤ bigStride) ∧
    ((∀ proc ∈ members, (k.rq.lab6Priority proc).toNat ≤ bigStride) → k.Serves (members.length * (bigStride + 1))) := by
  intro k procs kids queue init settled bound members distinct listed window stored
  obtain ⟨base, within⟩ := window
  have contest : Contest members base (offset base k.rq) k := ⟨⟨_, _, _, _, settled⟩, bound, listed, within.spread⟩
  have positive : ∀ proc ∈ members, (0 < pass k.rq proc ↔ (k.rq.lab6Priority proc).toNat ≤ bigStride) := by
    intro proc inside
    have nonzero : 0 < (k.rq.lab6Priority proc).toNat := by
      apply Nat.pos_of_ne_zero
      exact fun zero => stored proc inside (BitVec.eq_of_toNat_eq zero)
    rw [pass_eq, Nat.div_pos_iff]
    exact and_iff_right nonzero
  refine ⟨⟨?_, ?_⟩, fun small => contest.serves (Or.inr fun proc inside => (positive proc inside).mpr (small proc inside))⟩
  · rintro ⟨count, serves⟩
    by_contra neither
    obtain ⟨crowd, large⟩ := not_or.mp neither
    simp only [not_forall, not_le] at large
    obtain ⟨proc, member, large⟩ := large
    have still : pass k.rq proc = 0 := by
      have none := mt (positive proc member).mp (Nat.not_le.mpr large)
      omega
    have others : ∃ other ∈ members, other ≠ proc := by
      by_contra only
      simp only [not_exists, not_and, not_not] at only
      have same : members = List.replicate members.length proc := List.eq_replicate_iff.mpr ⟨rfl, only⟩
      rw [same, List.nodup_replicate] at distinct
      exact crowd distinct
    obtain ⟨other, inside, apart⟩ := others
    exact contest.starves member inside apart still count serves
  · rintro (alone | small)
    · exact ⟨_, contest.serves (Or.inl alone)⟩
    · exact ⟨_, contest.serves (Or.inr fun proc inside => (positive proc inside).mpr (small proc inside))⟩

private theorem pair_listed {p q : Ptr} (first : k.Contends p) (second : k.Contends q)
    (only : ∀ proc ∈ k.allocated, k.Contends proc → proc ∈ [p, q]) (proc : Ptr) : proc ∈ [p, q] ↔ k.Contends proc := by
  constructor
  · intro inside
    rcases List.mem_cons.mp inside with rfl | inside
    · exact first
    · rw [List.mem_singleton.mp inside]
      exact second
  · exact fun contends => only proc contends.1 contends

/-- The same two processes. -/
theorem stride_serves_child : ∃ k : Kernel, k.Contends 2 ∧ k.Contends 3 ∧ k.Serves (2 * (bigStride + 1)) := by
  have reaches : ∃ k, Reachable .stride k ∧ (∀ proc ∈ k.allocated, k.Contends proc → proc ∈ [2, 3]) ∧ k.Contends 2 ∧ k.Contends 3 ∧
      (∀ proc ∈ [2, 3], offset 0 k.rq proc ≤ bigStride) ∧
      ∀ proc ∈ [2, 3], k.rq.lab6Priority proc ≠ 0 ∧ (k.rq.lab6Priority proc).toNat ≤ bigStride :=
    @playFrom_reaches .stride [.resume, .initMain (granting 2), .resume, .userMain .loaded, .syscall (.fork (granting 3)), .resume,
      .syscall .yield, .resume] _ _ (by decide +kernel)
  obtain ⟨k, reached, only, first, second, within, priorities⟩ := reaches
  obtain ⟨procs, kids, queue, init, settled⟩ := reached.settled
  have listed := pair_listed first second only
  have serves := (stride_serves k procs kids queue init settled reached.schedClass_eq [2, 3] (by decide) listed ⟨0, within⟩
    (fun proc inside => (priorities proc inside).1)).2
  exact ⟨k, first, second, serves (fun proc inside => (priorities proc inside).2)⟩

/-- A process sets its priority to 2^31, and its step becomes zero. -/
theorem child_starved : ¬ ∀ k, Reachable .stride k → ∀ members, (∀ proc, proc ∈ members ↔ k.Contends proc) →
    (∃ base, Within base k.rq members) → (∀ proc ∈ members, k.rq.lab6Priority proc ≠ 0) → ∃ count, k.Serves count := by
  intro bounded
  have reaches : ∃ k, Reachable .stride k ∧ (∀ proc ∈ k.allocated, k.Contends proc → proc ∈ [2, 3]) ∧ k.Contends 2 ∧ k.Contends 3 ∧
      (∀ proc ∈ [2, 3], offset 0 k.rq proc ≤ bigStride) ∧ (∀ proc ∈ [2, 3], k.rq.lab6Priority proc ≠ 0) ∧ pass k.rq 2 = 0 :=
    @playFrom_reaches .stride [.resume, .initMain (granting 2), .resume, .userMain .loaded, .syscall (.setPriority (2 ^ 31)), .resume,
      .syscall (.fork (granting 3)), .resume] _ _ (by decide +kernel)
  obtain ⟨k, reached, only, first, second, within, stored, still⟩ := reaches
  obtain ⟨procs, kids, queue, init, settled⟩ := reached.settled
  have listed := pair_listed first second only
  have within : Within 0 k.rq [2, 3] := within
  have contest : Contest [2, 3] 0 (offset 0 k.rq) k := ⟨⟨_, _, _, _, settled⟩, reached.schedClass_eq, listed, within.spread⟩
  obtain ⟨count, serves⟩ := bounded k reached [2, 3] listed ⟨0, within⟩ stored
  exact contest.starves (by decide) (by decide : 3 ∈ [2, 3]) (by decide) still count serves

end Kernel

end Ucore
