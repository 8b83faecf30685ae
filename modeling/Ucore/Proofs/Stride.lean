import Mathlib
import Ucore.Proofs.Selection

/-! The strides of the processes that want the processor stay in one window, unless
a process joins them with a stride from outside it. -/

namespace Ucore
open Lib

namespace RunQueue

variable {rq after : RunQueue} {queue members : List Ptr} {next proc : Ptr} {base : BitVec 32} {ghost : Ptr → Nat}

/-- What a dispatch adds to the stride of `proc`. -/
def pass (rq : RunQueue) (proc : Ptr) : Nat := (BitVec.ofNat 32 bigStride / rq.lab6Priority proc).toNat

theorem pass_le (rq : RunQueue) (proc : Ptr) : pass rq proc ≤ bigStride := by
  rw [pass, BitVec.toNat_udiv]
  exact Nat.div_le_self _ _

theorem advance_stride (proc : Ptr) (rq : RunQueue) :
    (advance proc rq).lab6Stride = Function.update rq.lab6Stride proc (rq.lab6Stride proc + BitVec.ofNat 32 (pass rq proc)) := by
  rw [pass, BitVec.ofNat_toNat, BitVec.setWidth_eq]
  rfl

/-- A process of least stride takes its pass. -/
theorem Spread.advance (spread : Spread base ghost rq members) (least : ∀ other ∈ members, ghost next ≤ ghost other)
    (member : next ∈ members) :
    Spread base (Function.update ghost next (ghost next + pass rq next)) (advance next rq) members := by
  have bound := pass_le rq next
  constructor
  · intro proc inside
    rw [advance_stride]
    by_cases own : proc = next
    · rw [own, Function.update_self, Function.update_self, spread.value next member, BitVec.ofNat_add, add_assoc]
    · rw [Function.update_of_ne own, Function.update_of_ne own, spread.value proc inside]
  · intro p first q second
    have near := spread.near p first q second
    by_cases left : p = next
    · by_cases right : q = next
      · rw [left, right]
        omega
      · rw [left, Function.update_self, Function.update_of_ne right]
        have below := least q second
        omega
    · by_cases right : q = next
      · rw [right, Function.update_self, Function.update_of_ne left]
        rw [right] at near
        omega
      · rw [Function.update_of_ne left, Function.update_of_ne right]
        exact near

/-- The keys of the processes in `members` are the same. -/
theorem Spread.congr {other : RunQueue} {ghost' : Ptr → Nat} (spread : Spread base ghost rq members)
    (stride : ∀ proc ∈ members, other.lab6Stride proc = rq.lab6Stride proc) (same : ∀ proc ∈ members, ghost' proc = ghost proc) :
    Spread base ghost' other members := by
  constructor
  · intro proc inside
    rw [stride proc inside, same proc inside]
    exact spread.value proc inside
  · intro p first q second
    rw [same p first, same q second]
    exact spread.near p first q second

end RunQueue

open RunQueue

variable {before after : View} {added : List Ptr} {middle : RunQueue} {base : BitVec 32} {ghost : Ptr → Nat}

/-- A pick takes a process of least stride, which advances by its pass. -/
theorem Pick.least (pick : Pick .stride before after added middle) (heaped : Heaped .stride before.pid before.rq before.queue)
    (spread : Spread base ghost before.rq (before.queue ++ added)) :
    (before.queue ++ added = [] ∧ after.running = none ∧ SameKeys before.rq after.rq) ∨
      ∃ next, after.running = some next ∧ next ∈ before.queue ++ added ∧
        (∀ other ∈ before.queue ++ added, ghost next ≤ ghost other) ∧ SameKeys (advance next before.rq) after.rq := by
  obtain ⟨entered, keys, -⟩ := pick.heaped trivial heaped
  rcases turn_cases pick.held pick.turns with ⟨empty, nobody, same⟩ | ⟨next, chosen, choice, done⟩
  · exact Or.inl ⟨empty, nobody, same ▸ keys⟩
  · right
    have spread' : Spread base ghost middle (before.queue ++ added) :=
      spread.congr (fun proc _ => congrFun keys.stride proc) (fun _ _ => rfl)
    have least : next ∈ before.queue ++ added ∧ ∀ other ∈ before.queue ++ added, ghost next ≤ ghost other :=
      entered.least (fun p first q second => spread'.above first second) choice
    have left := dequeue_keys done
    refine ⟨next, chosen, least.1, least.2, ?_, ?_, ?_, ?_⟩
    · rw [left.stride, picked, advance_stride, advance_stride, RunQueue.pass, RunQueue.pass, keys.stride, keys.priority]
    · exact left.priority.trans keys.priority
    · rw [left.trueStride]
      exact congrArg₂ (fun trueStride lab6Priority => Function.update trueStride next (trueStride next +
        (BitVec.ofNat 32 bigStride / lab6Priority next).toNat)) keys.trueStride keys.priority
    · exact left.slice.trans keys.slice

namespace Kernel

variable {k after : Kernel} {procs queue procs' queue' : List Ptr} {kids kids' : Ptr → List Ptr} {proc init : Ptr} {killed : Option Ptr}
  {asked : Option (Int × Nat)}

/-- The true stride with which `proc` comes into the next state: it is zero at `alloc_proc`. -/
def comes (k : Kernel) (proc : Ptr) : Nat := if proc ∈ k.allocated then k.rq.trueStride proc else 0

theorem comes_live (live : k.Live proc) : k.comes proc = k.rq.trueStride proc := if_pos live

/-- A process that begins to want the processor has a true stride within `BIG_STRIDE`
of those of all the others that want it. -/
def Joins (k : Kernel) (_event : Event) (after : Kernel) : Prop :=
  ∀ p q, after.Contends p → after.Contends q → ¬ k.Contends p →
    k.comes p ≤ k.comes q + bigStride ∧ k.comes q ≤ k.comes p + bigStride

instance (k : Kernel) (event : Event) (after : Kernel) : Decidable (Joins k event after) :=
  decidable_of_iff (∀ p ∈ after.allocated, ∀ q ∈ after.allocated, after.Contends p → after.Contends q → ¬ k.Contends p →
    k.comes p ≤ k.comes q + bigStride ∧ k.comes q ≤ k.comes p + bigStride)
    ⟨fun bounded p q first second => bounded p first.1 q second.1 first second, fun joins p _ q _ => joins p q⟩

/-- `lab6_stride` is the true stride modulo 2^32, and the true strides of the processes
that want the processor lie in one window. -/
structure Even (k : Kernel) : Prop where
  value : ∀ proc, k.Live proc → k.rq.lab6Stride proc = BitVec.ofNat 32 (k.rq.trueStride proc)
  near : ∀ p q, k.Contends p → k.Contends q → k.rq.trueStride p ≤ k.rq.trueStride q + bigStride

theorem Even.spread {members : List Ptr} (even : k.Even) (contend : ∀ proc ∈ members, k.Contends proc) :
    Spread 0 k.rq.trueStride k.rq members := by
  constructor
  · intro proc inside
    refine Eq.trans ?_ (zero_add _).symm
    exact even.value proc (contend proc inside).1
  · exact fun p first q second => even.near p q (contend p first) (contend q second)

private theorem Even.joined {event : Event} (even : k.Even) (joins : Joins k event after) {p q : Ptr} (first : after.Contends p)
    (second : after.Contends q) : k.comes p ≤ k.comes q + bigStride := by
  by_cases old : k.Contends p
  · by_cases old' : k.Contends q
    · rw [comes_live old.1, comes_live old'.1]
      exact even.near p q old old'
    · exact (joins q p second first old').2
  · exact (joins p q first second old).1

theorem Even.step {event : Event} (even : k.Even) (bound : k.schedClass = .stride) (settled : k.Settled procs kids queue init)
    (moves : Moves k after killed asked procs' kids' queue queue' init) (joins : Joins k event after) : after.Even := by
  have near := fun p q (first : after.Contends p) (second : after.Contends q) => even.joined joins first second
  cases moves.dispatch with
  | none _ _ strides =>
    have kept : ∀ proc, after.Live proc →
        after.rq.trueStride proc = k.comes proc ∧ after.rq.lab6Stride proc = BitVec.ofNat 32 (k.comes proc) := by
      intro proc live
      rcases moves.life.before live with old | ⟨fresh, -, -, stride, trueStride⟩
      · have same := strides proc old live
        rw [comes_live old, same.1, same.2]
        exact ⟨rfl, even.value proc old⟩
      · rw [comes, if_neg fresh]
        exact ⟨trueStride, stride⟩
    constructor
    · intro proc live
      rw [(kept proc live).1, (kept proc live).2]
    · intro p q first second
      rw [(kept p first.1).1, (kept q second.1).1]
      exact near p q first second
  | next effect _ old =>
    obtain ⟨added, middle, pick⟩ := settled.invariant.pick effect
    rw [bound] at pick
    have heaped := settled.heaped (by rw [bound]; trivial)
    rw [bound] at heaped
    have members : ∀ proc, proc ∈ queue ++ added ↔ after.Contends proc := fun proc => moves.invariant.candidates_iff pick
    have spread : Spread 0 k.rq.trueStride k.rq (queue ++ added) := by
      constructor
      · intro proc inside
        refine Eq.trans ?_ (zero_add _).symm
        exact even.value proc (old proc ((members proc).mp inside).1)
      · intro p first q second
        have joined := near p q ((members p).mp first) ((members q).mp second)
        rw [comes_live (old p ((members p).mp first).1), comes_live (old q ((members q).mp second).1)] at joined
        exact joined
    rcases pick.least heaped spread with ⟨empty, -, keys⟩ | ⟨next, -, member, least, keys⟩
    · constructor
      · intro proc live
        rw [show after.rq.lab6Stride = k.rq.lab6Stride from keys.stride, show after.rq.trueStride = k.rq.trueStride from keys.trueStride]
        exact even.value proc (old proc live)
      · intro p q first
        have inside := (members p).mpr first
        rw [show queue ++ added = [] from empty] at inside
        cases inside
    · have ahead := spread.advance least member
      have stride : after.rq.lab6Stride = (advance next k.rq).lab6Stride := keys.stride
      have trueStride : after.rq.trueStride = Function.update k.rq.trueStride next (k.rq.trueStride next + k.rq.pass next) :=
        keys.trueStride
      constructor
      · intro proc live
        by_cases inside : proc ∈ queue ++ added
        · rw [stride, trueStride]
          exact (ahead.value proc inside).trans (zero_add _)
        · have away : proc ≠ next := fun same => inside (same ▸ member)
          rw [stride, trueStride, advance_stride, Function.update_of_ne away, Function.update_of_ne away]
          exact even.value proc (old proc live)
      · intro p q first second
        rw [trueStride]
        exact ahead.near p ((members p).mpr first) q ((members q).mpr second)

theorem booted_even {memory : Kernel} {idle : Ptr} {answers : ForkAnswers}
    (granted : answers.proc ≠ some idle ∧ (answers.copyMm = 0 ∨ answers.copyMm = -eNoMem))
    (booted : boot .stride memory idle answers = .ok k) : k.Even := by
  have fresh : ∀ proc, k.Live proc → k.rq.lab6Stride proc = 0 ∧ k.rq.trueStride proc = 0 := by
    rcases boot_spec granted with ⟨init, after, kids, done, forked, -⟩ | failed
    · cases Except.ok.inj (done.symm.trans booted)
      have frame := forked.frame
      have idleStrides : after.rq.lab6Stride idle = 0 ∧ after.rq.trueStride idle = 0 := by
        have kept := frame.strides idle List.mem_cons_self
        exact ⟨kept.1.trans (Function.update_self _ _ _), kept.2.trans (Function.update_self _ _ _)⟩
      intro proc live
      rcases frame.born with ⟨-, allocated⟩ | ⟨init, -, -, allocated, -, -, -, -, strides⟩
      · rw [Live, allocated] at live
        cases List.mem_singleton.mp live
        exact idleStrides
      · rw [Live, allocated] at live
        rcases List.mem_cons.mp live with rfl | live
        · exact strides
        · cases List.mem_singleton.mp live
          exact idleStrides
    · cases failed.symm.trans booted
  constructor
  · intro proc live
    rw [(fresh proc live).1, (fresh proc live).2]
    rfl
  · intro p q first second
    rw [(fresh p first.1).2]
    exact Nat.zero_le _

theorem Guarded.even (guarded : Guarded .stride Joins k) : k.Even := by
  induction guarded with
  | boot granted booted => exact booted_even granted booted
  | step reached enabled stepped joins even =>
    have reached := reached.reachable
    obtain ⟨procs, kids, queue, init, settled⟩ := reached.settled
    rcases step_ends settled.invariant enabled with ⟨after, procs', kids', queue', done, moves⟩ | ⟨halt, -, done⟩
    · cases Except.ok.inj (done.symm.trans stepped)
      exact even.step reached.schedClass_eq settled moves joins
    · cases done.symm.trans stepped

/-- In the runs in which every process that begins to want the processor has a true
stride within `BIG_STRIDE` of those of all the others that want it, the true
strides in the run queue differ by at most `BIG_STRIDE`, and the comparison orders
the queue by them. -/
theorem stride_order : ∀ k, Guarded .stride Joins k → ∀ queue, k.rq.Contents queue .stride → ∀ p ∈ queue, ∀ q ∈ queue,
    k.rq.trueStride p ≤ k.rq.trueStride q + bigStride ∧ k.rq.lab6Stride p = BitVec.ofNat 32 (k.rq.trueStride p) ∧
      procStrideCompF k.rq p q = ((k.rq.trueStride p : ℤ) - k.rq.trueStride q).sign := by
  intro k guarded queue contents p first q second
  have even := guarded.even
  obtain ⟨procs, kids, queue', init, settled⟩ := guarded.reachable.settled
  have bound := guarded.reachable.schedClass_eq
  have heaped := settled.heaped (by rw [bound]; trivial)
  rw [bound] at heaped
  have contend : ∀ proc ∈ queue, k.Contends proc := by
    intro proc inside
    have member := (heaped.contents trivial contents).symm.subset inside
    exact settled.invariant.contends_iff.mpr (Or.inl member)
  have spread := even.spread contend
  exact ⟨spread.near p first q second, even.value p (contend p first).1, spread.compare first second⟩

/-- Two children of `user_main`'s process are queued. -/
theorem stride_order_children : ∃ (k : Kernel) (queue : List Ptr), k.rq.Contents queue .stride ∧ 3 ∈ queue ∧ 4 ∈ queue ∧
    k.rq.trueStride 3 ≤ k.rq.trueStride 4 + bigStride := by
  have reaches : ∃ k, Guarded .stride Joins k ∧ k.Contends 3 ∧ k.Contends 4 ∧ k.current = 2 :=
    @playFromUnder_reaches .stride [.resume, .initMain (granting 2), .resume, .userMain .loaded, .syscall (.fork (granting 3)),
      .resume, .syscall (.fork (granting 4)), .resume] Joins _ _ _ (by decide +kernel)
  obtain ⟨k, guarded, first, second, here⟩ := reaches
  obtain ⟨queue, contents, inside⟩ := guarded.reachable.queued
  have left := inside 3 first (by rw [here]; decide)
  have right := inside 4 second (by rw [here]; decide)
  exact ⟨k, queue, contents, left, right, (stride_order k guarded queue contents 3 left 4 right).1⟩

/-- A process that has run for some time forks two children, whose strides are zero. -/
theorem stride_window_left : ¬ ∀ k, Reachable .stride k → ∀ queue, k.rq.Contents queue .stride → ∀ p ∈ queue, ∀ q ∈ queue,
    k.rq.trueStride p ≤ k.rq.trueStride q + bigStride := by
  intro window
  have reaches : ∃ k, Reachable .stride k ∧ k.Contends 2 ∧ k.Contends 3 ∧ k.current = 4 ∧
      k.rq.trueStride 3 + bigStride < k.rq.trueStride 2 :=
    @playFrom_reaches .stride [.resume, .initMain (granting 2), .resume, .userMain .loaded, .syscall (.setPriority 2), .resume,
      .syscall .yield, .resume, .resume, .syscall (.fork (granting 3)), .resume, .syscall (.fork (granting 4)), .resume,
      .syscall .yield, .resume] _ _ (by decide +kernel)
  obtain ⟨k, reached, first, second, here, far⟩ := reaches
  obtain ⟨queue, contents, inside⟩ := reached.queued
  have near := window k reached queue contents 2 (inside 2 first (by rw [here]; decide)) 3
    (inside 3 second (by rw [here]; decide))
  omega

end Kernel

end Ucore
