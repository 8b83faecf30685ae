import Mathlib
import Ucore.Proofs.HeapOrder

/-! The top of the pool is what a scan of all queued processes would select: by a key
under shortest-job-first and highest-priority-first, and under stride as long as
the strides lie in one window, where the signed difference is an order. -/

namespace Ucore
open Lib

namespace RunQueue

variable {schedClass : SchedClass} {rq : RunQueue} {queue members : List Ptr} {proc p q : Ptr} {pid : Ptr → Int} {base : BitVec 32}
  {ghost : Ptr → Nat}

/-- Least `lab6_priority` first, then least pid. -/
def sjfKey (pid : Ptr → Int) (rq : RunQueue) (proc : Ptr) : ℤ ×ₗ ℤ := toLex (((rq.lab6Priority proc).toNat : ℤ), pid proc)

/-- Greatest `lab6_priority` first, then least pid. -/
def hpfKey (pid : Ptr → Int) (rq : RunQueue) (proc : Ptr) : ℤ ×ₗ ℤ := toLex (-((rq.lab6Priority proc).toNat : ℤ), pid proc)

theorem procSjfCompF_iff : procSjfCompF pid rq p q = -1 ↔ sjfKey pid rq p < sjfKey pid rq q := by
  simp only [sjfKey, Prod.Lex.toLex_lt_toLex, procSjfCompF, gt_iff_lt, BitVec.lt_def]
  split_ifs <;> grind

theorem procPrioCompF_iff : procPrioCompF pid rq p q = -1 ↔ hpfKey pid rq p < hpfKey pid rq q := by
  simp only [hpfKey, Prod.Lex.toLex_lt_toLex, procPrioCompF, gt_iff_lt, BitVec.lt_def]
  split_ifs <;> grind

/-- `ghost` are the strides of `members` above `base`, without wrap-around, and no two of
them are further apart than `BIG_STRIDE`. -/
structure Spread (base : BitVec 32) (ghost : Ptr → Nat) (rq : RunQueue) (members : List Ptr) : Prop where
  value : ∀ proc ∈ members, rq.lab6Stride proc = base + BitVec.ofNat 32 (ghost proc)
  near : ∀ p ∈ members, ∀ q ∈ members, ghost p ≤ ghost q + bigStride

theorem Spread.mono {others : List Ptr} (spread : Spread base ghost rq members) (subset : others ⊆ members) :
    Spread base ghost rq others :=
  ⟨fun proc inside => spread.value proc (subset inside),
    fun p first q second => spread.near p (subset first) q (subset second)⟩

theorem Spread.compare (spread : Spread base ghost rq members) (first : p ∈ members) (second : q ∈ members) :
    procStrideCompF rq p q = ((ghost p : ℤ) - ghost q).sign := by
  have bound : bigStride = 2 ^ 30 := rfl
  have above := spread.near p first q second
  have below := spread.near q second p first
  have difference : (rq.lab6Stride p - rq.lab6Stride q).toInt = (ghost p : ℤ) - ghost q := by
    rw [spread.value p first, spread.value q second, add_sub_add_left_eq_sub, BitVec.toInt_sub, BitVec.toInt_ofNat',
      BitVec.toInt_ofNat', Int.bmod_sub_bmod, Int.sub_bmod_bmod]
    apply Int.bmod_eq_of_le
    · omega
    · omega
  rw [procStrideCompF, difference]
  rcases lt_trichotomy ((ghost p : ℤ) - ghost q) 0 with less | same | more
  · rw [Int.sign_eq_neg_one_of_neg less, if_neg (by omega), if_neg (by omega)]
  · rw [same]
    rfl
  · rw [Int.sign_eq_one_of_pos more, if_pos more]

theorem above_sjf (above : Above pid rq .sjf p q) : sjfKey pid rq p ≤ sjfKey pid rq q := by
  rcases above with before | after
  · exact (procSjfCompF_iff.mp (of_decide_eq_true before)).le
  · exact not_lt.mp (fun less => of_decide_eq_false after (procSjfCompF_iff.mpr less))

theorem above_hpf (above : Above pid rq .hpf p q) : hpfKey pid rq p ≤ hpfKey pid rq q := by
  rcases above with before | after
  · exact (procPrioCompF_iff.mp (of_decide_eq_true before)).le
  · exact not_lt.mp (fun less => of_decide_eq_false after (procPrioCompF_iff.mpr less))

theorem Spread.above (spread : Spread base ghost rq members) (first : p ∈ members) (second : q ∈ members)
    (above : Above pid rq .stride p q) : ghost p ≤ ghost q := by
  rcases above with before | after
  · have less : procStrideCompF rq p q = -1 := of_decide_eq_true before
    rw [spread.compare first second, Int.sign_eq_neg_one_iff_neg] at less
    omega
  · have more : ¬ procStrideCompF rq q p = -1 := of_decide_eq_false after
    rw [spread.compare second first, Int.sign_eq_neg_one_iff_neg] at more
    omega

/-- The process on top of the heap has the least key. -/
theorem Heaped.least {β : Type} [LinearOrder β] {key : Ptr → β} (heaped : Heaped schedClass pid rq queue)
    (agrees : ∀ p ∈ queue, ∀ q ∈ queue, Above pid rq schedClass p q → key p ≤ key q) (root : rq.lab6RunPool = some proc) :
    proc ∈ queue ∧ ∀ other ∈ queue, key proc ≤ key other := by
  obtain ⟨tree, pooled, same, edges⟩ := heaped
  have top : tree.root = some proc := pooled.root.symm.trans root
  have sorted : tree.Edges (fun p q => key p ≤ key q) :=
    edges.congr (fun p first q second => agrees p (same.subset first) q (same.subset second))
  refine ⟨same.subset (SkewTree.root_mem top), fun other member => ?_⟩
  exact sorted.root_le (fun _ _ => le_refl _) (fun _ _ _ _ _ _ => le_trans) top (same.symm.subset member)

/-- How far the stride of `proc` is above `base`. -/
def offset (base : BitVec 32) (rq : RunQueue) (proc : Ptr) : Nat := (rq.lab6Stride proc - base).toNat

/-- The strides of `queue` lie in the window of size `BIG_STRIDE` above `base`. -/
def Within (base : BitVec 32) (rq : RunQueue) (queue : List Ptr) : Prop := ∀ proc ∈ queue, offset base rq proc ≤ bigStride

theorem Within.spread (within : Within base rq queue) : Spread base (offset base rq) rq queue := by
  constructor
  · intro proc _
    rw [offset, BitVec.ofNat_toNat, BitVec.setWidth_eq, add_sub_cancel]
  · intro p first q _
    have bound := within p first
    omega

/-- `least` has the least stride in `queue`. -/
def Least (ghost : Ptr → Nat) (queue : List Ptr) : Option Ptr → Prop
  | none => queue = []
  | some least => least ∈ queue ∧ ∀ other ∈ queue, ghost least ≤ ghost other

theorem Least.snoc {least : Option Ptr} (smallest : Least ghost queue least) (spread : Spread base ghost rq (queue ++ [proc])) :
    Least ghost (queue ++ [proc]) (some (strideLesser rq proc least)) := by
  cases least with
  | none =>
    have empty : queue = [] := smallest
    rw [empty]
    refine ⟨List.mem_cons_self, fun other inside => ?_⟩
    rw [List.mem_singleton.mp inside, strideLesser]
  | some least =>
    obtain ⟨member, below⟩ := smallest
    have sign : procStrideCompF rq proc least < 0 ↔ ghost proc < ghost least := by
      rw [spread.compare (by simp) (by simp [member]), Int.sign_neg_iff]
      omega
    rw [strideLesser]
    by_cases less : procStrideCompF rq proc least < 0
    · rw [if_pos less]
      refine ⟨by simp, fun other inside => ?_⟩
      rcases List.mem_append.mp inside with old | new
      · exact (sign.mp less).le.trans (below other old)
      · rw [List.mem_singleton.mp new]
    · rw [if_neg less]
      refine ⟨by simp [member], fun other inside => ?_⟩
      rcases List.mem_append.mp inside with old | new
      · exact below other old
      · rw [List.mem_singleton.mp new]
        exact not_lt.mp (fun more => less (sign.mpr more))

/-- The scan ends with a process of least stride. -/
theorem strideScan_spec {front back : List Ptr} {least : Option Ptr} {fuel : Nat}
    (ring : rq.runList.Ring none ((front ++ back).map some)) (spread : Spread base ghost rq (front ++ back)) (enough : back.length ≤ fuel)
    (smallest : Least ghost front least) :
    ∃ result, strideScan rq fuel back.head? least = .ok result ∧ Least ghost (front ++ back) result := by
  induction back generalizing front least fuel with
  | nil =>
    rw [List.append_nil]
    exact ⟨least, by rw [List.head?_nil, strideScan], smallest⟩
  | cons proc back ih =>
    cases fuel with
    | zero => cases enough
    | succ fuel =>
      have split : front ++ proc :: back = (front ++ [proc]) ++ back := by rw [List.append_assoc, List.singleton_append]
      have here : rq.runList.Ring none (front.map some ++ some proc :: back.map some) := by
        rw [← List.map_cons, ← List.map_append]
        exact ring
      have next : rq.runList.next (some proc) = back.head? := by
        rw [here.next_node]
        cases back with
        | nil => rfl
        | cons => rfl
      rw [split] at ring spread ⊢
      have shorter := spread.mono (List.subset_append_left (front ++ [proc]) back)
      rw [List.head?_cons, strideScan, next]
      exact ih ring spread (Nat.le_of_succ_le_succ enough) (smallest.snoc shorter)

/-- `listed` keeps the processes of `queue` in its list, with the strides of `rq`. -/
structure Lists (listed rq : RunQueue) (queue : List Ptr) : Prop where
  ring : listed.runList.Ring none (queue.map some)
  count : listed.procNum = BitVec.ofNat 32 queue.length
  room : queue.length ≤ maxProcess
  stride : listed.lab6Stride = rq.lab6Stride

theorem strideListPickNext_spec {listed : RunQueue} (lists : Lists listed rq queue) (spread : Spread base ghost rq queue) :
    ∃ after least, strideListPickNext listed = .ok (after, least) ∧ Least ghost queue least := by
  have ring := lists.ring
  have spread' : Spread base ghost listed queue := by
    refine ⟨fun proc inside => ?_, spread.near⟩
    rw [lists.stride]
    exact spread.value proc inside
  obtain ⟨result, scanned, smallest⟩ := @strideScan_spec listed base ghost [] queue none maxProcess ring spread' lists.room rfl
  have first : listed.runList.next none = queue.head? := by
    rw [ring.next_head]
    cases queue with
    | nil => rfl
    | cons => rfl
  rw [strideListPickNext, first, scanned, ok_bind]
  by_cases zero : listed.procNum = 0
  · rw [if_pos zero]
    refine ⟨_, _, rfl, ?_⟩
    have count := congrArg BitVec.toNat (lists.count.symm.trans zero)
    have room := lists.room
    have bound : maxProcess = 4096 := rfl
    rw [BitVec.toNat_ofNat, Nat.mod_eq_of_lt (by omega)] at count
    exact List.length_eq_zero_iff.mp count
  · rw [if_neg zero]
    cases result with
    | none => exact ⟨_, _, rfl, smallest⟩
    | some least => exact ⟨_, _, rfl, smallest⟩

end RunQueue

namespace Kernel
open RunQueue

variable {schedClass : SchedClass} {k : Kernel}

/-- In every state that is reached, `pick_next` answers what is `Right` for the processes
that the pool holds, and so it does when it is called by `schedule`, for the
processes that want the processor then. The keys are those before the step. -/
def Selects (schedClass : SchedClass) (Right : (Ptr → Int) → RunQueue → List Ptr → Option Ptr → Prop) : Prop :=
  ∀ k, Reachable schedClass k →
    (∀ queue, k.rq.Contents queue schedClass → Right k.table.pid k.rq queue (schedClass.pickNext k.rq).2) ∧
    ∀ event after, k.Enabled event → k.step event = .ok after → scheduled k after = some after.current →
      ∀ queue, queue.Nodup → (∀ proc, proc ∈ queue ↔ after.Contends proc) → Right k.table.pid k.rq queue after.running

/-- The choice is on top of a heap of `queue`, by the keys in `rq`. -/
structure Top (schedClass : SchedClass) (pid : Ptr → Int) (rq : RunQueue) (queue : List Ptr) (choice : Option Ptr) : Prop where
  top : ∃ pool, SameKeys rq pool ∧ Heaped schedClass pid pool queue ∧
    ((choice = none ∧ queue = []) ∨ ∃ proc, choice = some proc ∧ pool.lab6RunPool = some proc)
  unique : ∀ p ∈ queue, ∀ q ∈ queue, pid p = pid q → p = q

private theorem choice_root {rq : RunQueue} {queue : List Ptr} {proc : Ptr} (pools : Pools schedClass)
    (choice : rq.Choice queue proc schedClass) : rq.lab6RunPool = some proc := by
  cases schedClass with
  | stride | sjf | hpf => exact choice
  | rr | fifo => exact pools.elim

theorem selects_top (pools : Pools schedClass) : Selects schedClass (Top schedClass) := by
  intro k reached
  obtain ⟨procs, kids, queue₀, init, settled⟩ := reached.settled
  have bound := reached.schedClass_eq
  have inv := settled.invariant
  have heaped := settled.heaped (bound ▸ pools)
  have holds := inv.stable.core.queued.holds
  rw [bound] at heaped holds
  refine ⟨?_, ?_⟩
  · intro queue contents
    have same := heaped.contents pools contents
    refine ⟨⟨k.rq, ⟨rfl, rfl, rfl, rfl⟩, heaped.perm same, ?_⟩, ?_⟩
    · by_cases empty : queue₀ = []
      · left
        rw [empty] at holds same
        rw [pickNext_none holds]
        exact ⟨rfl, same.nil_eq.symm⟩
      · right
        obtain ⟨proc, choice, picked⟩ := pickNext_some holds empty
        rw [picked]
        exact ⟨proc, rfl, choice_root pools choice⟩
    · intro p first q second
      have member : ∀ proc ∈ queue, proc ∈ procs := fun proc inside =>
        ((inv.stable.core.queued.members proc).mp (same.symm.subset inside)).1
      exact inv.stable.core.table.indexed.unique p (member p first) q (member q second)
  · intro event after enabled stepped called queue distinct members
    rcases step_ends inv enabled with ⟨after', procs', kids', queue', done, moves⟩ | ⟨halt, -, done⟩
    · cases Except.ok.inj (done.symm.trans stepped)
      rcases moves.scheduled_cases inv with ⟨quiet, -⟩ | ⟨-, added, middle, pick⟩
      · cases quiet.symm.trans called
      · rw [bound] at pick
        obtain ⟨entered, keys, -⟩ := pick.heaped pools heaped
        have same : (queue₀ ++ added).Perm queue := by
          apply (List.perm_ext_iff_of_nodup pick.held.distinct distinct).mpr
          intro proc
          exact (moves.invariant.candidates_iff pick).trans (members proc).symm
        have entered : Heaped schedClass k.table.pid middle (queue₀ ++ added) := entered
        refine ⟨⟨middle, keys, entered.perm same, ?_⟩, ?_⟩
        · rcases turn_cases pick.held pick.turns with ⟨empty, nobody, -⟩ | ⟨proc, chosen, choice, -⟩
          · rw [show (k.view queue₀).queue ++ added = queue₀ ++ added from rfl] at empty
            rw [empty] at same
            exact Or.inl ⟨nobody, same.nil_eq.symm⟩
          · exact Or.inr ⟨proc, chosen, choice_root pools choice⟩
        · intro p first q second
          have pids : after.table.pid = k.table.pid := pick.pid
          have member : ∀ proc ∈ queue, proc ∈ procs' := by
            intro proc inside
            obtain ⟨live, -, busy⟩ := (members proc).mp inside
            exact moves.invariant.live_iff.mp ⟨live, busy⟩
          rw [← pids]
          exact moves.invariant.stable.core.table.indexed.unique p (member p first) q (member q second)
    · cases done.symm.trans stepped

theorem Selects.mono {Right Other : (Ptr → Int) → RunQueue → List Ptr → Option Ptr → Prop} (selects : Selects schedClass Right)
    (weaker : ∀ pid rq queue choice, Right pid rq queue choice → Other pid rq queue choice) : Selects schedClass Other := by
  intro k reached
  obtain ⟨rest, called⟩ := selects k reached
  refine ⟨fun queue contents => weaker _ _ _ _ (rest queue contents), ?_⟩
  exact fun event after enabled stepped dispatches queue distinct members =>
    weaker _ _ _ _ (called event after enabled stepped dispatches queue distinct members)

private theorem argmin_eq {key : Ptr → ℤ ×ₗ ℤ} {queue : List Ptr} {proc : Ptr} (member : proc ∈ queue)
    (least : ∀ other ∈ queue, key proc ≤ key other) (unique : ∀ other ∈ queue, key other = key proc → other = proc) :
    queue.argmin key = some proc := by
  cases found : queue.argmin key with
  | none =>
    rw [List.argmin_eq_none.mp found] at member
    cases member
  | some other =>
    have inside := List.argmin_mem found
    have below : key other ≤ key proc := List.le_of_mem_argmin member found
    rw [unique other inside (le_antisymm below (least other inside))]

/-- Under shortest-job-first the heap selects the least `lab6_priority`, and under
highest-priority-first the greatest, with the least pid among equals, as a scan of
the processes does. Under stride, while their strides lie in one window, the heap
and the list path of `stride_pick_next` select processes of the same stride. -/
theorem heap_selection :
    Selects .sjf (fun pid rq queue choice => choice = queue.argmin (sjfKey pid rq)) ∧
    Selects .hpf (fun pid rq queue choice => choice = queue.argmin (hpfKey pid rq)) ∧
    Selects .stride (fun _ rq queue choice => (∃ base, Within base rq queue) → ∀ listed, Lists listed rq queue →
      ∃ after other, strideListPickNext listed = .ok (after, other) ∧ other.map rq.lab6Stride = choice.map rq.lab6Stride) := by
  refine ⟨(@selects_top .sjf trivial).mono ?_, (@selects_top .hpf trivial).mono ?_, (@selects_top .stride trivial).mono ?_⟩
  · rintro pid rq queue choice ⟨⟨pool, keys, heaped, ⟨rfl, rfl⟩ | ⟨proc, rfl, root⟩⟩, unique⟩
    · rfl
    · have same : sjfKey pid pool = sjfKey pid rq := by
        funext other
        rw [sjfKey, sjfKey, keys.priority]
      have least : proc ∈ queue ∧ ∀ other ∈ queue, sjfKey pid pool proc ≤ sjfKey pid pool other :=
        heaped.least (fun _ _ _ _ => above_sjf) root
      rw [same] at least
      refine (argmin_eq least.1 least.2 (fun other inside equal => ?_)).symm
      exact unique other inside proc least.1 (congrArg (fun key => (ofLex key).2) equal)
  · rintro pid rq queue choice ⟨⟨pool, keys, heaped, ⟨rfl, rfl⟩ | ⟨proc, rfl, root⟩⟩, unique⟩
    · rfl
    · have same : hpfKey pid pool = hpfKey pid rq := by
        funext other
        rw [hpfKey, hpfKey, keys.priority]
      have least : proc ∈ queue ∧ ∀ other ∈ queue, hpfKey pid pool proc ≤ hpfKey pid pool other :=
        heaped.least (fun _ _ _ _ => above_hpf) root
      rw [same] at least
      refine (argmin_eq least.1 least.2 (fun other inside equal => ?_)).symm
      exact unique other inside proc least.1 (congrArg (fun key => (ofLex key).2) equal)
  · rintro pid rq queue choice ⟨⟨pool, keys, heaped, empty | ⟨proc, rfl, root⟩⟩, -⟩ ⟨base, within⟩ listed lists
    · obtain ⟨after, other, done, smallest⟩ := strideListPickNext_spec lists within.spread
      refine ⟨after, other, done, ?_⟩
      cases other with
      | none => rw [empty.1]
      | some other =>
        rw [empty.2] at smallest
        exact absurd smallest.1 List.not_mem_nil
    · obtain ⟨after, other, done, smallest⟩ := strideListPickNext_spec lists within.spread
      refine ⟨after, other, done, ?_⟩
      have spread : Spread base (offset base rq) pool queue := by
        refine ⟨fun member inside => ?_, within.spread.near⟩
        rw [keys.stride]
        exact within.spread.value member inside
      have least : proc ∈ queue ∧ ∀ other ∈ queue, offset base rq proc ≤ offset base rq other :=
        heaped.least (fun p first q second => spread.above first second) root
      cases other with
      | none =>
        have nobody : queue = [] := smallest
        rw [nobody] at least
        exact absurd least.1 List.not_mem_nil
      | some other =>
        obtain ⟨member, below⟩ := smallest
        have equal : offset base rq other = offset base rq proc := le_antisymm (below proc least.1) (least.2 other member)
        exact congrArg some (sub_left_injective (BitVec.eq_of_toNat_eq equal))

private theorem contends_listed {queue : List Ptr} (listed : ∀ proc ∈ k.allocated, proc ∈ queue ↔ k.Contends proc)
    (live : ∀ proc ∈ queue, proc ∈ k.allocated) (proc : Ptr) : proc ∈ queue ↔ k.Contends proc :=
  ⟨fun inside => (listed proc (live proc inside)).mp inside, fun contends => (listed proc contends.1).mpr contends⟩

private theorem contents_listed {queue : List Ptr} (pools : Pools schedClass) (reached : Reachable schedClass k) (distinct : queue.Nodup)
    (listed : ∀ proc ∈ k.allocated, proc ∈ queue ↔ k.Contends proc ∧ proc ≠ k.current) (live : ∀ proc ∈ queue, proc ∈ k.allocated) :
    k.rq.Contents queue schedClass := by
  obtain ⟨procs, kids, queue₀, init, inv⟩ := reached.invariant
  have queued := inv.stable.core.queued
  have same : queue₀.Perm queue := by
    rw [List.perm_ext_iff_of_nodup queued.holds.distinct distinct]
    intro proc
    rw [queued.members proc, ← inv.live_iff]
    constructor
    · rintro ⟨⟨alive, busy⟩, runnable, away⟩
      exact (listed proc alive).mpr ⟨⟨alive, runnable, busy⟩, away⟩
    · intro inside
      obtain ⟨⟨alive, runnable, busy⟩, away⟩ := (listed proc (live proc inside)).mp inside
      exact ⟨⟨alive, busy⟩, runnable, away⟩
  have contents : k.rq.Contents queue₀ schedClass := reached.schedClass_eq ▸ queued.holds.contents
  cases schedClass with
  | stride | sjf | hpf =>
    obtain ⟨tree, pooled, elems, detached⟩ := contents
    exact ⟨tree, pooled, elems.trans same, fun proc inside => detached proc (same.symm.subset inside)⟩
  | rr | fifo => exact pools.elim

/-- `user_main`'s process and its two children, with the priorities 6, 3 and 1 under the first two
classes. -/
theorem heap_selection_children :
    (∃ k, Reachable .sjf k ∧ (SchedClass.sjf.pickNext k.rq).2 = [2, 3].argmin (sjfKey k.table.pid k.rq) ∧
      (SchedClass.sjf.pickNext k.rq).2 = some 3) ∧
    (∃ k after, Reachable .sjf k ∧ step .resume k = .ok after ∧ after.running = [2, 3, 4].argmin (sjfKey k.table.pid k.rq) ∧
      after.running = some 4) ∧
    (∃ k, Reachable .hpf k ∧ (SchedClass.hpf.pickNext k.rq).2 = [3, 4].argmin (hpfKey k.table.pid k.rq)) ∧
    ∃ k listed, Reachable .stride k ∧ Lists listed k.rq [3, 4] ∧ ∃ after other, strideListPickNext listed = .ok (after, other) ∧
      other.map k.rq.lab6Stride = (SchedClass.stride.pickNext k.rq).2.map k.rq.lab6Stride := by
  have ranked : ∃ k, Reachable .sjf k ∧ (∀ proc ∈ k.allocated, proc ∈ [2, 3] ↔ k.Contends proc ∧ proc ≠ k.current) ∧
      (∀ proc ∈ [2, 3], proc ∈ k.allocated) ∧ (SchedClass.sjf.pickNext k.rq).2 = some 3 :=
    @playFrom_reaches .sjf [.resume, .initMain (granting 2), .resume, .userMain .loaded, .syscall (.fork (granting 3)), .resume,
      .syscall (.fork (granting 4)), .resume, .syscall (.setPriority 6), .resume, .syscall .yield, .resume, .resume,
      .syscall (.setPriority 3), .resume, .syscall .yield, .resume] _ _ (by decide +kernel)
  have yielding : ∃ k, Reachable .sjf k ∧ k.Enabled .resume ∧
      (step .resume k).map (fun after : Kernel => decide (scheduled k after = some after.current ∧ after.running = some 4 ∧
        (∀ proc ∈ after.allocated, proc ∈ [2, 3, 4] ↔ after.Contends proc) ∧
        ∀ proc ∈ ([2, 3, 4] : List Ptr), proc ∈ after.allocated)) = .ok true :=
    @playFrom_reaches .sjf [.resume, .initMain (granting 2), .resume, .userMain .loaded, .syscall (.fork (granting 3)), .resume,
      .syscall (.fork (granting 4)), .resume, .syscall (.setPriority 6), .resume, .syscall .yield, .resume, .resume,
      .syscall (.setPriority 3), .resume, .syscall .yield] _ _ (by decide +kernel)
  have forked : ∀ schedClass, Pools schedClass → ∃ k, Reachable schedClass k ∧
      (∀ proc ∈ k.allocated, proc ∈ [3, 4] ↔ k.Contends proc ∧ proc ≠ k.current) ∧ (∀ proc ∈ [3, 4], proc ∈ k.allocated) ∧
      k.rq.procNum = 2 ∧ offset 0 k.rq 3 ≤ bigStride ∧ offset 0 k.rq 4 ≤ bigStride := by
    intro schedClass pools
    apply @playFrom_reaches schedClass [.resume, .initMain (granting 2), .resume, .userMain .loaded, .syscall (.fork (granting 3)),
      .resume, .syscall (.fork (granting 4)), .resume]
    cases schedClass with
    | stride | sjf | hpf => decide +kernel
    | rr | fifo => exact pools.elim
  refine ⟨?_, ?_, ?_, ?_⟩
  · obtain ⟨k, reached, listed, live, third⟩ := ranked
    have contents := @contents_listed .sjf k _ trivial reached (by decide) listed live
    exact ⟨k, reached, (heap_selection.1 k reached).1 _ contents, third⟩
  · obtain ⟨k, reached, enabled, checked⟩ := yielding
    cases stepped : step .resume k with
    | error halt =>
      rw [stepped] at checked
      cases checked
    | ok after =>
      rw [stepped] at checked
      obtain ⟨called, fourth, listed, live⟩ := of_decide_eq_true (Except.ok.inj checked)
      exact ⟨k, after, reached, stepped,
        (heap_selection.1 k reached).2 _ after enabled stepped called _ (by decide) (contends_listed listed live), fourth⟩
  · obtain ⟨k, reached, listed, live, -⟩ := forked .hpf trivial
    have contents := @contents_listed .hpf k _ trivial reached (by decide) listed live
    exact ⟨k, reached, (heap_selection.2.1 k reached).1 _ contents⟩
  · obtain ⟨k, reached, listed, live, count, first, second⟩ := forked .stride trivial
    have contents := @contents_listed .stride k _ trivial reached (by decide) listed live
    have empty : (⟨id, id⟩ : Links (Option Ptr)).Ring none [] := ⟨⟨rfl, rfl⟩, by decide⟩
    have ring : (listAddBefore none (some 4) (listAddBefore none (some 3) (⟨id, id⟩ : Links (Option Ptr)))).Ring none [some 3, some 4] :=
      listAddBefore_head (listAddBefore_head empty (by decide)) (by decide)
    have lists : Lists { k.rq with runList := _ } k.rq [3, 4] := ⟨ring, count, by decide, rfl⟩
    refine ⟨k, _, reached, lists, (heap_selection.2.2 k reached).1 _ contents ⟨0, fun proc inside => ?_⟩ _ lists⟩
    rcases List.mem_cons.mp inside with rfl | inside
    · exact first
    · rw [List.mem_singleton.mp inside]
      exact second

end Kernel

end Ucore
