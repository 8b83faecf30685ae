import Mathlib
import Ucore.Proofs.PageRuns
import Ucore.Proofs.KmallocRuns

/-! What the callers of `alloc_pages` and `free_pages` rely on, and `default_pmm.c`: as long as every range is given back
below the last free block, pages that are answered are not in use and pages in use can be given back. -/

namespace Ucore.PageAllocator
open Lib

/-- The frame of a page of the `pages` array. -/
def page2ppn (page : Nat) : Frame := nbase + page

/-- In the managed region the memory has in use what the allocator has handed out. -/
structure Backs (lo n : Nat) (live : List Nat) (m : Mem) : Prop where
  inside : page2ppn (lo + n) ≤ m.npage
  used : ∀ p, lo ≤ p → p < lo + n → (page2ppn p ∈ m.used ↔ p ∈ live)

/-- The next answer that the memory has in store is that of `default_alloc_pages`. -/
def Call.Answered (area : FreeArea) (m : Mem) : Call → Prop
  | .allocPages k => (defaultAllocPages k area).map (fun result => result.1.map page2ppn) = .ok (m.pages 0)
  | .freePages _ _ => True

/-- The call in the memory: an answer is taken as it comes. -/
def Call.serve : Call → Mem → Kern Mem
  | .allocPages k, m => .ok (m.answerPages k).2
  | .freePages base k, m => m.freePages (page2ppn base) k

/-- What the callers rely on: the pages in the answer are not in use, so that `alloc_pages` gives them the answer as it comes,
and what is given back is in use. -/
def Call.Meets (m : Mem) : Call → Prop
  | .allocPages k => m.Fresh k ∧ m.allocPages k = m.answerPages k
  | .freePages base k => ∃ m', m.freePages (page2ppn base) k = .ok m'

/-- The allocator and the memory of its callers in a run whose frees are below the tail. Between the calls the memory is
written, and the answers to come are those that come. -/
inductive SideBySide (lo n : Nat) (start : FreeArea) : FreeArea → List Nat → Mem → Prop where
  | start {m : Mem} (backs : Backs lo n [] m) : SideBySide lo n start start [] m
  | call {area area' : FreeArea} {live live' : List Nat} {m m' : Mem} (call : Call) (together : SideBySide lo n start area live m)
      (legal : call.Legal live) (below : call.BelowTail area) (done : call.run (area, live) = .ok (area', live'))
      (answered : call.Answered area m) (served : call.serve m = .ok m') : SideBySide lo n start area' live' m'
  | written {area : FreeArea} {live : List Nat} {m m' : Mem} (together : SideBySide lo n start area live m)
      (used : m'.used = m.used) (npage : m'.npage = m.npage) : SideBySide lo n start area live m'

variable {lo n k : Nat} {area area' start : FreeArea} {live live' : List Nat} {blocks : List Block} {m m' : Mem}

private theorem page2ppn_range {base p : Nat} : page2ppn p ∈ List.range' (page2ppn base) k ↔ p ∈ pages base k := by
  rw [List.mem_range'_1, mem_pages, page2ppn, page2ppn]
  omega

private theorem ppn_page {base : Nat} {f : Frame} (inside : f ∈ List.range' (page2ppn base) k) : ∃ p ∈ pages base k, f = page2ppn p := by
  obtain ⟨low, high⟩ := List.mem_range'_1.mp inside
  unfold page2ppn at low high
  have above : nbase ≤ f := (Nat.le_add_right _ _).trans low
  exact ⟨f - nbase, mem_pages.mpr ⟨by omega, by omega⟩, (Nat.add_sub_cancel' above).symm⟩

theorem SideBySide.run (together : SideBySide lo n start area live m) : Run Call.BelowTail start area live := by
  induction together with
  | start => exact .start
  | call call _ legal below done _ _ ih => exact .call call ih legal below done
  | written _ _ _ ih => exact ih

theorem Backs.alloc (backs : Backs lo n live m) (valid : Invariant lo n area live blocks) (nonempty : 0 < k)
    (answered : (Call.allocPages k).Answered area m) :
    m.Fresh k ∧ (∀ f ∈ m.pages 0, ∃ base, f = page2ppn base ∧ lo ≤ base ∧ base + k ≤ lo + n) ∧
      ∀ area' live', (Call.allocPages k).run (area, live) = .ok (area', live') → Backs lo n live' (m.answerPages k).2 := by
  obtain ⟨area', live', blocks', done, valid'⟩ := valid.alloc nonempty
  change (defaultAllocPages k area).map _ = _ at answered
  obtain ⟨⟨answer, after⟩, asked, result⟩ := bind_ok done
  rw [asked] at answered
  have head : answer.map page2ppn = m.pages 0 := Except.ok.inj answered
  cases answer with
  | none =>
    obtain ⟨rfl, rfl⟩ := Prod.mk.inj (Except.ok.inj result)
    have nothing : m.pages 0 = none := head.symm
    refine ⟨fun page some => ?_, fun page some => ?_, fun area'' live'' done' => ?_⟩
    · rw [nothing] at some
      cases some
    · rw [nothing] at some
      cases some
    · obtain ⟨-, rfl⟩ := Prod.mk.inj (Except.ok.inj (done.symm.trans done'))
      rw [Mem.answerPages, nothing]
      exact ⟨backs.inside, backs.used⟩
  | some base =>
    obtain ⟨rfl, rfl⟩ := Prod.mk.inj (Except.ok.inj result)
    have given : m.pages 0 = some (page2ppn base) := head.symm
    have apart := (List.nodup_append.mp valid'.distinct).2.2
    have range : ∀ p ∈ pages base k, lo ≤ p ∧ p < lo + n := fun p inside => ((valid'.handed p).mp (List.mem_append_right _ inside)).1
    have within : lo ≤ base ∧ base + k ≤ lo + n := by
      have first := (range base (mem_pages.mpr ⟨by omega, by omega⟩)).1
      have last := (range (base + k - 1) (mem_pages.mpr ⟨by omega, by omega⟩)).2
      omega
    refine ⟨fun page answered => ?_, fun page answered => ?_, fun area'' live'' done' => ?_⟩
    · obtain rfl := Option.some.inj (given.symm.trans answered)
      refine ⟨Nat.le_add_right _ _, ?_, fun f inside inUse => ?_⟩
      · refine le_trans ?_ backs.inside
        rw [page2ppn, page2ppn, Nat.add_assoc]
        exact Nat.add_le_add_left within.2 nbase
      · obtain ⟨p, taken, rfl⟩ := ppn_page inside
        exact apart p ((backs.used p (range p taken).1 (range p taken).2).mp inUse) p taken rfl
    · obtain rfl := Option.some.inj (given.symm.trans answered)
      exact ⟨base, rfl, within⟩
    · obtain ⟨-, rfl⟩ := Prod.mk.inj (Except.ok.inj (done.symm.trans done'))
      rw [Mem.answerPages, given]
      refine ⟨backs.inside, fun p low high => ?_⟩
      rw [List.mem_append, List.mem_append, page2ppn_range, backs.used p low high]
      exact or_comm

theorem Backs.free {base : Nat} (backs : Backs lo n live m) (valid : Invariant lo n area live blocks)
    (legal : (Call.freePages base k).Legal live) :
    ∃ m', m.freePages (page2ppn base) k = .ok m' ∧ Backs lo n (live.diff (pages base k)) m' := by
  have range : ∀ p ∈ pages base k, lo ≤ p ∧ p < lo + n := fun p inside => ((valid.handed p).mp (legal.2 p inside)).1
  have inUse : ∀ f ∈ List.range' (page2ppn base) k, f ∈ m.used := by
    intro f inside
    obtain ⟨p, taken, rfl⟩ := ppn_page inside
    exact (backs.used p (range p taken).1 (range p taken).2).mpr (legal.2 p taken)
  refine ⟨_, if_pos inUse, backs.inside, fun p low high => ?_⟩
  rw [List.mem_filter, decide_eq_true_eq, page2ppn_range, backs.used p low high, valid.distinct.mem_sdiff_iff]

theorem SideBySide.backs (small : n < 2 ^ 32) (initial : ∃ blocks, Invariant lo n start [] blocks)
    (together : SideBySide lo n start area live m) : Backs lo n live m := by
  induction together with
  | start backs => exact backs
  | @call area area' live live' m m' call together legal _ done answered served ih =>
    obtain ⟨blocks, valid⟩ := together.run.invariant small initial
    cases call with
    | allocPages k =>
      obtain rfl := Except.ok.inj served
      exact (ih.alloc valid legal answered).2.2 _ _ done
    | freePages base k =>
      obtain ⟨m'', freed, backs⟩ := ih.free valid legal
      obtain rfl := Except.ok.inj (freed.symm.trans served)
      obtain ⟨after, _, result⟩ := bind_ok done
      obtain ⟨-, rfl⟩ := Prod.mk.inj (Except.ok.inj result)
      exact backs
  | written _ used npage ih => exact ⟨npage ▸ ih.inside, fun p low high => by rw [used]; exact ih.used p low high⟩

private theorem allocPages_fresh (fresh : m.Fresh k) : m.allocPages k = m.answerPages k := by
  unfold Mem.allocPages Mem.answerPages
  cases given : m.pages 0 with
  | none => rfl
  | some page => exact if_pos (fresh page given)

/-- In a run whose frees are below the tail, `default_pmm.c` is the service that its callers rely on: every call returns,
what it answers is not in use, and what is in use can be given back. -/
theorem page_service (boot : FreeArea) (nonempty : 0 < n) (small : n < 2 ^ 32) (fits : lo + n ≤ boot.npage)
    (reserved : ∀ p, lo ≤ p → p < lo + n → (boot.page p).flags.reserved = true) :
    ∃ start, defaultInitMemmap lo n (defaultInit boot) = .ok start ∧
      ∀ area live m, SideBySide lo n start area live m →
        Backs lo n live m ∧
        ∀ call : Call, call.Legal live → call.BelowTail area →
          (∃ after, call.run (area, live) = .ok after) ∧ (call.Answered area m → call.Meets m) := by
  obtain ⟨result, initial⟩ := defaultInitMemmap_spec nonempty small fits reserved
  refine ⟨_, result, fun area live m together => ?_⟩
  have backs := together.backs small ⟨_, initial⟩
  obtain ⟨blocks, valid⟩ := together.run.invariant small ⟨_, initial⟩
  refine ⟨backs, fun call legal below => ?_⟩
  cases call with
  | allocPages k =>
    obtain ⟨area', live', _, done, _⟩ := valid.alloc legal
    refine ⟨⟨_, done⟩, fun answered => ?_⟩
    have fresh := (backs.alloc valid legal answered).1
    exact ⟨fresh, allocPages_fresh fresh⟩
  | freePages base k =>
    obtain ⟨area', live', _, done, _⟩ := valid.free small legal below
    obtain ⟨m', freed, _⟩ := backs.free valid legal
    exact ⟨⟨_, done⟩, fun _ => ⟨m', freed⟩⟩

end Ucore.PageAllocator
