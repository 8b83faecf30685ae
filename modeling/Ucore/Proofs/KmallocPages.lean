import Ucore.Proofs.PageService

/-! `kmalloc` and `kfree` with `default_pmm.c` behind them. In every run whose calls of `default_free_pages` are below the
last free block, whatever is asked for by whom, the allocator keeps what the runs of `kmalloc` take for granted. -/

namespace Ucore
open Lib Heap PageAllocator

/-- What `kmalloc` asks the page allocator for, and what it makes of the answer. -/
structure Heap.AsksFor (h : Heap) (size : Nat) (p : Option Nat) (h' : Heap) : Prop where
  small : Small size → h.Asks (size + slobUnit) h'
  large : ¬ Small size → ∃ bb h₁, h.slobAlloc bigblockSize = .ok (bb, h₁) ∧ h.Asks bigblockSize h₁ ∧
    (bb = none → h'.mem = h₁.mem ∧ p = none) ∧
    (bb ≠ none → h'.mem = (h₁.mem.answerPages (2 ^ orderOf size)).2 ∧ p = (h₁.mem.pages 0).map page2kva)

section Memory

variable {h h' : Heap} {live : List Request} {free : List Chunk} {smalls : List SlobBlock} {bigs : List BigBlock} {size : Nat}

private theorem reinsert_mem {b : Nat} (done : h.reinsert b = .ok h') : h'.mem = h.mem := by
  obtain ⟨cur, _, result⟩ := bind_ok done
  obtain rfl := Except.ok.inj result
  unfold joinPrev joinNext
  split_ifs <;> rfl

private theorem slobFree_mem {block : Nat} (done : h.slobFree block size = .ok h') : h'.mem = h.mem := by
  unfold Heap.slobFree at done
  split_ifs at done
  · rw [Except.ok.inj done]
  · have kept := reinsert_mem done
    exact kept
  · exact reinsert_mem done

private theorem answerPages_eq (m : Mem) (n : Nat) : m.answerPages n = (m.pages 0, (m.answerPages n).2) := by
  unfold Mem.answerPages
  split
  next answered => rw [answered]
  next answered => rw [answered]

private theorem kmallocPages_asks {bb : Nat} {p : Option Nat} (done : h.kmallocPages size bb = .ok (p, h')) :
    h'.mem = (h.mem.answerPages (2 ^ orderOf size)).2 ∧ p = (h.mem.pages 0).map page2kva := by
  unfold Heap.kmallocPages at done
  rw [(findOrder_spec size).1, ok_bind] at done
  simp only [Heap.slobGetFreePages] at done
  rw [answerPages_eq] at done
  cases answered : h.mem.pages 0 with
  | none =>
    rw [answered] at done
    obtain ⟨h₁, freed, result⟩ := bind_ok done
    obtain ⟨rfl, rfl⟩ := Prod.mk.inj (Except.ok.inj result)
    exact ⟨slobFree_mem freed, rfl⟩
  | some page =>
    rw [answered] at done
    obtain ⟨rfl, rfl⟩ := Prod.mk.inj (Except.ok.inj done)
    exact ⟨rfl, rfl⟩

theorem Ledger.asks_header {bb : Option Nat} (ledger : Ledger h free smalls bigs) (fresh : h.Short bigblockSize → h.mem.Fresh 1)
    (asked : h.slobAlloc bigblockSize = .ok (bb, h')) : h.Asks bigblockSize h' := by
  have header : bigblockSize + slobUnit < pgSize ∧ 2 ≤ slobUnits bigblockSize := by decide
  rcases ledger.slobAlloc fresh header.1 (.inl header.2) with ⟨b, h₂, free', found, -, -, -, -, -, asks⟩ | ⟨h₂, found, -, asks⟩
  · obtain ⟨-, rfl⟩ := Prod.mk.inj (Except.ok.inj (found.symm.trans asked))
    exact asks
  · obtain ⟨-, rfl⟩ := Prod.mk.inj (Except.ok.inj (found.symm.trans asked))
    exact asks

theorem Ledger.asksFor {p : Option Nat} (ledger : Ledger h free smalls bigs) (fits : ¬ Oversized size) (guarded : size = 0 → h.Guarded)
    (fresh : h.Short (if Small size then size + slobUnit else bigblockSize) → h.mem.Fresh 1) (done : h.kmalloc size = .ok (p, h')) :
    h.AsksFor size p h' := by
  unfold Heap.kmalloc at done
  constructor
  · intro small
    rw [if_pos small] at fresh
    rw [if_pos (by exact small)] at done
    obtain ⟨⟨m, h₁⟩, asked, result⟩ := bind_ok done
    obtain ⟨-, rfl⟩ := Prod.mk.inj (Except.ok.inj result)
    rcases ledger.slobAlloc fresh (Ledger.small_fits small fits) (Ledger.small_choice small guarded) with
      ⟨b, h₂, free', found, -, -, -, -, -, asks⟩ | ⟨h₂, found, -, asks⟩
    · obtain ⟨-, rfl⟩ := Prod.mk.inj (Except.ok.inj (found.symm.trans asked))
      exact asks
    · obtain ⟨-, rfl⟩ := Prod.mk.inj (Except.ok.inj (found.symm.trans asked))
      exact asks
  · intro large
    rw [if_neg large] at fresh
    rw [if_neg (by exact large)] at done
    obtain ⟨⟨bb, h₁⟩, asked, result⟩ := bind_ok done
    refine ⟨bb, h₁, asked, ledger.asks_header fresh asked, fun absent => ?_, fun present => ?_⟩
    · rw [absent] at result
      obtain ⟨rfl, rfl⟩ := Prod.mk.inj (Except.ok.inj result)
      exact ⟨rfl, rfl⟩
    · obtain ⟨b, rfl⟩ := Option.ne_none_iff_exists'.mp present
      exact kmallocPages_asks result

/-- What `kfree` gives back to the page allocator. -/
theorem Booked.kfree_mem {r : Request} (booked : Booked h live) (member : r ∈ live) (done : h.kfree r.ptr = .ok h') :
    (Small r.size → h'.mem = h.mem) ∧ (¬ Small r.size → h.mem.freePages (kva2page r.ptr) (2 ^ orderOf r.size) = .ok h'.mem) := by
  obtain ⟨free, smalls, bigs, ledger, same⟩ := booked
  unfold Heap.kfree at done
  rcases List.mem_append.mp (same.mem_iff.mp member) with inSmalls | inBigs
  · obtain ⟨s, inside, rfl⟩ := List.mem_map.mp inSmalls
    have small : Small s.size := (ledger.books.small s inside).1
    refine ⟨fun _ => ?_, fun large => absurd small large⟩
    have address : s.request.ptr ≠ 0 := by
      simp only [SlobBlock.request, plus_eq]
      omega
    rw [if_neg address] at done
    split at done
    next aligned =>
      rw [ledger.search_small inside aligned, ok_bind] at done
      exact slobFree_mem done
    next => exact slobFree_mem done
  · obtain ⟨b, inside, rfl⟩ := List.mem_map.mp inBigs
    obtain ⟨large, -, order⟩ := ledger.books.big b inside
    refine ⟨fun small => absurd small large, fun _ => ?_⟩
    obtain ⟨aligned, address⟩ := Ledger.page2kva_aligned b.page
    obtain ⟨front, back, rfl⟩ := List.append_of_mem inside
    rw [if_neg (by exact address), if_pos (by exact aligned), ledger.search_big, ok_bind] at done
    obtain ⟨h₁, given, freed⟩ := bind_ok done
    obtain ⟨mem, returned, result⟩ := bind_ok given
    obtain rfl := Except.ok.inj result
    rw [slobFree_mem freed]
    have untouched : (h.unlinkBig ((front.map BigBlock.bb).getLast?.or none) b.bb).mem = h.mem ∧
        (h.unlinkBig ((front.map BigBlock.bb).getLast?.or none) b.bb).order = h.order := by
      unfold unlinkBig
      split <;> exact ⟨rfl, rfl⟩
    rw [untouched.1, untouched.2, order] at returned
    exact returned

end Memory

namespace PageAllocator

/-- `alloc_pages` is `default_alloc_pages`: the memory of the heap has its answer in store. -/
def Supplied (k : Nat) (state : FreeArea × List Nat) (m : Mem) (state' : FreeArea × List Nat) : Prop :=
  (Call.allocPages k).Answered state.1 m ∧ (Call.allocPages k).run state = .ok state'

/-- The allocator while `slob_alloc` runs. -/
def Grows (h : Heap) (size : Nat) (state state' : FreeArea × List Nat) : Prop :=
  (h.Short size → Supplied 1 state h.mem state') ∧ (¬ h.Short size → state' = state)

/-- The allocator while `kmalloc` runs. -/
structure Supplies (h : Heap) (size : Nat) (state state' : FreeArea × List Nat) : Prop where
  small : Small size → Grows h (size + slobUnit) state state'
  large : ¬ Small size → ∃ middle, Grows h bigblockSize state middle ∧ ∀ bb h₁, h.slobAlloc bigblockSize = .ok (bb, h₁) →
    (bb = none → state' = middle) ∧ (bb ≠ none → Supplied (2 ^ orderOf size) middle h₁.mem state')

/-- The allocator while `kfree` runs. -/
structure Returns (r : Request) (state state' : FreeArea × List Nat) : Prop where
  small : Small r.size → state' = state
  large : ¬ Small r.size → ∃ base, r.ptr = page2kva (page2ppn base) ∧ BelowTail state.1 base ∧
    (Call.freePages base (2 ^ orderOf r.size)).run state = .ok state'

/-- The states that `kmalloc`, `kfree` and the other callers of the page allocator come to together. The others give back no
page that the heap needs, and what they write to is theirs. -/
inductive HeapRun (lo n : Nat) (start : FreeArea) : FreeArea × List Nat → Heap → List Request → Prop where
  | initial {h : Heap} (own : h.units h.arena = 1) (self : h.next h.arena = h.arena) (begin : h.slobfree = h.arena)
      (noPages : h.grown = []) (noBig : h.bigblocks = none) (image : ∀ page, ¬ Clear h.arena (page2kva page) → page ∈ h.mem.used)
      (backs : Backs lo n [] h.mem) : HeapRun lo n start (start, []) h []
  | kmalloc {state state' : FreeArea × List Nat} {h h' : Heap} {live : List Request} {size : Nat} {p : Option Nat}
      (run : HeapRun lo n start state h live) (word : size < 2 ^ 64) (guarded : size = 0 → h.Guarded)
      (supplies : Supplies h size state state') (done : h.kmalloc size = .ok (p, h')) :
      HeapRun lo n start state' h' (p.elim live fun p => ⟨p, size⟩ :: live)
  | kfree {state state' : FreeArea × List Nat} {h h' : Heap} {live : List Request} {r : Request} (run : HeapRun lo n start state h live)
      (member : r ∈ live) (returns : Returns r state state') (done : h.kfree r.ptr = .ok h') : HeapRun lo n start state' h' (live.erase r)
  | other {state state' : FreeArea × List Nat} {h : Heap} {m : Mem} {live : List Request} (call : Call) (run : HeapRun lo n start state h live)
      (legal : call.Legal state.2) (below : call.BelowTail state.1) (ran : call.run state = .ok state') (answered : call.Answered state.1 h.mem)
      (served : call.serve h.mem = .ok m) (spared : ∀ page ∈ h.mem.used, h.Needs live page → page ∈ m.used) :
      HeapRun lo n start state' { h with mem := m } live
  | written {state : FreeArea × List Nat} {h : Heap} {m : Mem} {live : List Request} {units next order pages : Nat → Nat}
      {bbNext : Nat → Option Nat} (run : HeapRun lo n start state h live) (used : m.used = h.mem.used) (npage : m.npage = h.mem.npage)
      (inside : ∀ a, (∀ r ∈ live, ¬ r.Has a) →
        units a = h.units a ∧ next a = h.next a ∧ order a = h.order a ∧ pages a = h.pages a ∧ bbNext a = h.bbNext a) :
      HeapRun lo n start state { h with mem := m, units := units, next := next, order := order, pages := pages, bbNext := bbNext } live

section Runs

variable {lo n : Nat} {start : FreeArea} {state state' : FreeArea × List Nat} {h h' : Heap} {live : List Request} {size : Nat}

private theorem SideBySide.supplied {k : Nat} {m : Mem} (together : SideBySide lo n start state.1 state.2 m) (positive : 0 < k)
    (supplied : Supplied k state m state') : SideBySide lo n start state'.1 state'.2 (m.answerPages k).2 :=
  .call (.allocPages k) together positive trivial supplied.2 supplied.1 rfl

private theorem SideBySide.grows (together : SideBySide lo n start state.1 state.2 h.mem) (grows : Grows h size state state')
    (asks : h.Asks size h') : SideBySide lo n start state'.1 state'.2 h'.mem := by
  by_cases short : h.Short size
  · rw [asks.1 short]
    exact together.supplied Nat.one_pos (grows.1 short)
  · rw [asks.2 short, grows.2 short]
    exact together

private theorem SideBySide.fresh {k : Nat} {m : Mem} (small : n < 2 ^ 32) (initial : ∃ blocks, Invariant lo n start [] blocks)
    (together : SideBySide lo n start state.1 state.2 m) (positive : 0 < k) (supplied : Supplied k state m state') :
    m.Fresh k ∧ ∀ f ∈ m.pages 0, ∃ base, f = page2ppn base ∧ lo ≤ base ∧ base + k ≤ lo + n := by
  obtain ⟨blocks, valid⟩ := together.run.invariant small initial
  obtain ⟨fresh, range, -⟩ := (together.backs small initial).alloc valid positive supplied.1
  exact ⟨fresh, range⟩

private theorem SideBySide.served (small : n < 2 ^ 32) (initial : ∃ blocks, Invariant lo n start [] blocks)
    (together : SideBySide lo n start state.1 state.2 h.mem) (booked : Booked h live) (supplies : Supplies h size state state') :
    h.Served size := by
  constructor
  · intro short
    by_cases isSmall : Small size
    · rw [if_pos isSmall] at short
      exact (together.fresh small initial Nat.one_pos ((supplies.small isSmall).1 short)).1
    · rw [if_neg isSmall] at short
      obtain ⟨middle, grows, -⟩ := supplies.large isSmall
      exact (together.fresh small initial Nat.one_pos (grows.1 short)).1
  · intro large bb h₁ asked
    obtain ⟨free, smalls, bigs, ledger, -⟩ := booked
    obtain ⟨middle, grows, rest⟩ := supplies.large large
    have asks := ledger.asks_header (fun short => (together.fresh small initial Nat.one_pos (grows.1 short)).1) asked
    exact ((together.grows grows asks).fresh small initial (Nat.two_pow_pos _) ((rest _ _ asked).2 (Option.some_ne_none bb))).1

/-- A block of whole pages lies in the region. -/
def Placed (lo n : Nat) (r : Request) : Prop :=
  ¬ Small r.size → ∃ base, r.ptr = page2kva (page2ppn base) ∧ lo ≤ base ∧ base + 2 ^ orderOf r.size ≤ lo + n

private theorem SideBySide.kmalloc {p : Option Nat} (small : n < 2 ^ 32) (initial : ∃ blocks, Invariant lo n start [] blocks)
    (together : SideBySide lo n start state.1 state.2 h.mem) (supplies : Supplies h size state state') (asks : h.AsksFor size p h') :
    SideBySide lo n start state'.1 state'.2 h'.mem ∧ ∀ ptr, p = some ptr → Placed lo n ⟨ptr, size⟩ := by
  by_cases isSmall : Small size
  · exact ⟨together.grows (supplies.small isSmall) (asks.small isSmall), fun _ _ large => absurd isSmall large⟩
  · obtain ⟨middle, grows, rest⟩ := supplies.large isSmall
    obtain ⟨bb, h₁, asked, header, absent, present⟩ := asks.large isSmall
    have together := together.grows grows header
    by_cases none : bb = none
    · obtain ⟨mem, rfl⟩ := absent none
      rw [mem, (rest bb h₁ asked).1 none]
      exact ⟨together, fun ptr some => by cases some⟩
    · obtain ⟨mem, rfl⟩ := present none
      have supplied := (rest bb h₁ asked).2 none
      rw [mem]
      refine ⟨together.supplied (Nat.two_pow_pos _) supplied, fun ptr answered _ => ?_⟩
      obtain ⟨page, given, rfl⟩ := Option.map_eq_some_iff.mp answered
      obtain ⟨base, rfl, range⟩ := (together.fresh small initial (Nat.two_pow_pos _) supplied).2 page given
      exact ⟨base, rfl, range⟩

private theorem page2ppn_inj {p q : Nat} (same : page2kva (page2ppn p) = page2kva (page2ppn q)) : p = q := by
  have frames := congrArg kva2page same
  rw [kva2page_page2kva, kva2page_page2kva] at frames
  exact Nat.add_left_cancel frames

private theorem SideBySide.kfree {r : Request} (small : n < 2 ^ 32) (initial : ∃ blocks, Invariant lo n start [] blocks)
    (together : SideBySide lo n start state.1 state.2 h.mem) (placed : Placed lo n r) (returns : Returns r state state')
    (kept : Small r.size → h'.mem = h.mem) (freed : ¬ Small r.size → h.mem.freePages (kva2page r.ptr) (2 ^ orderOf r.size) = .ok h'.mem) :
    SideBySide lo n start state'.1 state'.2 h'.mem := by
  by_cases isSmall : Small r.size
  · rw [returns.small isSmall, kept isSmall]
    exact together
  · obtain ⟨base, place, below, ran⟩ := returns.large isSmall
    obtain ⟨base', place', low, high⟩ := placed isSmall
    obtain rfl := page2ppn_inj (place.symm.trans place')
    have given := freed isSmall
    rw [place, kva2page_page2kva] at given
    have inUse : ∀ f ∈ List.range' (page2ppn base) (2 ^ orderOf r.size), f ∈ h.mem.used := by
      by_contra unused
      rw [Mem.freePages, if_neg unused] at given
      cases given
    have backs := together.backs small initial
    refine .call (.freePages base (2 ^ orderOf r.size)) together ⟨Nat.two_pow_pos _, fun p inside => ?_⟩ below ran trivial given
    obtain ⟨above, before⟩ := mem_pages.mp inside
    refine (backs.used p (low.trans above) (lt_of_lt_of_le before high)).mp (inUse _ (List.mem_range'_1.mpr ?_))
    rw [page2ppn, page2ppn, Nat.add_assoc]
    exact ⟨Nat.add_le_add_left above nbase, Nat.add_lt_add_left before nbase⟩

/-- What the runs of `kmalloc` take for granted holds. -/
theorem HeapRun.sound (small : n < 2 ^ 32) (initial : ∃ blocks, Invariant lo n start [] blocks) (run : HeapRun lo n start state h live) :
    KmallocRun h live ∧ SideBySide lo n start state.1 state.2 h.mem ∧ ∀ r ∈ live, Placed lo n r := by
  induction run with
  | initial own self begin noPages noBig image backs =>
    exact ⟨.initial own self begin noPages noBig image, .start backs, fun r inside => absurd inside List.not_mem_nil⟩
  | @kmalloc state state' h h' live size p run word guarded supplies done ih =>
    obtain ⟨run, together, placed⟩ := ih
    have served := together.served small initial run.ledger supplies
    obtain ⟨free, smalls, bigs, ledger, -⟩ := run.ledger
    obtain ⟨together', place⟩ := together.kmalloc small initial supplies (ledger.asksFor (not_oversized done) guarded served.slob done)
    cases p with
    | none => exact ⟨.refused run word guarded served done, together', placed⟩
    | some ptr =>
      refine ⟨.allocated run word guarded served done, together', fun r inside => ?_⟩
      rcases List.mem_cons.mp inside with rfl | inside
      · exact place ptr rfl
      · exact placed r inside
  | @kfree state state' h h' live r run member returns done ih =>
    obtain ⟨run, together, placed⟩ := ih
    obtain ⟨kept, freed⟩ := run.ledger.kfree_mem member done
    exact ⟨.freed run member done, together.kfree small initial (placed r member) returns kept freed,
      fun other inside => placed other (List.mem_of_mem_erase inside)⟩
  | other call _ legal below ran answered served spared ih =>
    obtain ⟨run, together, placed⟩ := ih
    exact ⟨.elsewhere run spared, .call call together legal below ran answered served, placed⟩
  | written _ used npage inside ih =>
    obtain ⟨run, together, placed⟩ := ih
    exact ⟨.elsewhere (.written run inside) (fun page inUse _ => used ▸ inUse), together.written used npage, placed⟩

/-- `kmalloc` over `default_pmm.c`: from the boot on, a run whose frees are below the tail is one in which what `alloc_pages`
answers is not in use, the allocator has handed out what the memory has in use, and the blocks of whole pages are part of it. -/
theorem kmalloc_over_pmm (boot : FreeArea) (nonempty : 0 < n) (small : n < 2 ^ 32) (fits : lo + n ≤ boot.npage)
    (reserved : ∀ p, lo ≤ p → p < lo + n → (boot.page p).flags.reserved = true) :
    ∃ start, defaultInitMemmap lo n (defaultInit boot) = .ok start ∧
      ∀ state h live, HeapRun lo n start state h live →
        KmallocRun h live ∧ Backs lo n state.2 h.mem ∧ Sound lo n state.1 state.2 ∧
        ∀ r ∈ live, ¬ Small r.size → ∃ base, r.ptr = page2kva (page2ppn base) ∧ lo ≤ base ∧ base + 2 ^ orderOf r.size ≤ lo + n := by
  obtain ⟨result, initial⟩ := defaultInitMemmap_spec nonempty small fits reserved
  refine ⟨_, result, fun state h live run => ?_⟩
  obtain ⟨kmallocs, together, placed⟩ := run.sound small ⟨_, initial⟩
  obtain ⟨blocks, valid⟩ := together.run.invariant small ⟨_, initial⟩
  exact ⟨kmallocs, together.backs small ⟨_, initial⟩, valid.sound, placed⟩

end Runs

end PageAllocator

end Ucore
