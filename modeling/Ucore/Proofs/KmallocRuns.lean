import Ucore.Lib.Chain
import Ucore.Proofs.KmallocSize
import Ucore.Proofs.SlobHeap

/-! Runs of `kmalloc` and `kfree`. What `kmalloc` reserves for a block belongs to that block
alone until `kfree`, as long as no request for no bytes takes `arena` or the unit in
front of a page. -/

namespace Ucore
open Lib Heap

/-- A live block: the pointer that `kmalloc` returned, and for how many bytes. -/
structure Request where
  ptr : Nat
  size : Nat
  deriving DecidableEq

/-- No byte is reserved for both blocks. -/
def Request.Apart (a b : Request) : Prop := a.ptr + reserved a.size ≤ b.ptr ∨ b.ptr + reserved b.size ≤ a.ptr

/-- The byte is reserved for the block. -/
def Request.Has (r : Request) (x : Nat) : Prop := r.ptr ≤ x ∧ x < r.ptr + reserved r.size

/-- A request for no bytes does not take `arena`, and what it gets does not end with a page. -/
def Heap.Guarded (h : Heap) : Prop := h.next h.slobfree ≠ h.arena ∧ plus (h.next h.slobfree) 1 % pgSize ≠ 0

/-- `alloc_pages` answers `kmalloc` with pages that are not in use: the one page for SLOB, which
asks only if no block on its list is large enough, and the pages of a block that is too large for
SLOB. -/
structure Heap.Served (h : Heap) (size : Nat) : Prop where
  slob : h.Short (if Small size then size + slobUnit else bigblockSize) → h.mem.Fresh 1
  pages : ¬ Small size → ∀ bb h', h.slobAlloc bigblockSize = .ok (some bb, h') → h'.mem.Fresh (2 ^ orderOf size)

/-- What `slob_alloc` asks the page allocator for: one page, if no block is large enough. -/
def Heap.Asks (size : Nat) (h h' : Heap) : Prop := (h.Short size → h'.mem = (h.mem.answerPages 1).2) ∧ (¬ h.Short size → h'.mem = h.mem)

/-- The pages that the kernel image or the heap needs: those that contain or touch `arena`,
those of SLOB and those of the blocks. -/
def Heap.Needs (h : Heap) (live : List Request) (page : Frame) : Prop :=
  ¬ Clear h.arena (page2kva page) ∨ page2kva page ∈ h.grown ∨ ∃ r ∈ live, ¬ Small r.size ∧ r.Has (page2kva page)

/-- The states that `kmalloc` and `kfree` come to from the initial heap. Between the calls the
owners write to what is reserved for them, and other pages come and go. -/
inductive KmallocRun : Heap → List Request → Prop where
  | initial {h : Heap} (own : h.units h.arena = 1) (self : h.next h.arena = h.arena) (start : h.slobfree = h.arena)
      (noPages : h.grown = []) (noBig : h.bigblocks = none)
      (image : ∀ page, ¬ Clear h.arena (page2kva page) → page ∈ h.mem.used) : KmallocRun h []
  | allocated {h h' : Heap} {live : List Request} {size p : Nat} (run : KmallocRun h live) (word : size < 2 ^ 64)
      (guarded : size = 0 → h.Guarded) (served : h.Served size) (done : h.kmalloc size = .ok (some p, h')) : KmallocRun h' (⟨p, size⟩ :: live)
  | refused {h h' : Heap} {live : List Request} {size : Nat} (run : KmallocRun h live) (word : size < 2 ^ 64)
      (guarded : size = 0 → h.Guarded) (served : h.Served size) (done : h.kmalloc size = .ok (none, h')) : KmallocRun h' live
  | freed {h h' : Heap} {live : List Request} {r : Request} (run : KmallocRun h live) (member : r ∈ live)
      (done : h.kfree r.ptr = .ok h') : KmallocRun h' (live.erase r)
  | written {h : Heap} {live : List Request} {units next order pages : Nat → Nat} {bbNext : Nat → Option Nat}
      (run : KmallocRun h live) (inside : ∀ a, (∀ r ∈ live, ¬ r.Has a) →
        units a = h.units a ∧ next a = h.next a ∧ order a = h.order a ∧ pages a = h.pages a ∧ bbNext a = h.bbNext a) :
      KmallocRun { h with units := units, next := next, order := order, pages := pages, bbNext := bbNext } live
  | elsewhere {h : Heap} {live : List Request} {mem : Mem} (run : KmallocRun h live)
      (kept : ∀ page ∈ h.mem.used, h.Needs live page → page ∈ mem.used) : KmallocRun { h with mem := mem } live

/-- A block in SLOB. `start` is its header. -/
structure SlobBlock where
  start : Nat
  size : Nat

/-- A block of whole pages with its `bigblock_t` at `bb`. -/
structure BigBlock where
  bb : Nat
  page : Frame
  size : Nat

def SlobBlock.chunk (s : SlobBlock) : Chunk := ⟨s.start, slobUnits (s.size + slobUnit)⟩

def SlobBlock.request (s : SlobBlock) : Request := ⟨plus s.start 1, s.size⟩

def BigBlock.chunk (b : BigBlock) : Chunk := ⟨b.bb, slobUnits bigblockSize⟩

def BigBlock.request (b : BigBlock) : Request := ⟨page2kva b.page, b.size⟩

def BigBlock.pages (b : BigBlock) : List Frame := List.range' b.page (2 ^ orderOf b.size)

/-- The chunks that are taken. -/
def takenChunks (smalls : List SlobBlock) (bigs : List BigBlock) : List Chunk :=
  smalls.map SlobBlock.chunk ++ bigs.map BigBlock.chunk

/-- What the headers and the list of `bigblock_t`s say about the blocks. -/
structure Books (h : Heap) (smalls : List SlobBlock) (bigs : List BigBlock) : Prop where
  small : ∀ s ∈ smalls, Small s.size ∧ h.units s.start = slobUnits (s.size + slobUnit) ∧ (s.size = 0 → plus s.start 1 % pgSize ≠ 0)
  big : ∀ b ∈ bigs, ¬ Small b.size ∧ h.pages b.bb = page2kva b.page ∧ h.order b.bb = orderOf b.size
  head : h.bigblocks = (bigs.map BigBlock.bb).head?
  links : Forward h.bbNext (bigs.map BigBlock.bb)

/-- The pages of the heap are in use, each for one purpose. -/
structure Held (h : Heap) (bigs : List BigBlock) : Prop where
  backed : ∀ page, page2kva page ∈ h.grown → page ∈ h.mem.used
  image : ∀ page, ¬ Clear h.arena (page2kva page) → page ∈ h.mem.used
  pages : ∀ b ∈ bigs, ∀ page ∈ b.pages, page ∈ h.mem.used ∧ page2kva page ∉ h.grown ∧ Clear h.arena (page2kva page)
  apart : bigs.Pairwise fun a b => a.pages.Disjoint b.pages

structure Ledger (h : Heap) (free : List Chunk) (smalls : List SlobBlock) (bigs : List BigBlock) : Prop where
  whole : Integrity h free (takenChunks smalls bigs)
  books : Books h smalls bigs
  held : Held h bigs

section Parts

variable {h h' : Heap} {smalls : List SlobBlock} {bigs : List BigBlock} {free taken : List Chunk}

private theorem answerPages_used {m m' : Mem} {n : Nat} {answer : Option Frame} (asked : m.answerPages n = (answer, m')) :
    m'.used = (answer.elim [] fun page => List.range' page n) ++ m.used := by
  unfold Mem.answerPages at asked
  split at asked
  next page _ =>
    obtain ⟨rfl, rfl⟩ := Prod.mk.inj asked
    rfl
  next =>
    obtain ⟨rfl, rfl⟩ := Prod.mk.inj asked
    rfl

private theorem answerPages_some {m m' : Mem} {n : Nat} {page : Frame} (fresh : m.Fresh n) (asked : m.answerPages n = (some page, m')) :
    (∀ other ∈ List.range' page n, other ∉ m.used) ∧ m'.used = List.range' page n ++ m.used :=
  ⟨(fresh page (answerPages_answer asked)).2.2, answerPages_used asked⟩

private theorem answerPages_none {m m' : Mem} {n : Nat} (asked : m.answerPages n = (none, m')) : m'.used = m.used :=
  answerPages_used asked

theorem Held.answers (held : Held h bigs) (fresh : h.mem.Fresh 1) : h.Answers := by
  intro page answered
  have unused := (fresh page answered).2.2 page (by simp)
  constructor
  · by_contra touches
    exact unused (held.image page touches)
  · exact fun grown => unused (held.backed page grown)

private theorem page2kva_inj {page other : Frame} (same : page2kva page = page2kva other) : page = other := by
  simp only [page2kva, pgSize] at same
  exact Nat.eq_of_mul_eq_mul_right (by decide : 0 < 4096) (Nat.add_left_cancel same)

theorem kva2page_page2kva (page : Frame) : kva2page (page2kva page) = page := by
  simp only [kva2page, page2kva, pgSize, Nat.add_sub_cancel_left]
  exact Nat.mul_div_cancel page (by decide)

theorem Held.same (held : Held h bigs) (same : h.SameElse h') : Held h' bigs := by
  rw [Heap.SameElse] at same
  exact ⟨by rw [same]; exact held.backed, by rw [same]; exact held.image, by rw [same]; exact held.pages, held.apart⟩

theorem Held.extend {size : Nat} (held : Held h bigs) (fresh : h.Short size → h.mem.Fresh 1) (more : h.Extends size h') : Held h' bigs := by
  rcases more with ⟨-, same⟩ | ⟨short, page, mem, asked, same⟩
  · exact held.same same
  · obtain ⟨unused, used⟩ := answerPages_some (fresh short) asked
    have own : page ∉ h.mem.used := unused page (by simp)
    have after : h'.mem.used = List.range' page 1 ++ h.mem.used := by rw [same]; exact used
    have grown : h'.grown = page2kva page :: h.grown := by rw [same]
    have arena : h'.arena = h.arena := by rw [same]
    refine ⟨?_, ?_, ?_, held.apart⟩
    · intro other inside
      rw [grown] at inside
      rw [after]
      rcases List.mem_cons.mp inside with first | inside
      · obtain rfl := page2kva_inj first
        simp
      · exact List.mem_append_right _ (held.backed other inside)
    · intro other touches
      rw [arena] at touches
      rw [after]
      exact List.mem_append_right _ (held.image other touches)
    · intro b inside other inPages
      obtain ⟨inUse, notGrown, clear⟩ := held.pages b inside other inPages
      rw [after, grown, arena]
      refine ⟨List.mem_append_right _ inUse, ?_, clear⟩
      intro inGrown
      rcases List.mem_cons.mp inGrown with first | inGrown
      · obtain rfl := page2kva_inj first
        exact own inUse
      · exact notGrown inGrown

/-- More pages are in use. -/
theorem Held.frame (held : Held h bigs) (used : ∀ page ∈ h.mem.used, page ∈ h'.mem.used) (grown : h'.grown = h.grown)
    (arena : h'.arena = h.arena) : Held h' bigs where
  backed page inside := used page (held.backed page (by rwa [grown] at inside))
  image page touches := used page (held.image page (by rwa [arena] at touches))
  pages b inside page inPages := by
    obtain ⟨inUse, notGrown, clear⟩ := held.pages b inside page inPages
    rw [grown, arena]
    exact ⟨used page inUse, notGrown, clear⟩
  apart := held.apart

/-- Only the headers and the `bigblock_t`s count. -/
theorem Books.transport (books : Books h smalls bigs) (units : ∀ s ∈ smalls, h'.units s.start = h.units s.start)
    (fields : ∀ b ∈ bigs, h'.pages b.bb = h.pages b.bb ∧ h'.order b.bb = h.order b.bb ∧ h'.bbNext b.bb = h.bbNext b.bb)
    (head : h'.bigblocks = h.bigblocks) : Books h' smalls bigs where
  small s inside := by
    rw [units s inside]
    exact books.small s inside
  big b inside := by
    rw [(fields b inside).1, (fields b inside).2.1]
    exact books.big b inside
  head := head.trans books.head
  links := by
    refine books.links.frame ?_
    intro bb inside
    obtain ⟨b, inBigs, rfl⟩ := List.mem_map.mp inside
    exact (fields b inBigs).2.2

theorem Extends.fields {size : Nat} (more : h.Extends size h') :
    h'.pages = h.pages ∧ h'.order = h.order ∧ h'.bbNext = h.bbNext ∧ h'.bigblocks = h.bigblocks ∧ h'.arena = h.arena := by
  rcases more with ⟨-, same⟩ | ⟨_, page, mem, asked, same⟩
  · rw [same]
    exact ⟨rfl, rfl, rfl, rfl, rfl⟩
  · rw [same]
    exact ⟨rfl, rfl, rfl, rfl, rfl⟩

theorem Books.extend {size : Nat} (books : Books h smalls bigs) (more : h.Extends size h') (units : ∀ s ∈ smalls, h'.units s.start = h.units s.start) :
    Books h' smalls bigs := by
  obtain ⟨pages, order, bbNext, head, _⟩ := Extends.fields more
  exact books.transport units (fun b _ => ⟨by rw [pages], by rw [order], by rw [bbNext]⟩) head

private theorem asks_extend {size : Nat} (more : h.Extends size h') : h.Asks size h' := by
  rcases more with ⟨notShort, same⟩ | ⟨short, page, mem, asked, same⟩
  · rw [Heap.SameElse] at same
    exact ⟨fun short => absurd short notShort, fun _ => by rw [same]⟩
  · rw [Heap.SameElse] at same
    exact ⟨fun _ => by rw [same, asked], fun notShort => absurd short notShort⟩

end Parts

namespace Ledger

variable {h h' : Heap} {smalls : List SlobBlock} {bigs : List BigBlock} {free : List Chunk} {size : Nat}

theorem small_taken {s : SlobBlock} (inside : s ∈ smalls) : s.chunk ∈ takenChunks smalls bigs :=
  List.mem_append_left _ (List.mem_map_of_mem inside)

theorem big_taken {b : BigBlock} (inside : b ∈ bigs) : b.chunk ∈ takenChunks smalls bigs :=
  List.mem_append_right _ (List.mem_map_of_mem inside)

theorem slobAlloc (ledger : Ledger h free smalls bigs) (fresh : h.Short size → h.mem.Fresh 1) (small : size + slobUnit < pgSize)
    (choice : 2 ≤ slobUnits size ∨ size = slobUnit ∧ h.next h.slobfree ≠ h.arena) :
    (∃ p h' free', h.slobAlloc size = .ok (some p, h') ∧
        Integrity h' free' (⟨p, slobUnits size⟩ :: takenChunks smalls bigs) ∧ Books h' smalls bigs ∧ Held h' bigs ∧
        h'.units p = slobUnits size ∧ (size = slobUnit → p = h.next h.slobfree) ∧ h.Asks size h') ∨
      ∃ h', h.slobAlloc size = .ok (none, h') ∧ Ledger h' free smalls bigs ∧ h.Asks size h' := by
  rcases choice with two | ⟨rfl, away⟩
  · rcases ledger.whole.slobAlloc (fun short => ledger.held.answers (fresh short)) small two with
      ⟨p, h', free', result, whole, more, own, kept⟩ | ⟨short, refused, result⟩
    · refine .inl ⟨p, h', free', result, whole, ledger.books.extend more fun s inside => kept _ (small_taken inside),
        ledger.held.extend fresh more, own, ?_, asks_extend more⟩
      rintro rfl
      exact absurd two (by decide)
    · right
      refine ⟨_, result, ⟨⟨⟨ledger.whole.cyclic, ledger.whole.start, ledger.whole.units, ledger.whole.layout⟩,
        ledger.whole.strict, ledger.whole.paged⟩, ledger.books.transport (fun _ _ => rfl) (fun _ _ => ⟨rfl, rfl, rfl⟩) rfl,
        ledger.held.frame ?_ rfl rfl⟩, fun _ => rfl, fun notShort => absurd short notShort⟩
      intro page inUse
      cases asked : h.mem.answerPages 1 with
      | mk answer mem =>
        obtain rfl := (answerPages_answer asked).symm.trans refused
        simp only
        rwa [answerPages_none asked]
  · obtain ⟨h', free', result, whole, more, own, kept⟩ := ledger.whole.slobAlloc_one away
    exact .inl ⟨_, h', free', result, whole, ledger.books.extend more fun s inside => kept _ (small_taken inside),
      ledger.held.extend fresh more, own, fun _ => rfl, asks_extend more⟩

theorem small_fits (small : Small size) (fits : ¬ Oversized size) : size + slobUnit + slobUnit < pgSize := by
  by_contra large
  exact fits ⟨small, not_lt.mp large⟩

theorem small_choice (small : Small size) (guarded : size = 0 → h.Guarded) :
    2 ≤ slobUnits (size + slobUnit) ∨ size + slobUnit = slobUnit ∧ h.next h.slobfree ≠ h.arena := by
  simp only [Small, pgSize, slobUnit] at small
  by_cases zero : size = 0
  · exact .inr ⟨by rw [zero, Nat.zero_add], (guarded zero).1⟩
  · left
    simp only [slobUnits, slobUnit, wrap]
    omega

/-- `kmalloc` of a size that SLOB takes. -/
theorem kmalloc_small (ledger : Ledger h free smalls bigs) (small : Small size) (fits : ¬ Oversized size)
    (guarded : size = 0 → h.Guarded) (fresh : h.Short (size + slobUnit) → h.mem.Fresh 1) :
    ∃ p h', h.kmalloc size = .ok (p, h') ∧
      ((∃ s free', p = some s.request.ptr ∧ s.size = size ∧ Ledger h' free' (s :: smalls) bigs) ∨
        p = none ∧ Ledger h' free smalls bigs) := by
  unfold Heap.kmalloc
  rw [if_pos (by exact small)]
  rcases ledger.slobAlloc fresh (small_fits small fits) (small_choice small guarded) with
    ⟨b, h₁, free', result, whole, books, held, own, first, -⟩ | ⟨h₁, result, ledger', -⟩
  · refine ⟨some (plus b 1), h₁, by rw [result]; rfl, .inl ?_⟩
    refine ⟨⟨b, size⟩, free', rfl, rfl, whole, ⟨?_, books.big, books.head, books.links⟩, held⟩
    intro s inside
    rcases List.mem_cons.mp inside with rfl | inside
    · refine ⟨small, own, ?_⟩
      intro zero
      obtain rfl : size = 0 := zero
      rw [first (Nat.zero_add _)]
      exact (guarded rfl).2
    · exact books.small s inside
  · exact ⟨none, h₁, by rw [result]; rfl, .inr ⟨rfl, ledger'⟩⟩

theorem kmalloc_oversized {h : Heap} (large : Oversized size) : h.kmalloc size = .error (.assertion "(size + SLOB_UNIT) < PAGE_SIZE") := by
  have limit := large.1
  simp only [Small, pgSize, slobUnit] at limit
  have asserted : ¬ wrap (size + slobUnit + slobUnit) < pgSize := by
    have beyond := large.2
    simp only [wrap, slobUnit, pgSize] at beyond ⊢
    omega
  unfold Heap.kmalloc
  rw [if_pos (by exact large.1), Heap.slobAlloc]
  simp [asserted]

private theorem bb_fresh {bb units : Nat} {taken : List Chunk} (whole : Integrity h free (⟨bb, units⟩ :: taken)) {b : BigBlock}
    (inside : b.chunk ∈ taken) : b.bb ≠ bb := by
  have apart := (List.pairwise_cons.mp whole.layout.disjoint).1 _ inside
  have size := whole.layout.takenSized _ List.mem_cons_self
  have size' := whole.layout.takenSized b.chunk (List.mem_cons_of_mem _ inside)
  rw [Chunk.Apart, Chunk.stop_eq, Chunk.stop_eq] at apart
  simp only [BigBlock.chunk] at apart size size'
  omega

private theorem taken_big (b : BigBlock) : (b.chunk :: takenChunks smalls bigs).Perm (takenChunks smalls (b :: bigs)) :=
  List.perm_middle.symm

/-- `kmalloc` of a size that SLOB does not take. -/
theorem kmalloc_big (ledger : Ledger h free smalls bigs) (large : ¬ Small size) (fresh : h.Short bigblockSize → h.mem.Fresh 1)
    (pages : ∀ bb h', h.slobAlloc bigblockSize = .ok (some bb, h') → h'.mem.Fresh (2 ^ orderOf size)) :
    ∃ p h', h.kmalloc size = .ok (p, h') ∧
      ((∃ b free', p = some b.request.ptr ∧ b.size = size ∧ Ledger h' free' smalls (b :: bigs)) ∨
        p = none ∧ ∃ free', Ledger h' free' smalls bigs) := by
  unfold Heap.kmalloc
  rw [if_neg (by exact large)]
  have header : bigblockSize + slobUnit < pgSize ∧ 2 ≤ slobUnits bigblockSize := by decide
  rcases ledger.slobAlloc fresh header.1 (.inl header.2) with
    ⟨bb, h₁, free', result, whole, books, held, own, _⟩ | ⟨h₁, result, ledger', _⟩
  swap
  · exact ⟨none, h₁, by rw [result]; rfl, .inr ⟨rfl, free, ledger'⟩⟩
  have unused := pages bb h₁ result
  rw [result]
  simp only [ok_bind, Heap.kmallocPages, (findOrder_spec size).1, Heap.slobGetFreePages]
  cases asked : h₁.mem.answerPages (2 ^ orderOf size) with
  | mk answer mem =>
    cases answer with
    | none =>
      have used := answerPages_none asked
      have moved : Integrity { h₁ with order := Function.update h₁.order bb (orderOf size), mem := mem } free'
          (⟨bb, slobUnits bigblockSize⟩ :: takenChunks smalls bigs) :=
        ⟨⟨whole.cyclic, whole.start, whole.units, whole.layout⟩, whole.strict, whole.paged⟩
      have header : bigblockSize ≠ 0 ∧ slobUnits bigblockSize = slobUnits bigblockSize := ⟨by decide, rfl⟩
      obtain ⟨h₂, free'', freed, whole', same, kept, _⟩ := moved.slobFree (.inl header)
      simp only [freed, ok_bind]
      refine ⟨none, h₂, rfl, .inr ?_⟩
      refine ⟨rfl, free'', whole', books.transport ?_ ?_ ?_, held.frame ?_ ?_ ?_⟩
      · exact fun s inside => kept _ (small_taken inside)
      · intro b inside
        rw [same]
        exact ⟨rfl, Function.update_of_ne (bb_fresh whole (big_taken inside)) _ _, rfl⟩
      · rw [same]
      · intro page inUse
        rw [same]
        simp only
        rwa [used]
      · rw [same]
      · rw [same]
    | some page =>
      obtain ⟨fresh, used⟩ := answerPages_some unused asked
      refine ⟨_, _, rfl, .inl ?_⟩
      refine ⟨⟨bb, page, size⟩, free', rfl, rfl, ?_, ⟨books.small, ?_, rfl, ?_, ?_⟩, ⟨?_, ?_, ?_, ?_⟩⟩
      · exact Integrity.perm ⟨⟨whole.cyclic, whole.start, whole.units, whole.layout⟩, whole.strict, whole.paged⟩
          (taken_big ⟨bb, page, size⟩)
      · intro b inside
        rcases List.mem_cons.mp inside with rfl | inside
        · exact ⟨large, Function.update_self .., Function.update_self ..⟩
        · have other := bb_fresh whole (big_taken inside)
          obtain ⟨isBig, pages, order⟩ := books.big b inside
          exact ⟨isBig, (Function.update_of_ne other _ _).trans pages, (Function.update_of_ne other _ _).trans order⟩
      · exact (Function.update_self ..).trans books.head
      · refine books.links.frame ?_
        intro node inside
        obtain ⟨b, inBigs, rfl⟩ := List.mem_map.mp inside
        exact Function.update_of_ne (bb_fresh whole (big_taken inBigs)) _ _
      · intro other inside
        simp only
        rw [used]
        exact List.mem_append_right _ (held.backed other inside)
      · intro other touches
        simp only
        rw [used]
        exact List.mem_append_right _ (held.image other touches)
      · intro b inside other inPages
        simp only
        rw [used]
        rcases List.mem_cons.mp inside with rfl | inside
        · refine ⟨List.mem_append_left _ inPages, ?_, ?_⟩
          · exact fun grown => fresh other inPages (held.backed other grown)
          · by_contra touches
            exact fresh other inPages (held.image other touches)
        · obtain ⟨inUse, notGrown, clear⟩ := held.pages b inside other inPages
          exact ⟨List.mem_append_right _ inUse, notGrown, clear⟩
      · refine List.pairwise_cons.mpr ⟨?_, held.apart⟩
        intro b inside other inNew inOld
        exact fresh other inNew (held.pages b inside other inOld).1

private theorem findBig_none {block fuel : Nat} {last : Option Nat} {nodes : List Nat} (links : Forward h.bbNext nodes)
    (absent : ∀ node ∈ nodes, h.pages node ≠ block) (enough : nodes.length ≤ fuel) :
    h.findBig block fuel last nodes.head? = .ok none := by
  induction nodes generalizing fuel last with
  | nil => rw [List.head?_nil, Heap.findBig]
  | cons node nodes ih =>
    cases fuel with
    | zero => cases enough
    | succ fuel =>
      rw [List.head?_cons, Heap.findBig, if_neg (absent node List.mem_cons_self), links.1]
      exact ih links.2 (fun inner inside => absent inner (List.mem_cons_of_mem _ inside)) (Nat.le_of_succ_le_succ enough)

private theorem findBig_some {block fuel bb : Nat} {last : Option Nat} {front back : List Nat}
    (links : Forward h.bbNext (front ++ bb :: back)) (absent : ∀ node ∈ front, h.pages node ≠ block) (here : h.pages bb = block)
    (enough : front.length < fuel) :
    h.findBig block fuel last (front ++ bb :: back).head? = .ok (some (front.getLast?.or last, bb)) := by
  induction front generalizing fuel last with
  | nil =>
    obtain ⟨fuel, rfl⟩ := Nat.exists_eq_add_of_lt enough
    rw [List.nil_append, List.head?_cons, show [].length + fuel + 1 = fuel + 1 by simp, Heap.findBig, if_pos here]
    rfl
  | cons node front ih =>
    cases fuel with
    | zero => cases enough
    | succ fuel =>
      rw [List.cons_append, List.head?_cons, Heap.findBig, if_neg (absent node List.mem_cons_self), links.1]
      refine (ih links.2 (fun inner inside => absent inner (List.mem_cons_of_mem _ inside)) (Nat.lt_of_succ_lt_succ enough)).trans ?_
      cases front with
      | nil => rfl
      | cons second front => rw [List.getLast?_cons_cons, List.getLast?_cons, Option.some_or, Option.some_or]

private theorem big_count (ledger : Ledger h free smalls bigs) : bigs.length < h.fuel := by
  have total := ledger.whole.layout.total
  have sum : (bigs.map (Chunk.units ∘ BigBlock.chunk)).sum = 2 * bigs.length := by
    have two : Chunk.units ∘ BigBlock.chunk = fun _ => 2 := by
      funext b
      exact (by decide : slobUnits bigblockSize = 2)
    rw [two, List.map_const', List.sum_replicate, smul_eq_mul, Nat.mul_comm]
  simp only [takenChunks, List.map_append, List.map_map, List.sum_append, sum] at total
  unfold Heap.fuel
  omega

private theorem page_eq {page other : Nat} (low : page2kva page ≤ page2kva other) (high : page2kva other < page2kva page + pgSize) :
    page = other := by
  simp only [page2kva, pgSize] at low high
  omega

theorem page2kva_aligned (page : Frame) : page2kva page % pgSize = 0 ∧ page2kva page ≠ 0 := by
  simp only [page2kva, physicalMemoryOffset, pgSize]
  omega

private theorem erase_small {front back : List SlobBlock} {s : SlobBlock} :
    (takenChunks (front ++ s :: back) bigs).Perm (s.chunk :: takenChunks (front ++ back) bigs) := by
  simp only [takenChunks, List.map_append, List.map_cons, List.append_assoc, List.cons_append]
  exact List.perm_middle

private theorem erase_big {front back : List BigBlock} {b : BigBlock} :
    (takenChunks smalls (front ++ b :: back)).Perm (b.chunk :: takenChunks smalls (front ++ back)) := by
  simp only [takenChunks, List.map_append, List.map_cons, ← List.append_assoc]
  exact List.perm_middle

private theorem small_ptr {s : SlobBlock} {b : BigBlock} (ledger : Ledger h free smalls bigs) (small : s ∈ smalls) (big : b ∈ bigs)
    (aligned : plus s.start 1 % pgSize = 0) : h.pages b.bb ≠ plus s.start 1 := by
  intro same
  rw [(ledger.books.big b big).2.1] at same
  obtain ⟨isSmall, _, notZero⟩ := ledger.books.small s small
  have some : s.size ≠ 0 := fun zero => notZero zero aligned
  have two : 2 ≤ slobUnits (s.size + slobUnit) := by
    simp only [Small, pgSize, slobUnit] at isSmall
    simp only [slobUnits, slobUnit, wrap]
    omega
  have inside : plus s.start 1 < s.chunk.stop := by
    rw [Chunk.stop_eq, plus_eq]
    simp only [SlobBlock.chunk]
    omega
  have behind : s.chunk.start ≤ plus s.start 1 := by
    rw [plus_eq]
    exact Nat.le_add_right _ _
  obtain ⟨kva, grown, low, high⟩ := ledger.whole.layout.takenPaged _ (small_taken small) _ behind inside
  obtain ⟨page, rfl⟩ := ledger.whole.paged kva grown
  have first : b.page ∈ b.pages := by
    rw [BigBlock.pages, List.mem_range'_1]
    exact ⟨Nat.le_refl _, Nat.lt_add_of_pos_right (Nat.two_pow_pos _)⟩
  rw [← same] at low high
  have equal := page_eq low high
  rw [equal] at grown
  exact (ledger.held.pages b big _ first).2.1 grown

theorem search_small {s : SlobBlock} (ledger : Ledger h free smalls bigs) (inside : s ∈ smalls)
    (aligned : s.request.ptr % pgSize = 0) : h.findBig s.request.ptr h.fuel none h.bigblocks = .ok none := by
  have absent : ∀ node ∈ bigs.map BigBlock.bb, h.pages node ≠ s.request.ptr := by
    intro node inBigs
    obtain ⟨b, big, rfl⟩ := List.mem_map.mp inBigs
    exact small_ptr ledger inside big aligned
  have enough : (bigs.map BigBlock.bb).length ≤ h.fuel := by
    rw [List.length_map]
    exact ledger.big_count.le
  rw [ledger.books.head]
  exact findBig_none ledger.books.links absent enough

theorem kfree_small {front back : List SlobBlock} {s : SlobBlock} (ledger : Ledger h free (front ++ s :: back) bigs) :
    ∃ h' free', h.kfree s.request.ptr = .ok h' ∧ Ledger h' free' (front ++ back) bigs := by
  have inside : s ∈ front ++ s :: back := by simp
  obtain ⟨isSmall, own, notZero⟩ := ledger.books.small s inside
  have address : s.request.ptr ≠ 0 := by
    simp only [SlobBlock.request, plus_eq]
    omega
  have header : s.request.ptr - slobUnit = s.start := by
    simp only [SlobBlock.request, plus_eq, slobUnit]
    omega
  obtain ⟨h₁, free', freed, whole, same, kept, _⟩ := (ledger.whole.perm erase_small).slobFree (.inr ⟨rfl, own⟩)
  have result : h.kfree s.request.ptr = .ok h₁ := by
    unfold Heap.kfree
    rw [if_neg address, header]
    split
    next aligned =>
      rw [ledger.search_small inside aligned]
      exact freed
    next => exact freed
  have rest : ∀ t ∈ front ++ back, t ∈ front ++ s :: back := by
    intro t member
    simp only [List.mem_append, List.mem_cons] at member ⊢
    tauto
  refine ⟨h₁, free', result, whole, ?_, ledger.held.same same⟩
  have all : Books h (front ++ back) bigs := ⟨fun t member => ledger.books.small t (rest t member), ledger.books.big, ledger.books.head,
    ledger.books.links⟩
  rw [Heap.SameElse] at same
  refine all.transport (fun t member => kept _ (small_taken member)) (fun _ _ => ?_) ?_
  · rw [same]
    exact ⟨rfl, rfl, rfl⟩
  · rw [same]

theorem search_big {front back : List BigBlock} {b : BigBlock} (ledger : Ledger h free smalls (front ++ b :: back)) :
    h.findBig b.request.ptr h.fuel none h.bigblocks = .ok (some ((front.map BigBlock.bb).getLast?.or none, b.bb)) := by
  have inside : b ∈ front ++ b :: back := by simp
  have pages := (ledger.books.big b inside).2.1
  have absent : ∀ node ∈ front.map BigBlock.bb, h.pages node ≠ b.request.ptr := by
    intro node inFront same
    obtain ⟨a, member, rfl⟩ := List.mem_map.mp inFront
    rw [(ledger.books.big a (List.mem_append_left _ member)).2.1] at same
    have equal := page2kva_inj same
    have apart := (List.pairwise_append.mp ledger.held.apart).2.2 a member b List.mem_cons_self
    have own : ∀ c : BigBlock, c.page ∈ c.pages := fun c => List.mem_range'_1.mpr
      ⟨Nat.le_refl _, Nat.lt_add_of_pos_right (Nat.two_pow_pos _)⟩
    exact apart (own a) (equal ▸ own b)
  have links := ledger.books.links
  have head := ledger.books.head
  have enough : (front.map BigBlock.bb).length < h.fuel := by
    have count := ledger.big_count
    rw [List.length_append, List.length_cons] at count
    rw [List.length_map]
    omega
  rw [List.map_append, List.map_cons] at links head
  rw [head]
  exact findBig_some links absent pages enough

private theorem unlinkBig_spec {bb : Nat} {front back : List Nat} (links : Forward h.bbNext (front ++ bb :: back))
    (head : h.bigblocks = (front ++ bb :: back).head?) (distinct : (front ++ bb :: back).Nodup) :
    (h.unlinkBig (front.getLast?.or none) bb).bigblocks = (front ++ back).head? ∧
      Forward (h.unlinkBig (front.getLast?.or none) bb).bbNext (front ++ back) ∧
      h.unlinkBig (front.getLast?.or none) bb = { h with
        bigblocks := (h.unlinkBig (front.getLast?.or none) bb).bigblocks
        bbNext := (h.unlinkBig (front.getLast?.or none) bb).bbNext } := by
  rcases List.eq_nil_or_concat front with rfl | ⟨start, last, rfl⟩
  · exact ⟨links.1, links.2, rfl⟩
  · have isLast : (start.concat last).getLast?.or none = some last := by simp
    rw [isLast]
    refine ⟨?_, links.unlink distinct ?_ ?_, rfl⟩
    · rw [show (h.unlinkBig (some last) bb).bigblocks = h.bigblocks from rfl, head]
      cases start <;> simp
    · intro inner top
      obtain rfl : inner = last := by simpa using top.symm
      exact Function.update_self ..
    · intro inner _ lower
      exact Function.update_of_ne (fun same => lower (by simp [same])) _ _

theorem kfree_big {front back : List BigBlock} {b : BigBlock} (ledger : Ledger h free smalls (front ++ b :: back)) :
    ∃ h' free', h.kfree b.request.ptr = .ok h' ∧ Ledger h' free' smalls (front ++ back) := by
  have inside : b ∈ front ++ b :: back := by simp
  obtain ⟨isBig, pages, order⟩ := ledger.books.big b inside
  have distinct : ((front ++ b :: back).map BigBlock.bb).Nodup := by
    refine List.pairwise_map.mpr ?_
    have disjoint := (List.pairwise_append.mp ledger.whole.layout.disjoint).2.1
    refine (List.pairwise_map.mp disjoint).imp ?_
    intro a c apart same
    rw [Chunk.Apart, Chunk.stop_eq, Chunk.stop_eq] at apart
    have two : slobUnits bigblockSize = 2 := by decide
    simp only [BigBlock.chunk, same, two] at apart
    omega
  have searched := ledger.search_big
  have links := ledger.books.links
  have head := ledger.books.head
  rw [List.map_append, List.map_cons] at links head distinct
  obtain ⟨newHead, newLinks, unlinked⟩ := unlinkBig_spec links head distinct
  have opened : h.kfree b.request.ptr =
      ((h.unlinkBig ((front.map BigBlock.bb).getLast?.or none) b.bb).slobFreePages b.request.ptr
        ((h.unlinkBig ((front.map BigBlock.bb).getLast?.or none) b.bb).order b.bb) >>= fun h => h.slobFree b.bb bigblockSize) := by
    unfold Heap.kfree
    have address : b.request.ptr % pgSize = 0 ∧ b.request.ptr ≠ 0 := page2kva_aligned b.page
    rw [if_neg address.2, if_pos address.1, searched]
    rfl
  rw [opened]
  generalize h.unlinkBig ((front.map BigBlock.bb).getLast?.or none) b.bb = h₁ at newHead newLinks unlinked
  -- the pages go back, all of them are in use
  have inUse : ∀ page ∈ b.pages, page ∈ h₁.mem.used := by
    intro page inPages
    rw [unlinked]
    exact (ledger.held.pages b inside page inPages).1
  have number : kva2page b.request.ptr = b.page := kva2page_page2kva b.page
  have order' : h₁.order b.bb = orderOf b.size := by
    rw [unlinked]
    exact order
  have released : ∃ mem, h₁.mem.freePages b.page (2 ^ orderOf b.size) = .ok mem ∧ mem.used = h₁.mem.used.filter (· ∉ b.pages) :=
    ⟨_, if_pos inUse, rfl⟩
  obtain ⟨mem, freed, used⟩ := released
  rw [Heap.slobFreePages, number, order', freed]
  have moved : Integrity { h₁ with mem := mem } free (takenChunks smalls (front ++ b :: back)) := by
    rw [unlinked]
    exact ⟨⟨ledger.whole.cyclic, ledger.whole.start, ledger.whole.units, ledger.whole.layout⟩, ledger.whole.strict, ledger.whole.paged⟩
  have header : bigblockSize ≠ 0 ∧ slobUnits bigblockSize = slobUnits bigblockSize := ⟨by decide, rfl⟩
  obtain ⟨h', free', result, whole, same, kept, _⟩ := (moved.perm erase_big).slobFree (.inl header)
  have fields : h'.arena = h.arena ∧ h'.grown = h.grown ∧ h'.mem = mem ∧ h'.pages = h.pages ∧ h'.order = h.order ∧
      h'.bigblocks = h₁.bigblocks ∧ h'.bbNext = h₁.bbNext := by
    rw [same, unlinked]
    exact ⟨rfl, rfl, rfl, rfl, rfl, rfl, rfl⟩
  obtain ⟨arena, grown, memory, pages', orders, head', bbNext⟩ := fields
  have rest : ∀ a ∈ front ++ back, a ∈ front ++ b :: back := by
    intro a member
    simp only [List.mem_append, List.mem_cons] at member ⊢
    tauto
  have used' : h'.mem.used = h.mem.used.filter (· ∉ b.pages) := by rw [memory, used, unlinked]
  have still : ∀ page ∈ h.mem.used, page ∉ b.pages → page ∈ h'.mem.used := by
    intro page member outside
    rw [used']
    exact List.mem_filter.mpr ⟨member, by simpa using outside⟩
  refine ⟨h', free', result, whole, ⟨?_, ?_, ?_, ?_⟩, ⟨?_, ?_, ?_, ?_⟩⟩
  · intro s member
    have units : h'.units s.start = h.units s.start := by
      rw [show s.start = s.chunk.start from rfl, kept _ (small_taken member), unlinked]
    rw [units]
    exact ledger.books.small s member
  · intro a member
    rw [pages', orders]
    exact ledger.books.big a (rest a member)
  · rw [head', newHead, List.map_append]
  · rw [bbNext, List.map_append]
    exact newLinks
  · intro page member
    rw [grown] at member
    exact still page (ledger.held.backed page member) fun inPages => (ledger.held.pages b inside page inPages).2.1 member
  · intro page touches
    rw [arena] at touches
    exact still page (ledger.held.image page touches) fun inPages => touches (ledger.held.pages b inside page inPages).2.2
  · intro a member page inPages
    obtain ⟨inUse, notGrown, clear⟩ := ledger.held.pages a (rest a member) page inPages
    rw [grown, arena]
    refine ⟨still page inUse ?_, notGrown, clear⟩
    intro inOther
    have apart := List.pairwise_append.mp ledger.held.apart
    rcases List.mem_append.mp member with inFront | inBack
    · exact apart.2.2 a inFront b List.mem_cons_self inPages inOther
    · exact (List.pairwise_cons.mp apart.2.1).1 a inBack inOther inPages
  · exact ledger.held.apart.sublist ((List.sublist_cons_self b back).append_left front)

theorem small_region {s : SlobBlock} (ledger : Ledger h free smalls bigs) (inside : s ∈ smalls) :
    s.request.ptr + reserved s.request.size = s.chunk.stop ∧ s.chunk.start < s.request.ptr := by
  obtain ⟨small, _⟩ := ledger.books.small s inside
  have positive := ledger.whole.layout.takenSized _ (small_taken inside)
  have bytes : reserved s.request.size = 16 * s.chunk.units - 16 := if_pos small
  rw [bytes, Chunk.stop_eq]
  simp only [SlobBlock.request, SlobBlock.chunk, plus_eq] at positive ⊢
  omega

private theorem page_around {page x n : Nat} (low : page2kva page ≤ x) (high : x < page2kva page + pgSize * n) :
    ∃ other, page ≤ other ∧ other < page + n ∧ page2kva other ≤ x ∧ x < page2kva other + pgSize := by
  obtain ⟨offset, rfl⟩ := Nat.exists_eq_add_of_le low
  simp only [page2kva, pgSize] at high ⊢
  have split := Nat.div_add_mod offset 4096
  have rest := Nat.mod_lt offset (show 0 < 4096 by decide)
  refine ⟨page + offset / 4096, by omega, by omega, ?_, ?_⟩
  · linarith [Nat.zero_le (offset % 4096)]
  · linarith

theorem page_unique {page other x : Nat} (first : page2kva page ≤ x ∧ x < page2kva page + pgSize)
    (second : page2kva other ≤ x ∧ x < page2kva other + pgSize) : page = other := by
  simp only [page2kva, pgSize] at first second
  omega

theorem big_region {b : BigBlock} {x : Nat} (ledger : Ledger h free smalls bigs) (inside : b ∈ bigs) (has : b.request.Has x) :
    ∃ page ∈ b.pages, page2kva page ≤ x ∧ x < page2kva page + pgSize := by
  have bytes : reserved b.request.size = pgSize * 2 ^ orderOf b.size := if_neg (ledger.books.big b inside).1
  rw [Request.Has, bytes] at has
  obtain ⟨page, low, high, around⟩ := page_around has.1 has.2
  exact ⟨page, List.mem_range'_1.mpr ⟨low, high⟩, around⟩

theorem small_has {s : SlobBlock} {x : Nat} (ledger : Ledger h free smalls bigs) (inside : s ∈ smalls) (has : s.request.Has x) :
    s.chunk.start ≤ x ∧ x < s.chunk.stop := by
  obtain ⟨stop, start⟩ := ledger.small_region inside
  rw [Request.Has] at has
  omega

theorem big_reserved {b : BigBlock} (ledger : Ledger h free smalls bigs) (inside : b ∈ bigs) :
    0 < reserved b.request.size := by
  have bytes : reserved b.request.size = pgSize * 2 ^ orderOf b.size := if_neg (ledger.books.big b inside).1
  rw [bytes]
  exact Nat.mul_pos (by decide) (Nat.two_pow_pos _)

private theorem requests_apart (ledger : Ledger h free smalls bigs) :
    (smalls.map SlobBlock.request ++ bigs.map BigBlock.request).Pairwise Request.Apart := by
  have chunks := List.pairwise_append.mp ledger.whole.layout.disjoint
  refine List.pairwise_append.mpr ⟨?_, ?_, ?_⟩
  · refine List.pairwise_map.mpr ((List.pairwise_map.mp chunks.1).imp_of_mem ?_)
    intro a b first second apart
    have left := ledger.small_region first
    have right := ledger.small_region second
    rw [Chunk.Apart] at apart
    rw [Request.Apart]
    omega
  · refine List.pairwise_map.mpr (ledger.held.apart.imp_of_mem ?_)
    intro a b first second apart
    by_contra overlap
    rw [Request.Apart, not_or, not_le, not_le] at overlap
    have positive := big_reserved ledger first
    have positive' := big_reserved ledger second
    obtain ⟨page, inFirst, around⟩ := ledger.big_region first ⟨Nat.le_max_left a.request.ptr b.request.ptr, by omega⟩
    obtain ⟨other, inSecond, around'⟩ := ledger.big_region second ⟨Nat.le_max_right a.request.ptr b.request.ptr, by omega⟩
    exact apart inFirst (page_unique around around' ▸ inSecond)
  · intro r inSmalls r' inBigs
    obtain ⟨s, small, rfl⟩ := List.mem_map.mp inSmalls
    obtain ⟨b, big, rfl⟩ := List.mem_map.mp inBigs
    by_contra overlap
    rw [Request.Apart, not_or, not_le, not_le] at overlap
    have positive := big_reserved ledger big
    have region := ledger.small_region small
    obtain ⟨page, inPages, around⟩ := ledger.big_region big ⟨Nat.le_max_right s.chunk.start b.request.ptr, by omega⟩
    obtain ⟨kva, grown, inKva⟩ := ledger.whole.layout.takenPaged _ (small_taken small) _
      (Nat.le_max_left s.chunk.start b.request.ptr) (by omega)
    obtain ⟨other, rfl⟩ := ledger.whole.paged kva grown
    have same := page_unique around inKva
    exact (ledger.held.pages b big page inPages).2.1 (same ▸ grown)

private theorem start_outside {c : Chunk} {r : Request} (ledger : Ledger h free smalls bigs)
    (inside : c ∈ free ∨ c ∈ takenChunks smalls bigs)
    (isLive : r ∈ smalls.map SlobBlock.request ++ bigs.map BigBlock.request) : ¬ r.Has c.start := by
  intro has
  have layout := ledger.whole.layout
  have size : 0 < c.units := inside.elim (layout.freeSized c) (layout.takenSized c)
  have own : c.start < c.stop := by
    rw [Chunk.stop_eq]
    omega
  rcases List.mem_append.mp isLive with inSmalls | inBigs
  · obtain ⟨s, small, rfl⟩ := List.mem_map.mp inSmalls
    have within := ledger.small_has small has
    rcases inside with inFree | inTaken
    · have apart := layout.apart c inFree _ (small_taken small)
      rw [Chunk.Apart] at apart
      omega
    · have same := layout.taken_unique inTaken (small_taken small) ⟨Nat.le_refl _, own⟩ within
      have behind := (ledger.small_region small).2
      rw [← same] at behind
      exact absurd has.1 (not_le.mpr behind)
  · obtain ⟨b, big, rfl⟩ := List.mem_map.mp inBigs
    obtain ⟨page, inPages, around⟩ := ledger.big_region big has
    obtain ⟨_, notGrown, clear⟩ := ledger.held.pages b big page inPages
    have paged : c.InPages h.grown → False := by
      intro paged
      obtain ⟨kva, grown, inKva⟩ := paged c.start (Nat.le_refl _) own
      obtain ⟨other, rfl⟩ := ledger.whole.paged kva grown
      exact notGrown (page_unique around inKva ▸ grown)
    rcases inside with inFree | inTaken
    · by_cases sentinel : c = ⟨h.arena, 1⟩
      · rw [sentinel] at around
        rw [Clear, plus_eq] at clear
        simp only at around
        omega
      · exact paged (layout.freePaged c inFree sentinel)
    · exact paged (layout.takenPaged c inTaken)

end Ledger

variable {h : Heap} {live : List Request}

private theorem apart_symm {a b : Request} (apart : a.Apart b) : b.Apart a := apart.symm

private theorem live_erase {r : Request} {rest : List Request} (same : live.Perm (r :: rest)) : (live.erase r).Perm rest := by
  have erased := same.erase r
  rwa [List.erase_cons_head] at erased

theorem not_oversized {size : Nat} {result : Option Nat × Heap} (done : h.kmalloc size = .ok result) : ¬ Oversized size := by
  intro large
  rw [Ledger.kmalloc_oversized large] at done
  cases done

/-- The books of the heap have the live blocks. -/
def Booked (h : Heap) (live : List Request) : Prop :=
  ∃ free smalls bigs, Ledger h free smalls bigs ∧ live.Perm (smalls.map SlobBlock.request ++ bigs.map BigBlock.request)

/-- `kmalloc` returns, and the books have the new block. -/
theorem Booked.kmalloc {size : Nat} (booked : Booked h live) (fits : ¬ Oversized size) (guarded : size = 0 → h.Guarded) (served : h.Served size) :
    ∃ answer h', h.kmalloc size = .ok (answer, h') ∧ (∀ p, answer = some p → Booked h' (⟨p, size⟩ :: live)) ∧
      (answer = none → Booked h' live) := by
  obtain ⟨free, smalls, bigs, ledger, same⟩ := booked
  by_cases small : Small size
  · have fresh := served.slob
    rw [if_pos small] at fresh
    obtain ⟨answer, h', result, outcome⟩ := ledger.kmalloc_small small fits guarded fresh
    refine ⟨answer, h', result, ?_⟩
    rcases outcome with ⟨s, free', rfl, own, ledger'⟩ | ⟨rfl, ledger'⟩
    · refine ⟨?_, fun absent => by cases absent⟩
      intro p ptr
      obtain rfl := Option.some.inj ptr
      refine ⟨free', s :: smalls, bigs, ledger', ?_⟩
      rw [← own]
      exact same.cons s.request
    · exact ⟨fun p ptr => (by cases ptr), fun _ => ⟨free, smalls, bigs, ledger', same⟩⟩
  · have fresh := served.slob
    rw [if_neg small] at fresh
    obtain ⟨answer, h', result, outcome⟩ := ledger.kmalloc_big small fresh (served.pages small)
    refine ⟨answer, h', result, ?_⟩
    rcases outcome with ⟨b, free', rfl, own, ledger'⟩ | ⟨rfl, free', ledger'⟩
    · refine ⟨?_, fun absent => by cases absent⟩
      intro p ptr
      obtain rfl := Option.some.inj ptr
      refine ⟨free', smalls, b :: bigs, ledger', ?_⟩
      rw [← own]
      exact (same.cons b.request).trans List.perm_middle.symm
    · exact ⟨fun p ptr => (by cases ptr), fun _ => ⟨free', smalls, bigs, ledger', same⟩⟩

theorem Booked.kfree {r : Request} (booked : Booked h live) (member : r ∈ live) :
    ∃ h', h.kfree r.ptr = .ok h' ∧ Booked h' (live.erase r) := by
  obtain ⟨free, smalls, bigs, ledger, same⟩ := booked
  rcases List.mem_append.mp (same.mem_iff.mp member) with inSmalls | inBigs
  · obtain ⟨s, inside, rfl⟩ := List.mem_map.mp inSmalls
    obtain ⟨front, back, rfl⟩ := List.append_of_mem inside
    obtain ⟨h', free', result, ledger'⟩ := ledger.kfree_small
    refine ⟨h', result, free', front ++ back, bigs, ledger', live_erase (same.trans ?_)⟩
    simp only [List.map_append, List.map_cons, List.append_assoc, List.cons_append]
    exact List.perm_middle
  · obtain ⟨b, inside, rfl⟩ := List.mem_map.mp inBigs
    obtain ⟨front, back, rfl⟩ := List.append_of_mem inside
    obtain ⟨h', free', result, ledger'⟩ := ledger.kfree_big
    refine ⟨h', result, free', smalls, front ++ back, ledger', live_erase (same.trans ?_)⟩
    simp only [List.map_append, List.map_cons, ← List.append_assoc]
    exact List.perm_middle

theorem KmallocRun.ledger (run : KmallocRun h live) : Booked h live := by
  induction run with
  | @initial h own self start noPages noBig image =>
    obtain ⟨free, whole⟩ := (SlobRun.initial own self start noPages).whole
    have noBooks : ∀ b : BigBlock, b ∉ ([] : List BigBlock) := fun b => List.not_mem_nil
    refine ⟨free, [], [], ⟨whole, ⟨?_, ?_, noBig, trivial⟩, ⟨?_, image, ?_, List.Pairwise.nil⟩⟩, .refl _⟩
    · exact fun s inside => absurd inside List.not_mem_nil
    · exact fun b inside => absurd inside (noBooks b)
    · intro page grown
      rw [noPages] at grown
      cases grown
    · exact fun b inside => absurd inside (noBooks b)
  | allocated _ _ guarded served done ih =>
    obtain ⟨answer, h', result, granted, _⟩ := ih.kmalloc (not_oversized done) guarded served
    cases result.symm.trans done
    exact granted _ rfl
  | refused _ _ guarded served done ih =>
    obtain ⟨answer, h', result, _, absent⟩ := ih.kmalloc (not_oversized done) guarded served
    cases result.symm.trans done
    exact absent rfl
  | freed _ member done ih =>
    obtain ⟨h', result, booked⟩ := ih.kfree member
    cases result.symm.trans done
    exact booked
  | @written h live units next order pages bbNext _ inside ih =>
    obtain ⟨free, smalls, bigs, ledger, same⟩ := ih
    have kept := fun c member => inside c.start fun r isLive => ledger.start_outside (c := c) member (same.mem_iff.mp isLive)
    refine ⟨free, smalls, bigs, ⟨⟨⟨ledger.whole.cyclic.frame ?_, ledger.whole.start, ?_, ledger.whole.layout⟩,
      ledger.whole.strict, ledger.whole.paged⟩, ledger.books.transport ?_ ?_ rfl, ledger.held.frame (fun _ used => used) rfl rfl⟩, same⟩
    · intro node inList
      obtain ⟨c, inFree, rfl⟩ := List.mem_map.mp inList
      exact (kept c (.inl inFree)).2.1
    · intro c inFree
      exact (kept c (.inl inFree)).1.trans (ledger.whole.units c inFree)
    · intro s small
      exact (kept s.chunk (.inr (Ledger.small_taken small))).1
    · intro b big
      obtain ⟨_, _, order, pages, bbNext⟩ := kept b.chunk (.inr (Ledger.big_taken big))
      exact ⟨pages, order, bbNext⟩
  | @elsewhere h live mem _ kept ih =>
    obtain ⟨free, smalls, bigs, ledger, same⟩ := ih
    refine ⟨free, smalls, bigs, ⟨⟨⟨ledger.whole.cyclic, ledger.whole.start, ledger.whole.units, ledger.whole.layout⟩,
      ledger.whole.strict, ledger.whole.paged⟩, ledger.books.transport (fun _ _ => rfl) (fun _ _ => ⟨rfl, rfl, rfl⟩) rfl,
      ⟨?_, ?_, ?_, ledger.held.apart⟩⟩, same⟩
    · intro page grown
      exact kept page (ledger.held.backed page grown) (.inr (.inl grown))
    · intro page touches
      exact kept page (ledger.held.image page touches) (.inl touches)
    · intro b big page inPages
      obtain ⟨inUse, rest⟩ := ledger.held.pages b big page inPages
      have isBig := (ledger.books.big b big).1
      refine ⟨kept page inUse (.inr (.inr ⟨b.request, ?_, isBig, ?_⟩)), rest⟩
      · exact same.mem_iff.mpr (List.mem_append_right _ (List.mem_map_of_mem big))
      · have bytes : reserved b.request.size = pgSize * 2 ^ orderOf b.size := if_neg isBig
        have range := List.mem_range'_1.mp inPages
        rw [Request.Has, bytes]
        simp only [BigBlock.request, page2kva, pgSize]
        constructor
        · nlinarith [range.1]
        · nlinarith [range.2]

private theorem KmallocRun.word (run : KmallocRun h live) : ∀ r ∈ live, r.size < 2 ^ 64 := by
  induction run with
  | initial => simp
  | allocated _ word _ _ _ ih =>
    intro r inside
    rcases List.mem_cons.mp inside with rfl | inside
    · exact word
    · exact ih r inside
  | refused _ _ _ _ _ ih => exact ih
  | freed _ _ _ ih => exact fun r inside => ih r (List.mem_of_mem_erase inside)
  | written _ _ ih => exact ih
  | elsewhere _ _ ih => exact ih

/-- What `kmalloc` reserves for a live block is in pages that are in use, in no free chunk and
in no other block, and it is at least what was asked for exactly for sufficient sizes. -/
theorem kmalloc_reserves (run : KmallocRun h live) :
    live.Pairwise Request.Apart ∧
    (∀ r ∈ live, ∀ x, r.Has x → ∃ page ∈ h.mem.used, page2kva page ≤ x ∧ x < page2kva page + pgSize) ∧
    (∃ free : List Chunk, Cyclic h.next (free.map Chunk.start) ∧ h.slobfree ∈ free.map Chunk.start ∧
      (∀ c ∈ free, h.units c.start = c.units) ∧ ∀ c ∈ free, ∀ r ∈ live, ∀ x, r.Has x → x < c.start ∨ c.stop ≤ x) ∧
    ∀ r ∈ live, r.size ≤ reserved r.size ↔ Sufficient r.size := by
  obtain ⟨free, smalls, bigs, ledger, same⟩ := run.ledger
  refine ⟨?_, ?_, ⟨free, ledger.whole.cyclic, ledger.whole.start, ledger.whole.units, ?_⟩, ?_⟩
  · exact (same.pairwise_iff (fun {_ _} => apart_symm)).mpr ledger.requests_apart
  · intro r isLive x has
    rcases List.mem_append.mp (same.mem_iff.mp isLive) with inSmalls | inBigs
    · obtain ⟨s, small, rfl⟩ := List.mem_map.mp inSmalls
      have within := ledger.small_has small has
      obtain ⟨kva, grown, inKva⟩ := ledger.whole.layout.takenPaged _ (Ledger.small_taken small) x within.1 within.2
      obtain ⟨page, rfl⟩ := ledger.whole.paged kva grown
      exact ⟨page, ledger.held.backed page grown, inKva⟩
    · obtain ⟨b, big, rfl⟩ := List.mem_map.mp inBigs
      obtain ⟨page, inPages, around⟩ := ledger.big_region big has
      exact ⟨page, (ledger.held.pages b big page inPages).1, around⟩
  · intro c inFree r isLive x has
    by_contra inside
    rw [not_or, not_lt, not_le] at inside
    rcases List.mem_append.mp (same.mem_iff.mp isLive) with inSmalls | inBigs
    · obtain ⟨s, small, rfl⟩ := List.mem_map.mp inSmalls
      have within := ledger.small_has small has
      have apart := ledger.whole.layout.apart c inFree _ (Ledger.small_taken small)
      rw [Chunk.Apart] at apart
      omega
    · obtain ⟨b, big, rfl⟩ := List.mem_map.mp inBigs
      obtain ⟨page, inPages, around⟩ := ledger.big_region big has
      obtain ⟨_, notGrown, clear⟩ := ledger.held.pages b big page inPages
      by_cases sentinel : c = ⟨h.arena, 1⟩
      · rw [sentinel, Chunk.stop_eq] at inside
        rw [Clear, plus_eq] at clear
        simp only at inside
        omega
      · obtain ⟨kva, grown, inKva⟩ := ledger.whole.layout.freePaged c inFree sentinel x inside.1 inside.2
        obtain ⟨other, rfl⟩ := ledger.whole.paged kva grown
        exact notGrown (Ledger.page_unique around inKva ▸ grown)
  · intro r isLive
    exact reserved_iff r.size (run.word r isLive)

inductive HeapCall where
  | kmalloc (size : Nat)
  | kfree (block : Request)

/-- All that `alloc_pages` could be asked for is fresh. -/
def Heap.servedBy (h : Heap) (size : Nat) : Bool :=
  decide (h.mem.Fresh 1) &&
    match h.slobAlloc bigblockSize with
    | .ok (some _, h') => decide (h'.mem.Fresh (2 ^ orderOf size))
    | _ => true

theorem Heap.servedBy_served {size : Nat} (served : h.servedBy size = true) : h.Served size := by
  obtain ⟨slob, pages⟩ := Bool.and_eq_true_iff.mp served
  refine ⟨fun _ => of_decide_eq_true slob, fun _ bb h' done => ?_⟩
  rw [done] at pages
  exact of_decide_eq_true pages

/-- The calls one after the other, if each of them can come in a run. -/
def Heap.play : List HeapCall → Heap → List Request → Kern (Heap × List Request)
  | [], h, live => .ok (h, live)
  | .kmalloc size :: calls, h, live => do
    assert (decide (size < 2 ^ 64 ∧ size ≠ 0) && h.servedBy size) ""
    let (answer, h) ← h.kmalloc size
    play calls h (answer.elim live fun p => ⟨p, size⟩ :: live)
  | .kfree block :: calls, h, live => do
    assert (decide (block ∈ live)) ""
    let h ← h.kfree block.ptr
    play calls h (live.erase block)

theorem play_run {calls : List HeapCall} {h' : Heap} {live' : List Request} (run : KmallocRun h live)
    (played : h.play calls live = .ok (h', live')) : KmallocRun h' live' := by
  induction calls generalizing h live with
  | nil =>
    obtain ⟨rfl, rfl⟩ := Prod.mk.inj (Except.ok.inj played)
    exact run
  | cons call calls ih =>
    cases call with
    | kmalloc size =>
      obtain ⟨⟨⟩, checked, rest⟩ := bind_ok played
      obtain ⟨⟨answer, h₁⟩, done, rest⟩ := bind_ok rest
      obtain ⟨range, served⟩ := Bool.and_eq_true_iff.mp (assert_ok checked)
      obtain ⟨word, positive⟩ := of_decide_eq_true range
      have guarded : size = 0 → h.Guarded := fun zero => absurd zero positive
      cases answer with
      | none => exact ih (.refused run word guarded (Heap.servedBy_served served) done) rest
      | some p => exact ih (.allocated run word guarded (Heap.servedBy_served served) done) rest
    | kfree block =>
      obtain ⟨⟨⟩, checked, rest⟩ := bind_ok played
      obtain ⟨h₁, done, rest⟩ := bind_ok rest
      exact ih (.freed run (of_decide_eq_true (assert_ok checked)) done) rest

theorem bootPages_le : 0x88000 ≤ 2 ^ 52 := by decide

/-- The initial heap, with `arena` in the page 0x80205 and four answers of the page allocator. -/
def bootHeap : Heap :=
  Heap.initial (page2kva 0x80205 + 0x100)
    ⟨0x88000, fun _ _ => 0, fun _ => 0, [0x80205], fun call => [0x80300, 0x80301, 0x80303, 0x80301][call]?, [], fun _ => none, bootPages_le⟩

private theorem image_page {page : Nat} (touches : ¬ Clear (page2kva 0x80205 + 0x100) (page2kva page)) : page = 0x80205 := by
  simp only [Clear, page2kva, plus_eq, pgSize] at touches
  omega

theorem bootHeap_run : KmallocRun bootHeap [] := by
  refine .initial rfl rfl rfl rfl rfl ?_
  intro page touches
  rw [image_page touches]
  exact List.mem_cons_self

/-- A run from the initial heap to a state that passes a test. -/
theorem bootHeap_play {calls : List HeapCall} {live : List Request} {test : Heap → Bool}
    (played : (bootHeap.play calls []).map (fun after => (after.2, test after.1)) = .ok (live, true)) :
    ∃ h, KmallocRun h live ∧ test h = true := by
  cases result : bootHeap.play calls [] with
  | error halt =>
    rw [result] at played
    cases played
  | ok after =>
    obtain ⟨h, live'⟩ := after
    rw [result] at played
    obtain ⟨rfl, passed⟩ := Prod.mk.inj (Except.ok.inj played)
    exact ⟨h, play_run bootHeap_run result, passed⟩

/-- Two pages, one page, and two pages again after the first block is gone. -/
def bootCalls : List HeapCall := [.kmalloc 8192, .kmalloc 4096, .kfree ⟨page2kva 0x80301, 8192⟩, .kmalloc 8192]

theorem kmalloc_reserves_two : ∃ h a b, KmallocRun h [a, b] ∧ a.size = 8192 ∧ b.size = 4096 ∧ a.Apart b := by
  obtain ⟨h, run, _⟩ : ∃ h, KmallocRun h [⟨page2kva 0x80301, 8192⟩, ⟨page2kva 0x80303, 4096⟩] ∧ _ :=
    @bootHeap_play bootCalls _ (fun _ => true) (by decide +kernel)
  have apart := (kmalloc_reserves run).1
  exact ⟨h, _, _, run, rfl, rfl, (List.pairwise_cons.mp apart).1 _ List.mem_cons_self⟩

/-- `kmalloc(8193)` returns two pages, and the page behind them goes to the next block. -/
theorem kmalloc_too_few : ∃ h a b, KmallocRun h [a, b] ∧ b.size = 8193 ∧ b.ptr < a.ptr ∧ a.ptr < b.ptr + b.size := by
  obtain ⟨h, run, _⟩ : ∃ h, KmallocRun h [⟨page2kva 0x80303, 4096⟩, ⟨page2kva 0x80301, 8193⟩] ∧ _ :=
    @bootHeap_play [.kmalloc 8193, .kmalloc 4096] _ (fun _ => true) (by decide +kernel)
  exact ⟨h, _, _, run, rfl, by decide, by decide⟩

end Ucore
