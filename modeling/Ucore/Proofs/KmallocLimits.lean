import Ucore.Proofs.KmallocRuns

/-! Which sizes `kmalloc` serves, that its loops end, and what `ksize` answers. -/

namespace Ucore
open Lib Heap

variable {h h' : Heap} {live : List Request}

private theorem slobFreeLoop_error {b fuel cur : Nat} {halt : Halt} (failed : h.slobFreeLoop b fuel cur = .error halt) : halt = .diverge := by
  induction fuel generalizing cur with
  | zero => exact (Except.error.inj failed).symm
  | succ fuel ih =>
    unfold Heap.slobFreeLoop at failed
    split at failed
    · cases failed
    · split at failed
      · cases failed
      · exact ih failed

private theorem slobFree_error {block size : Nat} {halt : Halt} (failed : h.slobFree block size = .error halt) : halt = .diverge := by
  have searched {g : Heap} (failed : g.reinsert block = .error halt) : halt = .diverge := by
    unfold Heap.reinsert at failed
    cases found : g.slobFreeLoop block g.fuel g.slobfree with
    | error halt' =>
      rw [found] at failed
      cases failed
      exact slobFreeLoop_error found
    | ok cur =>
      rw [found] at failed
      cases failed
  unfold Heap.slobFree at failed
  split at failed
  · cases failed
  · split at failed
    · exact searched failed
    · exact searched failed

private theorem slobAllocLoop_error {size units fuel prev cur : Nat} {halt : Halt}
    (failed : Heap.slobAllocLoop size units fuel prev cur h = .error halt) : halt = .diverge := by
  induction fuel generalizing prev cur h with
  | zero => exact (Except.error.inj failed).symm
  | succ fuel ih =>
    unfold Heap.slobAllocLoop at failed
    split at failed
    · cases failed
    · split at failed
      · split at failed
        · cases failed
        · split at failed
          · cases failed
          next kva h₁ _ =>
            cases grown : h₁.grow kva with
            | error halt' =>
              rw [grown] at failed
              cases failed
              exact slobFree_error grown
            | ok h₂ =>
              rw [grown] at failed
              exact ih failed
      · exact ih failed

private theorem slobAlloc_error {size : Nat} {halt : Halt} (failed : h.slobAlloc size = .error halt) (fits : wrap (size + slobUnit) < pgSize) :
    halt = .diverge := by
  unfold Heap.slobAlloc at failed
  rw [decide_eq_true fits] at failed
  exact slobAllocLoop_error failed

/-- The assertion of `slob_alloc` stops `kmalloc` for the sizes that are small for `__kmalloc`
and with both headers fill a page, in every heap and for no other size. -/
theorem kmalloc_asserts_iff (h : Heap) (size : Nat) :
    h.kmalloc size = .error (.assertion "(size + SLOB_UNIT) < PAGE_SIZE") ↔ Oversized size := by
  constructor
  · intro failed
    by_contra fits
    unfold Heap.kmalloc at failed
    split at failed
    next small =>
      have limit := small
      simp only [pgSize, slobUnit] at limit
      have room : wrap (size + slobUnit + slobUnit) < pgSize := by
        have below : ¬ pgSize ≤ size + slobUnit + slobUnit := fun large => fits ⟨small, large⟩
        simp only [wrap, slobUnit, pgSize] at below ⊢
        omega
      cases found : h.slobAlloc (size + slobUnit) with
      | error halt =>
        rw [found] at failed
        cases failed
        cases slobAlloc_error found room
      | ok result =>
        rw [found] at failed
        cases failed
    next =>
      cases found : h.slobAlloc bigblockSize with
      | error halt =>
        rw [found] at failed
        cases failed
        cases slobAlloc_error found (by decide)
      | ok result =>
        rw [found] at failed
        obtain ⟨bb, h₁⟩ := result
        cases bb with
        | none => cases failed
        | some bb =>
          simp only [ok_bind, Heap.kmallocPages, (findOrder_spec size).1] at failed
          split at failed
          · cases failed
          next h₂ _ =>
            cases freed : h₂.slobFree bb bigblockSize with
            | error halt =>
              rw [freed] at failed
              cases failed
              cases slobFree_error freed
            | ok h₃ =>
              rw [freed] at failed
              cases failed
  · exact Ledger.kmalloc_oversized

/-- `kmalloc` fails its assertion for these sizes only, and in a run in which no request for no
bytes took `arena` it returns for every other size. -/
theorem kmalloc_completes (size : Nat) :
    (∀ h : Heap, h.kmalloc size = .error (.assertion "(size + SLOB_UNIT) < PAGE_SIZE") ↔ Oversized size) ∧
    ∀ h live, KmallocRun h live → (size = 0 → h.Guarded) → h.Served size → ((∃ answer h', h.kmalloc size = .ok (answer, h')) ↔ ¬ Oversized size) := by
  refine ⟨fun h => kmalloc_asserts_iff h size, ?_⟩
  intro h live run guarded served
  constructor
  · intro returned large
    obtain ⟨answer, h', returned⟩ := returned
    rw [Ledger.kmalloc_oversized large] at returned
    cases returned
  · intro fits
    obtain ⟨answer, h', returned, _⟩ := run.ledger.kmalloc fits guarded served
    exact ⟨answer, h', returned⟩

/-- The smallest size that gets whole pages, after some blocks have come and gone. -/
theorem kmalloc_completes_page : ∃ h live answer h', KmallocRun h live ∧ live.length = 2 ∧ h.kmalloc 4080 = .ok (answer, h') := by
  obtain ⟨h, run, served⟩ : ∃ h, KmallocRun h [⟨page2kva 0x80301, 8192⟩, ⟨page2kva 0x80303, 4096⟩] ∧ _ :=
    @bootHeap_play bootCalls _ (fun h => h.servedBy 4080) (by decide +kernel)
  obtain ⟨answer, h', done⟩ := ((kmalloc_completes 4080).2 h _ run (fun zero => by cases zero) (Heap.servedBy_served served)).mpr (by decide)
  exact ⟨h, _, answer, h', run, rfl, done⟩

/-- The first call of `kmalloc` can fail the assertion. -/
theorem kmalloc_asserts : ∃ h, KmallocRun h [] ∧ h.kmalloc 4064 = .error (.assertion "(size + SLOB_UNIT) < PAGE_SIZE") :=
  ⟨bootHeap, bootHeap_run, Ledger.kmalloc_oversized (by decide)⟩

/-- Where the block begins: at its header, or at its first page. -/
def Request.start (r : Request) : Nat := if Small r.size then r.ptr - slobUnit else r.ptr

/-- The byte is in the block or in its header. -/
def Request.Occupies (r : Request) (x : Nat) : Prop := r.start ≤ x ∧ x < r.ptr + reserved r.size

theorem Request.Has.occupies {r : Request} {x : Nat} (has : r.Has x) : r.Occupies x := by
  refine ⟨?_, has.2⟩
  have low := has.1
  unfold Request.start
  split
  · omega
  · exact low

/-- The free chunks and the `bigblock_t`s, as the lists of the heap have them. -/
structure HeapLists (h : Heap) (free : List Chunk) (records : List Nat) : Prop where
  cyclic : Cyclic h.next (free.map Chunk.start)
  start : h.slobfree ∈ free.map Chunk.start
  units : ∀ c ∈ free, h.units c.start = c.units
  head : h.bigblocks = records.head?
  links : Forward h.bbNext records

section Blocks

variable {smalls : List SlobBlock} {bigs : List BigBlock} {free : List Chunk} {x : Nat}

theorem Ledger.lists (ledger : Ledger h free smalls bigs) : HeapLists h free (bigs.map BigBlock.bb) :=
  ⟨ledger.whole.cyclic, ledger.whole.start, ledger.whole.units, ledger.books.head, ledger.books.links⟩

private theorem small_occupies {s : SlobBlock} (ledger : Ledger h free smalls bigs) (inside : s ∈ smalls) (occupies : s.request.Occupies x) :
    s.chunk.start ≤ x ∧ x < s.chunk.stop := by
  obtain ⟨stop, _⟩ := ledger.small_region inside
  have header : s.request.start = s.chunk.start := by
    have small : Small s.request.size := (ledger.books.small s inside).1
    rw [Request.start, if_pos small]
    simp only [SlobBlock.request, SlobBlock.chunk, plus_eq, slobUnit]
    omega
  rw [Request.Occupies, header, stop] at occupies
  exact occupies

private theorem big_occupies {b : BigBlock} (ledger : Ledger h free smalls bigs) (inside : b ∈ bigs) (occupies : b.request.Occupies x) :
    b.request.Has x := by
  have large : ¬ Small b.request.size := (ledger.books.big b inside).1
  rw [Request.Occupies, Request.start, if_neg large] at occupies
  exact occupies

private theorem pages_outside {b : BigBlock} {c : Chunk} (ledger : Ledger h free smalls bigs) (inside : b ∈ bigs)
    (chunk : c ∈ free ∨ c ∈ takenChunks smalls bigs) (has : b.request.Has x) : ¬ (c.start ≤ x ∧ x < c.stop) := by
  intro within
  obtain ⟨page, inPages, around⟩ := ledger.big_region inside has
  obtain ⟨_, notGrown, clear⟩ := ledger.held.pages b inside page inPages
  have paged : c.InPages h.grown → False := by
    intro paged
    obtain ⟨kva, grown, inKva⟩ := paged x within.1 within.2
    obtain ⟨other, rfl⟩ := ledger.whole.paged kva grown
    exact notGrown (Ledger.page_unique around inKva ▸ grown)
  rcases chunk with inFree | inTaken
  · by_cases sentinel : c = ⟨h.arena, 1⟩
    · rw [sentinel, Chunk.stop_eq] at within
      rw [Clear, plus_eq] at clear
      simp only at within
      omega
    · exact paged (ledger.whole.layout.freePaged c inFree sentinel)
  · exact paged (ledger.whole.layout.takenPaged c inTaken)

private theorem occupied_not_free {r : Request} {c : Chunk} (ledger : Ledger h free smalls bigs)
    (isLive : r ∈ smalls.map SlobBlock.request ++ bigs.map BigBlock.request) (inFree : c ∈ free) (occupies : r.Occupies x) :
    ¬ (c.start ≤ x ∧ x < c.stop) := by
  rcases List.mem_append.mp isLive with inSmalls | inBigs
  · obtain ⟨s, small, rfl⟩ := List.mem_map.mp inSmalls
    have within := small_occupies ledger small occupies
    have apart := ledger.whole.layout.apart c inFree _ (Ledger.small_taken small)
    rw [Chunk.Apart] at apart
    omega
  · obtain ⟨b, big, rfl⟩ := List.mem_map.mp inBigs
    exact pages_outside ledger big (.inl inFree) (big_occupies ledger big occupies)

private theorem record_not_free {b : BigBlock} {c : Chunk} (ledger : Ledger h free smalls bigs) (inside : b ∈ bigs) (inFree : c ∈ free) :
    c.start ≠ b.bb := by
  have apart := ledger.whole.layout.apart c inFree _ (Ledger.big_taken inside)
  have size := ledger.whole.layout.freeSized c inFree
  have two : slobUnits bigblockSize = 2 := by decide
  rw [Chunk.Apart, Chunk.stop_eq, Chunk.stop_eq] at apart
  simp only [BigBlock.chunk, two] at apart
  omega

private theorem record_outside {r : Request} {b : BigBlock} (ledger : Ledger h free smalls bigs)
    (isLive : r ∈ smalls.map SlobBlock.request ++ bigs.map BigBlock.request) (inside : b ∈ bigs) (has : r.Has x) :
    ¬ (b.bb ≤ x ∧ x < plus b.bb 2) := by
  intro within
  have record : b.chunk.start ≤ x ∧ x < b.chunk.stop := within
  rcases List.mem_append.mp isLive with inSmalls | inBigs
  · obtain ⟨s, small, rfl⟩ := List.mem_map.mp inSmalls
    have chunk := ledger.small_has small has
    have apart := (List.pairwise_append.mp ledger.whole.layout.disjoint).2.2 _ (List.mem_map_of_mem small) _ (List.mem_map_of_mem inside)
    rw [Chunk.Apart] at apart
    omega
  · obtain ⟨a, big, rfl⟩ := List.mem_map.mp inBigs
    exact pages_outside ledger big (.inr (Ledger.big_taken inside)) has record

private theorem block_unique {r other : Request} (ledger : Ledger h free smalls bigs)
    (isLive : r ∈ smalls.map SlobBlock.request ++ bigs.map BigBlock.request)
    (otherLive : other ∈ smalls.map SlobBlock.request ++ bigs.map BigBlock.request) (has : r.Has x) (occupies : other.Occupies x) :
    other = r := by
  rcases List.mem_append.mp isLive with inSmalls | inBigs
  · obtain ⟨s, small, rfl⟩ := List.mem_map.mp inSmalls
    have chunk := ledger.small_has small has
    rcases List.mem_append.mp otherLive with inSmalls' | inBigs'
    · obtain ⟨t, small', rfl⟩ := List.mem_map.mp inSmalls'
      have chunk' := small_occupies ledger small' occupies
      by_contra different
      have chunks := List.pairwise_map.mp (List.pairwise_append.mp ledger.whole.layout.disjoint).1
      have symmetric : Std.Symm fun a b : SlobBlock => a.chunk.Apart b.chunk := ⟨fun _ _ apart => Or.symm apart⟩
      have apart := chunks.forall small' small fun same => different (by rw [same])
      rw [Chunk.Apart] at apart
      omega
    · obtain ⟨b, big, rfl⟩ := List.mem_map.mp inBigs'
      exact absurd chunk (pages_outside ledger big (.inr (Ledger.small_taken small)) (big_occupies ledger big occupies))
  · obtain ⟨b, big, rfl⟩ := List.mem_map.mp inBigs
    rcases List.mem_append.mp otherLive with inSmalls' | inBigs'
    · obtain ⟨t, small', rfl⟩ := List.mem_map.mp inSmalls'
      exact absurd (small_occupies ledger small' occupies) (pages_outside ledger big (.inr (Ledger.small_taken small')) has)
    · obtain ⟨a, big', rfl⟩ := List.mem_map.mp inBigs'
      by_contra different
      have symmetric : Std.Symm fun a b : BigBlock => a.pages.Disjoint b.pages := ⟨fun _ _ disjoint => List.disjoint_symm disjoint⟩
      have apart := ledger.held.apart.forall big' big fun same => different (by rw [same])
      obtain ⟨page, inPages, around⟩ := ledger.big_region big has
      obtain ⟨page', inPages', around'⟩ := ledger.big_region big' (big_occupies ledger big' occupies)
      exact apart inPages' (Ledger.page_unique around around' ▸ inPages)

end Blocks

/-- In a run in which no request for no bytes took `arena` every loop ends, and nothing that is
live is on the free list. -/
theorem heap_loops_end (run : KmallocRun h live) :
    (∀ size, ¬ Oversized size → (size = 0 → h.Guarded) → h.Served size → ∃ answer h', h.kmalloc size = .ok (answer, h')) ∧
    (∀ r ∈ live, ∃ h', h.kfree r.ptr = .ok h') ∧
    ∃ free records, HeapLists h free records ∧ (∀ bb ∈ records, ∀ c ∈ free, c.start ≠ bb) ∧
      ∀ c ∈ free, ∀ r ∈ live, ∀ x, r.Occupies x → ¬ (c.start ≤ x ∧ x < c.stop) := by
  have booked := run.ledger
  refine ⟨?_, ?_, ?_⟩
  · intro size fits guarded served
    obtain ⟨answer, h', returned, _⟩ := booked.kmalloc fits guarded served
    exact ⟨answer, h', returned⟩
  · intro r member
    obtain ⟨h', returned, _⟩ := booked.kfree member
    exact ⟨h', returned⟩
  · obtain ⟨free, smalls, bigs, ledger, same⟩ := booked
    refine ⟨free, _, ledger.lists, ?_, ?_⟩
    · intro bb inside c inFree
      obtain ⟨b, big, rfl⟩ := List.mem_map.mp inside
      exact record_not_free ledger big inFree
    · intro c inFree r isLive x occupies
      exact occupied_not_free ledger (same.mem_iff.mp isLive) inFree occupies

theorem heap_loops_end_boot : ∃ h live, KmallocRun h live ∧ live.length = 2 ∧ (∃ answer h', h.kmalloc 1 = .ok (answer, h')) ∧
    ∀ r ∈ live, ∃ h', h.kfree r.ptr = .ok h' := by
  obtain ⟨h, run, served⟩ : ∃ h, KmallocRun h [⟨page2kva 0x80301, 8192⟩, ⟨page2kva 0x80303, 4096⟩] ∧ _ :=
    @bootHeap_play bootCalls _ (fun h => h.servedBy 1) (by decide +kernel)
  obtain ⟨allocs, frees, _⟩ := heap_loops_end run
  exact ⟨h, _, run, rfl, allocs 1 (by decide) (fun zero => by cases zero) (Heap.servedBy_served served), frees⟩

private theorem slobFreeLoop_self {cur : Nat} (self : h.next cur = cur) (rounds : Nat) : h.slobFreeLoop cur rounds cur = .error .diverge := by
  induction rounds with
  | zero => rfl
  | succ rounds ih =>
    rw [Heap.slobFreeLoop, if_neg (by omega), self, if_neg (by omega)]
    exact ih

private theorem kmalloc_zero (room : h.units (h.next h.slobfree) ≥ 1) :
    h.kmalloc 0 = .ok (some (plus (h.next h.slobfree) 1), h.take h.slobfree (h.next h.slobfree) 1) := by
  have asserted : wrap (slobUnit + slobUnit) < pgSize := by decide
  have one : slobUnits slobUnit = 1 := by decide
  have opened : h.slobAlloc slobUnit = Heap.slobAllocLoop slobUnit 1 (2 * h.fuel + 255 + 1) h.slobfree (h.next h.slobfree) h := by
    simp [Heap.slobAlloc, asserted, one]
  rw [Heap.kmalloc, if_pos (by decide), Nat.zero_add, opened, Heap.slobAllocLoop, if_pos room]
  rfl

/-- The first request for no bytes gets `arena`, which stays on the free list, and `kfree` never
finds a place for it. -/
theorem heap_loop_endless :
    ∃ h p, bootHeap.kmalloc 0 = .ok (some p, h) ∧ h.slobfree = p - slobUnit ∧ h.next h.slobfree = h.slobfree ∧
      ∀ rounds, h.slobFreeLoop (p - slobUnit) rounds h.slobfree = .error .diverge := by
  have served := kmalloc_zero (show bootHeap.units (bootHeap.next bootHeap.slobfree) ≥ 1 from Nat.le_refl 1)
  have self : (bootHeap.take bootHeap.arena bootHeap.arena 1).next bootHeap.arena = bootHeap.arena := by
    rw [Heap.take, if_pos (show bootHeap.units bootHeap.arena = 1 from rfl)]
    exact Function.update_self bootHeap.arena bootHeap.arena bootHeap.next
  refine ⟨_, _, served, rfl, self, ?_⟩
  intro rounds
  exact slobFreeLoop_self self rounds

theorem orderOf_le (size : Nat) : orderOf size ≤ 19 := by
  obtain ⟨_, _, least⟩ := findOrder_spec size
  have limit : toInt size < 2 ^ 31 := @BitVec.toInt_lt 32 (BitVec.ofNat 32 size)
  rcases least with zero | least
  · omega
  · by_contra large
    have power : (2 : Int) ^ 19 ≤ 2 ^ (orderOf size - 1) := pow_le_pow_right₀ (by decide) (by omega)
    omega

private theorem ksize_header {ptr : Nat} (present : ptr ≠ 0) (absent : ptr % pgSize = 0 → h.findBig ptr h.fuel none h.bigblocks = .ok none) :
    h.ksize ptr = .ok (toUnsigned (h.units (ptr - slobUnit) * slobUnit)) := by
  rw [Heap.ksize, if_neg present]
  split
  next aligned =>
    rw [absent aligned]
    rfl
  · rfl

private theorem ksize_small {smalls : List SlobBlock} {bigs : List BigBlock} {free : List Chunk} {s : SlobBlock}
    (ledger : Ledger h free smalls bigs) (inside : s ∈ smalls) : h.ksize s.request.ptr = .ok (reserved s.size + slobUnit) := by
  obtain ⟨small, own, _⟩ := ledger.books.small s inside
  have present : s.request.ptr ≠ 0 := by
    simp only [SlobBlock.request, plus_eq]
    omega
  have header : s.request.ptr - slobUnit = s.start := by
    simp only [SlobBlock.request, plus_eq, slobUnit]
    omega
  rw [ksize_header present (ledger.search_small inside), header, own, reserved, if_pos small]
  simp only [Small, pgSize, slobUnit] at small
  simp only [toUnsigned, slobUnits, slobUnit, wrap]
  congr 1
  omega

private theorem ksize_big {smalls : List SlobBlock} {bigs : List BigBlock} {free : List Chunk} {b : BigBlock}
    (ledger : Ledger h free smalls bigs) (inside : b ∈ bigs) : h.ksize b.request.ptr = .ok (reserved b.size) := by
  obtain ⟨large, _, order⟩ := ledger.books.big b inside
  obtain ⟨front, back, rfl⟩ := List.append_of_mem inside
  have aligned : b.request.ptr % pgSize = 0 ∧ b.request.ptr ≠ 0 := Ledger.page2kva_aligned b.page
  have small : pgSize * 2 ^ orderOf b.size < 2 ^ 32 := by
    have power : 2 ^ orderOf b.size ≤ 2 ^ 19 := Nat.pow_le_pow_right (by decide) (orderOf_le b.size)
    unfold pgSize
    omega
  rw [Heap.ksize, if_neg aligned.2, if_pos aligned.1, ledger.search_big, reserved, if_neg large]
  simp only [ok_bind, order, toUnsigned, Nat.mod_eq_of_lt small]

theorem KmallocRun.ksize {r : Request} (run : KmallocRun h live) (isLive : r ∈ live) :
    h.ksize r.ptr = .ok (reserved r.size + (if Small r.size then slobUnit else 0)) := by
  obtain ⟨free, smalls, bigs, ledger, same⟩ := run.ledger
  rcases List.mem_append.mp (same.mem_iff.mp isLive) with inSmalls | inBigs
  · obtain ⟨s, small, rfl⟩ := List.mem_map.mp inSmalls
    have isSmall : Small s.request.size := (ledger.books.small s small).1
    rw [if_pos isSmall]
    exact ksize_small ledger small
  · obtain ⟨b, big, rfl⟩ := List.mem_map.mp inBigs
    have isBig : ¬ Small b.request.size := (ledger.books.big b big).1
    rw [if_neg isBig]
    exact ksize_big ledger big

/-- What `ksize` counts belongs to the block for whole pages only: they are in no free chunk, no
`bigblock_t` and no other live block. For a block in SLOB it counts one unit too much. -/
theorem ksize_own_iff (run : KmallocRun h live) :
    ∃ free records, HeapLists h free records ∧ ∀ r ∈ live, ∃ bytes, h.ksize r.ptr = .ok bytes ∧
      bytes = reserved r.size + (if Small r.size then slobUnit else 0) ∧
      ((∀ x, r.ptr ≤ x → x < r.ptr + bytes → r.Has x) ↔ ¬ Small r.size) ∧
      ∀ x, r.Has x → (∀ c ∈ free, ¬ (c.start ≤ x ∧ x < c.stop)) ∧ (∀ bb ∈ records, ¬ (bb ≤ x ∧ x < plus bb 2)) ∧
        ∀ other ∈ live, other ≠ r → ¬ other.Occupies x := by
  obtain ⟨free, smalls, bigs, ledger, same⟩ := run.ledger
  refine ⟨free, _, ledger.lists, ?_⟩
  intro r isLive
  have listed := same.mem_iff.mp isLive
  refine ⟨_, run.ksize isLive, rfl, ?_, ?_⟩
  · by_cases small : Small r.size
    · rw [if_pos small]
      refine iff_of_false ?_ (fun large => large small)
      intro all
      have beyond := (all (r.ptr + reserved r.size) (Nat.le_add_right _ _) (by unfold slobUnit; omega)).2
      omega
    · rw [if_neg small]
      exact iff_of_true (fun x low high => ⟨low, high⟩) small
  · intro x has
    refine ⟨fun c inFree => occupied_not_free ledger listed inFree has.occupies, ?_, ?_⟩
    · intro bb inside within
      obtain ⟨b, big, rfl⟩ := List.mem_map.mp inside
      exact record_outside ledger listed big has within
    · intro other otherLive different occupies
      exact different (block_unique ledger listed (same.mem_iff.mp otherLive) has occupies)

/-- A block of two pages, and one of one page. -/
theorem ksize_own_iff_pages : ∃ h a b, KmallocRun h [a, b] ∧ b.size = 4096 ∧ h.ksize b.ptr = .ok 4096 := by
  obtain ⟨h, run, _⟩ : ∃ h, KmallocRun h [⟨page2kva 0x80301, 8192⟩, ⟨page2kva 0x80303, 4096⟩] ∧ _ :=
    @bootHeap_play bootCalls _ (fun _ => true) (by decide +kernel)
  obtain ⟨free, records, _, blocks⟩ := ksize_own_iff run
  obtain ⟨bytes, answered, count, _⟩ := blocks ⟨page2kva 0x80303, 4096⟩ (List.mem_cons_of_mem _ List.mem_cons_self)
  have value : bytes = 4096 := count.trans (by decide)
  rw [value] at answered
  exact ⟨h, _, _, run, rfl, answered⟩

/-- Of two blocks that SLOB cuts from one page, `ksize` of the first counts the header of the second. -/
theorem ksize_over :
    ∃ h a b bytes, KmallocRun h [a, b] ∧ h.ksize b.ptr = .ok bytes ∧ b.ptr ≤ a.start ∧ a.start < b.ptr + bytes := by
  obtain ⟨h, run, _⟩ : ∃ h, KmallocRun h [⟨page2kva 0x80300 + 64, 32⟩, ⟨page2kva 0x80300 + 16, 32⟩] ∧ _ :=
    @bootHeap_play [.kmalloc 32, .kmalloc 32] _ (fun _ => true) (by decide +kernel)
  have answered := run.ksize (List.mem_cons_of_mem _ List.mem_cons_self)
  exact ⟨h, _, _, _, run, answered, by decide, by decide⟩

end Ucore
