import Ucore.Proofs.PageRuns

/-! Allocating and freeing on any well-formed free list: an allocation takes the first run
that is long enough, and freed or fresh pages leave the list well formed except
behind its last block. -/

namespace Ucore.PageAllocator
open Lib

variable {lo n base k start : Nat} {area area' marked : FreeArea} {blocks blocks' front back : List Block}

/-- The `k` pages from `start` on are free. -/
def FreeRun (blocks : List Block) (start k : Nat) : Prop := ∀ p, start ≤ p → p < start + k → Covered blocks p

private theorem apart_cases (apart : blocks.Pairwise (fun a b => a.start + a.size < b.start)) :
    ∀ a ∈ blocks, ∀ b ∈ blocks, a = b ∨ a.start + a.size < b.start ∨ b.start + b.size < a.start := by
  intro a first b second
  obtain ⟨i, low, rfl⟩ := List.mem_iff_getElem.mp first
  obtain ⟨j, high, rfl⟩ := List.mem_iff_getElem.mp second
  have order := List.pairwise_iff_getElem.mp apart
  rcases Nat.lt_trichotomy i j with before | same | behind
  · exact Or.inr (Or.inl (order i j low high before))
  · exact Or.inl (getElem_congr_idx same)
  · exact Or.inr (Or.inr (order j i high low behind))

theorem FreeRun.inside (apart : blocks.Pairwise (fun a b => a.start + a.size < b.start)) (nonempty : 0 < k)
    (run : FreeRun blocks start k) : ∃ block ∈ blocks, block.start ≤ start ∧ start + k ≤ block.start + block.size := by
  induction k with
  | zero => omega
  | succ k ih =>
    obtain ⟨last, member, low, high⟩ := run (start + k) (by omega) (by omega)
    by_cases first : k = 0
    · exact ⟨last, member, by omega, by omega⟩
    · obtain ⟨block, inside, lower, upper⟩ := ih (by omega) fun p above below => run p above (by omega)
      rcases apart_cases apart block inside last member with rfl | before | behind
      · exact ⟨block, inside, lower, by omega⟩
      · omega
      · omega

/-- `default_alloc_pages` answers `NULL` and changes nothing if there is no run of `k` free
pages, and otherwise takes the lowest one. -/
theorem first_fit (formed : WellFormed lo n area blocks) (nonempty : 0 < k) :
    (defaultAllocPages k area = .ok (none, area) ∧ ∀ start, ¬ FreeRun blocks start k) ∨
    ∃ page area' blocks', defaultAllocPages k area = .ok (some page, area') ∧
      FreeRun blocks page k ∧ (∀ start < page, ¬ FreeRun blocks start k) ∧
      (area'.page page).flags.property = false ∧ WellFormed lo n area' blocks' ∧
      ∀ p, Covered blocks' p ↔ Covered blocks p ∧ ¬ (page ≤ p ∧ p < page + k) := by
  rcases defaultAllocPages_spec formed nonempty with ⟨missing, result⟩ | ⟨block, blocks', found, result, formed', -, covered⟩
  · left
    refine ⟨result, ?_⟩
    intro start run
    obtain ⟨block, member, low, high⟩ := run.inside formed.apart nonempty
    have small := List.find?_eq_none.mp missing block member
    simp only [decide_eq_true_eq] at small
    omega
  · right
    obtain ⟨fit, front, back, rfl, earlier⟩ := List.find?_eq_some_iff_append.mp found
    simp only [decide_eq_true_eq] at fit
    have member : block ∈ front ++ block :: back := List.mem_append_right _ List.mem_cons_self
    refine ⟨block.start, _, blocks', result, ?_, ?_, ?_, formed', covered⟩
    · intro p low high
      exact ⟨block, member, low, by omega⟩
    · intro start below run
      obtain ⟨other, inside, low, high⟩ := run.inside formed.apart nonempty
      rcases List.mem_append.mp inside with before | behind
      · have small := earlier other before
        simp only [Bool.not_eq_true', decide_eq_false_iff_not] at small
        omega
      · rcases List.mem_cons.mp behind with rfl | later
        · omega
        · have order := (List.pairwise_cons.mp (List.pairwise_append.mp formed.ordered).2.1).1 other later
          omega
    · apply formed'.not_head
      · exact (formed.inside block member).1
      · have bound := (formed.inside block member).2
        omega
      · rw [covered]
        rintro ⟨-, away⟩
        exact away ⟨Nat.le_refl _, by omega⟩

/-- Five pages, of which the first is free. -/
def oneFree : FreeArea where
  npage := 5
  page p := if p = 0 then ⟨0, { property := true }, 1⟩ else ⟨0, {}, 0⟩
  link := listAdd .freeList (.pageLink 0) (listInit .freeList ⟨fun _ => .freeList, fun _ => .freeList⟩)
  nrFree := 1

theorem oneFree_formed : WellFormed 0 5 oneFree [⟨0, 1⟩] := by
  refine ⟨⟨?_, by decide, by simp, by simp, ?_, rfl, by decide, by decide⟩, by simp⟩
  · exact listAdd_head (listInit_ring _ _) (by simp)
  · intro p _ _
    by_cases first : p = 0 <;> simp [oneFree, first]

theorem oneFree_outside (p : Nat) (low : 2 ≤ p) : ¬ Covered [⟨0, 1⟩] p := by
  rintro ⟨block, member, -, high⟩
  rw [List.mem_singleton.mp member] at high
  simp only at high
  omega

/-- Eight pages with three free blocks, of which the first is one page. -/
def threeFree : FreeArea where
  npage := 8
  page p := if p = 0 then ⟨0, { property := true }, 1⟩ else if p = 2 then ⟨0, { property := true }, 3⟩
    else if p = 6 then ⟨0, { property := true }, 2⟩ else ⟨0, {}, 0⟩
  link := listAddBefore .freeList (.pageLink 6) (listAddBefore .freeList (.pageLink 2) (listAddBefore .freeList (.pageLink 0)
    (listInit .freeList ⟨fun _ => .freeList, fun _ => .freeList⟩)))
  nrFree := 6

private theorem threeFree_formed : WellFormed 0 8 threeFree [⟨0, 1⟩, ⟨2, 3⟩, ⟨6, 2⟩] := by
  refine ⟨⟨?_, by decide, by decide, by decide, ?_, rfl, by decide, by decide⟩, by decide⟩
  · have first := listAddBefore_head (listInit_ring Link.freeList ⟨fun _ => .freeList, fun _ => .freeList⟩)
      (by decide : Link.pageLink 0 ∉ [Link.freeList])
    have second := listAddBefore_head first (by decide : Link.pageLink 2 ∉ _)
    exact listAddBefore_head second (by decide)
  · intro p _ _
    by_cases first : p = 0
    · simp [threeFree, first]
    by_cases second : p = 2
    · simp [threeFree, second]
    by_cases third : p = 6
    · simp [threeFree, third]
    simp [threeFree, first, second, third]

/-- The first block is too small, and the second one is split. -/
theorem first_fit_split : ∃ area' blocks', defaultAllocPages 2 threeFree = .ok (some 2, area') ∧ WellFormed 0 8 area' blocks' ∧
    ∀ p, Covered blocks' p ↔ Covered [⟨0, 1⟩, ⟨2, 3⟩, ⟨6, 2⟩] p ∧ ¬ (2 ≤ p ∧ p < 2 + 2) := by
  have second : (defaultAllocPages 2 threeFree).map Prod.fst = .ok (some 2) := by decide
  rcases first_fit threeFree_formed (by decide : 0 < 2) with ⟨missing, -⟩ | ⟨page, area', blocks', result, -, -, -, formed, covered⟩
  · rw [missing] at second
    cases Except.ok.inj second
  · rw [result] at second
    obtain rfl : page = 2 := Option.some.inj (Except.ok.inj second)
    exact ⟨area', blocks', result, formed, covered⟩

/-- The free pages in the order of their blocks. -/
def freePageList (blocks : List Block) : List Nat := blocks.flatMap fun block => List.range' block.start block.size

theorem mem_freePageList {p : Nat} : p ∈ freePageList blocks ↔ Covered blocks p := by
  simp only [freePageList, List.mem_flatMap, List.mem_range'_1, Covered, Block.Covers]

theorem freePageList_length (blocks : List Block) : (freePageList blocks).length = (blocks.map Block.size).sum := by
  simp only [freePageList, List.length_flatMap, List.length_range']

theorem freePageList_nodup (ordered : blocks.Pairwise (fun a b => a.start + a.size ≤ b.start)) :
    (freePageList blocks).Nodup := by
  apply List.nodup_flatMap.mpr
  refine ⟨fun block _ => List.nodup_range', ordered.imp ?_⟩
  intro a b before p first second
  rw [List.mem_range'_1] at first second
  omega

/-- `nr_free` counts the pages that came to the free ones. -/
theorem Listed.grown (listed : Listed lo n area blocks) (after : Listed lo n area' blocks')
    (outside : ∀ p, base ≤ p → p < base + k → ¬ Covered blocks p)
    (covered : ∀ p, Covered blocks' p ↔ Covered blocks p ∨ base ≤ p ∧ p < base + k) : area'.nrFree = area.nrFree + k := by
  have distinct : (freePageList blocks ++ List.range' base k).Nodup := by
    refine List.nodup_append.mpr ⟨freePageList_nodup listed.ordered, List.nodup_range', ?_⟩
    rintro p free q added rfl
    rw [List.mem_range'_1] at added
    exact outside p added.1 added.2 (mem_freePageList.mp free)
  have same : (freePageList blocks').Perm (freePageList blocks ++ List.range' base k) := by
    apply (List.perm_ext_iff_of_nodup (freePageList_nodup after.ordered) distinct).mpr
    intro p
    rw [mem_freePageList, covered, List.mem_append, mem_freePageList, List.mem_range'_1]
  have length := same.length_eq
  rw [List.length_append, List.length_range', freePageList_length, freePageList_length] at length
  rw [listed.total, after.total]
  exact length

/-- Behind the last block the search inserts the new block twice: the second time behind
itself. -/
theorem insertLoop_tail {fuel : Nat} {le : Link} {last : Block}
    (segment : area.link.Segment le ((front ++ [last]).map Block.link) .freeList)
    (before : ∀ block ∈ front ++ [last], block.start < base) (enough : front.length + 2 < fuel) :
    insertLoop base fuel le area = .ok (area.onLinks fun links =>
      listAdd (.pageLink base) (.pageLink base) (listAdd last.link (.pageLink base) links)) := by
  induction front generalizing le fuel with
  | nil =>
    obtain ⟨fuel, rfl⟩ : ∃ fuel', fuel = fuel' + 3 := ⟨fuel - 3, by simp only [List.length_nil] at enough; omega⟩
    have lower := before last (by simp)
    have away : last.start ≠ base := by omega
    have next : area.link.next le = .pageLink last.start := segment.1.1
    have final : area.link.next (.pageLink last.start) = .freeList := segment.2.1
    simp [insertLoop, next, final, Nat.not_lt.mpr (Nat.le_of_lt lower), FreeArea.onLinks, listAdd, listAddAfter,
      listAddInternal, Links.setNext, Links.setPrev, Block.link, away]
  | cons other front ih =>
    cases fuel with
    | zero => simp at enough
    | succ fuel =>
      have next : area.link.next le = .pageLink other.start := segment.1.1
      have later : area.link.next (.pageLink other.start) ≠ .freeList := by
        have successor := Links.Segment.next_eq segment.2
        rw [Block.link] at successor
        rw [successor]
        cases front <;> simp [Block.link]
      have lower := before other (by simp)
      have shorter : front.length + 2 < fuel := by
        rw [List.length_cons] at enough
        omega
      have rest := ih segment.2 (fun block member => before block (List.mem_cons_of_mem _ member)) shorter
      simp only [insertLoop, next, later, Nat.not_lt.mpr (Nat.le_of_lt lower), if_false]
      exact rest

theorem Listed.not_self (listed : Listed lo n area blocks) (low : lo ≤ base) (high : base < lo + n)
    (head : (area.page base).flags.property = true) (prev : area.link.prev (.pageLink base) = .pageLink base) : False := by
  obtain ⟨block, member, same⟩ := List.mem_map.mp ((listed.heads base low high).mp head)
  obtain ⟨front, back, rfl⟩ := List.append_of_mem member
  have ring := listed.ring
  rw [List.map_append, List.map_cons] at ring
  have before := ring.prev_node
  rw [Block.link, same, prev] at before
  have distinct := ring.distinct
  rw [Block.link, same] at distinct
  rcases List.eq_nil_or_concat (front.map Block.link) with empty | ⟨others, other, split⟩
  · rw [empty, List.getLastD_nil] at before
    cases before
  · rw [split, List.concat_eq_append, List.getLastD_concat] at before
    rw [split, ← before, List.concat_eq_append, List.append_assoc] at distinct
    have twice := (List.nodup_append.mp (List.nodup_cons.mp distinct).2).2.1
    exact (List.nodup_cons.mp twice).1 List.mem_cons_self

/-- A block that comes behind the last one becomes its own predecessor. -/
theorem insertBlock_tail (listed : Listed lo n area blocks) (link : marked.link = area.link) (npage : marked.npage = area.npage)
    (outside : ¬ Covered blocks base) (above : ¬ BelowTail area base) :
    ∃ link, insertBlock base marked = .ok { marked with link } ∧ link.prev (.pageLink base) = .pageLink base ∧
      link.next (.pageLink base) = .freeList := by
  have tail := listed.ring.prev_head
  rcases List.eq_nil_or_concat blocks with rfl | ⟨front, last, rfl⟩
  · rw [List.map_nil, List.getLastD_nil] at tail
    simp only [BelowTail, tail, not_true] at above
  rw [List.concat_eq_append] at *
  rw [List.map_append, List.map_singleton, List.getLastD_concat, Block.link] at tail
  simp only [BelowTail, tail, not_lt] at above
  have before : ∀ block ∈ front ++ [last], block.start < base := by
    have ordered := List.pairwise_append.mp listed.ordered
    have size := listed.sized last (by simp)
    have away : last.start ≠ base := fun same => outside ⟨last, by simp, by omega, by omega⟩
    intro block member
    rcases List.mem_append.mp member with first | final
    · have order := ordered.2.2 block first last List.mem_cons_self
      omega
    · rw [List.mem_singleton.mp final]
      omega
  have enough : front.length + 2 < marked.fuel := by
    have length := listed.length_le
    have fits := listed.fits
    rw [List.length_append, List.length_singleton] at length
    rw [FreeArea.fuel, npage]
    omega
  have ring := listed.ring
  rw [← link] at ring
  have occupied : listEmpty .freeList marked.link = false := by
    rw [← Bool.not_eq_true, listEmpty_iff ring]
    simp
  have final : marked.link.next last.link = .freeList := by
    rw [List.map_append] at ring
    exact ring.next_node
  have away : last.start ≠ base := (before last (by simp)).ne
  refine ⟨_, by rw [insertBlock, occupied, if_neg Bool.false_ne_true, insertLoop_tail ring.closed before enough]; rfl, ?_, ?_⟩
  · simp [listAdd, listAddAfter, listAddInternal, Links.setPrev]
  · simp [listAdd, listAddAfter, listAddInternal, Links.setPrev, Links.setNext, final]

/-- The call ends in a well-formed list whose free pages are the old ones and the range. -/
def Adds (call : Nat → Nat → FreeArea → Kern FreeArea) (lo n base k : Nat) (area : FreeArea) (blocks : List Block) : Prop :=
  ∃ area' blocks', call base k area = .ok area' ∧ WellFormed lo n area' blocks' ∧
    ∀ p, Covered blocks' p ↔ Covered blocks p ∨ base ≤ p ∧ p < base + k

/-- `default_free_pages` keeps the list well formed below the last block only. -/
theorem adds_freed (formed : WellFormed lo n area blocks) (nonempty : 0 < k) (low : lo ≤ base) (high : base + k ≤ lo + n)
    (outside : ∀ p, base ≤ p → p < base + k → ¬ Covered blocks p)
    (plain : ∀ p, base ≤ p → p < base + k → (area.page p).flags.reserved = false) :
    Adds defaultFreePages lo n base k area blocks ↔ area.nrFree + k < 2 ^ 32 ∧ BelowTail area base := by
  constructor
  · rintro ⟨area', blocks', result, after, covered⟩
    have small : area.nrFree + k < 2 ^ 32 := by
      rw [← formed.toListed.grown after.toListed outside covered]
      exact after.word
    refine ⟨small, ?_⟩
    by_contra above
    have mark : Marked area (freed area base k) base k := freed_marked nonempty (by omega)
    obtain ⟨link, inserted, prev, next⟩ := insertBlock_tail formed.toListed mark.link mark.npage
      (outside base (Nat.le_refl _) (by omega)) above
    rw [defaultFreePages_eq formed.toListed nonempty low high plain outside, inserted, ok_bind] at result
    have same : base + ((freed area base k).page base).property ≠ base := by
      rw [mark.head.1]
      omega
    simp only [mergePrev, mergeNext, prev, next, same, if_false] at result
    cases result
    exact after.not_self low (by omega) mark.head.2 prev
  · rintro ⟨small, below⟩
    obtain ⟨area', blocks', result, after, -, covered⟩ := defaultFreePages_spec formed small nonempty low high plain outside below
    exact ⟨area', blocks', result, after, covered⟩

/-- The range is marked, in `default_init_memmap` behind its loop. -/
def fresh (area : FreeArea) (base k : Nat) : FreeArea :=
  { (({ area with page := fun p => if base ≤ p ∧ p < base + k then ⟨0, {}, 0⟩ else area.page p }).setProperty
      base k).setPageProperty base true with
    nrFree := uint (area.nrFree + k) }

theorem fresh_marked (nonempty : 0 < k) (small : k < 2 ^ 32) : Marked area (fresh area base k) base k := by
  refine ⟨?_, ?_, ?_, rfl, rfl, rfl⟩
  · simp [fresh, FreeArea.setPageProperty, FreeArea.setProperty, FreeArea.setPage, uint]
    omega
  · intro p first last
    have away : p ≠ base := by omega
    simp [fresh, FreeArea.setPageProperty, FreeArea.setProperty, FreeArea.setPage, Function.update_of_ne away,
      Nat.le_of_lt first, last]
  · intro p outer
    have away : p ≠ base := by omega
    simp only [fresh, FreeArea.setPageProperty, FreeArea.setProperty, FreeArea.setPage, Function.update_of_ne away]
    rw [if_neg (by omega)]

theorem defaultInitMemmap_eq (nonempty : 0 < k)
    (reserved : ∀ p, base ≤ p → p < base + k → (area.page p).flags.reserved = true) :
    defaultInitMemmap base k area = insertBlock base (fresh area base k) := by
  simp only [defaultInitMemmap, nonempty, decide_true, assert_true, ok_bind, initMemmapLoop_spec reserved]
  rfl

/-- `default_init_memmap` does not merge, so the range must not touch a block either. -/
theorem adds_fresh (formed : WellFormed lo n area blocks) (nonempty : 0 < k) (low : lo ≤ base) (high : base + k ≤ lo + n)
    (outside : ∀ p, base ≤ p → p < base + k → ¬ Covered blocks p)
    (reserved : ∀ p, base ≤ p → p < base + k → (area.page p).flags.reserved = true) :
    Adds defaultInitMemmap lo n base k area blocks ↔ area.nrFree + k < 2 ^ 32 ∧ BelowTail area base ∧
      ∀ block ∈ blocks, block.start + block.size ≠ base ∧ base + k ≠ block.start := by
  constructor
  · rintro ⟨area', blocks', result, after, covered⟩
    have small : area.nrFree + k < 2 ^ 32 := by
      rw [← formed.toListed.grown after.toListed outside covered]
      exact after.word
    have mark : Marked area (fresh area base k) base k := fresh_marked nonempty (by omega)
    rw [defaultInitMemmap_eq nonempty reserved] at result
    refine ⟨small, ?_, ?_⟩
    · by_contra above
      obtain ⟨link, inserted, prev, -⟩ := insertBlock_tail formed.toListed mark.link mark.npage
        (outside base (Nat.le_refl _) (by omega)) above
      rw [inserted] at result
      cases result
      exact after.not_self low (by omega) mark.head.2 prev
    · obtain ⟨link, rfl⟩ := insertBlock_links result
      have listed : ∀ p, lo ≤ p → p < lo + n → ((fresh area base k).page p).flags.property = true →
          ∃ block ∈ blocks', block.start = p ∧ block.size = ((fresh area base k).page p).property := by
        intro p first last flagged
        obtain ⟨block, member, rfl⟩ := List.mem_map.mp ((after.heads p first last).mp flagged)
        exact ⟨block, member, rfl, (after.sized block member).1.symm⟩
      obtain ⟨added, addedIn, start, size⟩ := listed base low (by omega) mark.head.2
      rw [mark.head.1] at size
      intro block member
      have range := formed.inside block member
      have positive := (formed.sized block member).2
      have outer : block.start < base ∨ base + k ≤ block.start := by
        by_contra inside
        exact outside block.start (by omega) (by omega) ⟨block, member, Nat.le_refl _, by omega⟩
      have kept := mark.outer block.start outer
      have flagged : ((fresh area base k).page block.start).flags.property = true := by
        rw [kept, formed.heads block.start range.1 (by omega)]
        exact List.mem_map_of_mem member
      obtain ⟨old, oldIn, start', size'⟩ := listed block.start range.1 (by omega) flagged
      rw [kept, (formed.sized block member).1] at size'
      have away : old ≠ added := by
        intro same
        rw [same, start] at start'
        omega
      rcases apart_cases after.apart old oldIn added addedIn with same | before | behind
      · exact absurd same away
      · omega
      · omega
  · rintro ⟨small, below, detached⟩
    obtain ⟨front, back, rfl, before, after⟩ := split_range nonempty formed.ordered
      (fun block member => (formed.sized block member).2) outside
    have lower : ∀ block ∈ front, block.start < base := by
      intro block member
      have size := (formed.sized block (by simp [member])).2
      have bound := before block member
      omega
    obtain ⟨link, inserted, listed⟩ := formed.toListed.insert (fresh_marked nonempty (by omega)) small nonempty low high
      before after (below_place formed.ring lower below)
    refine ⟨_, _, by rw [defaultInitMemmap_eq nonempty reserved, inserted], ⟨listed, ?_⟩, ?_⟩
    · have apart := List.pairwise_append.mp formed.apart
      refine List.pairwise_append.mpr ⟨apart.1, List.pairwise_cons.mpr ⟨?_, apart.2.1⟩, ?_⟩
      · intro block member
        have bound := after block member
        have free := (detached block (by simp [member])).2
        simp only
        omega
      · intro first inFront second inBack
        rcases List.mem_cons.mp inBack with rfl | inBack
        · have bound := before first inFront
          have free := (detached first (by simp [inFront])).1
          simp only
          omega
        · exact apart.2.2 first inFront second inBack
    · intro p
      rw [covered_append, covered_cons, covered_append]
      simp only [Block.Covers]
      tauto

/-- The free list stays well formed exactly when the range is below the last block, or the
list is empty, and the counter does not overflow; `default_init_memmap` also needs
the range to be apart from the blocks. -/
theorem free_list_kept (formed : WellFormed lo n area blocks) (nonempty : 0 < k) (low : lo ≤ base) (high : base + k ≤ lo + n)
    (outside : ∀ p, base ≤ p → p < base + k → ¬ Covered blocks p) :
    ((∀ p, base ≤ p → p < base + k → (area.page p).flags.reserved = false) →
      (Adds defaultFreePages lo n base k area blocks ↔ area.nrFree + k < 2 ^ 32 ∧ BelowTail area base)) ∧
    ((∀ p, base ≤ p → p < base + k → (area.page p).flags.reserved = true) →
      (Adds defaultInitMemmap lo n base k area blocks ↔ area.nrFree + k < 2 ^ 32 ∧ BelowTail area base ∧
        ∀ block ∈ blocks, block.start + block.size ≠ base ∧ base + k ≠ block.start)) :=
  ⟨fun plain => adds_freed formed nonempty low high outside plain,
    fun reserved => adds_fresh formed nonempty low high outside reserved⟩

theorem free_list_kept_five :
    ((∀ p, 2 ≤ p → p < 2 + 3 → (oneFree.page p).flags.reserved = false) →
      (Adds defaultFreePages 0 5 2 3 oneFree [⟨0, 1⟩] ↔ oneFree.nrFree + 3 < 2 ^ 32 ∧ BelowTail oneFree 2)) ∧
    ((∀ p, 2 ≤ p → p < 2 + 3 → (oneFree.page p).flags.reserved = true) →
      (Adds defaultInitMemmap 0 5 2 3 oneFree [⟨0, 1⟩] ↔ oneFree.nrFree + 3 < 2 ^ 32 ∧ BelowTail oneFree 2 ∧
        ∀ block ∈ [Block.mk 0 1], block.start + block.size ≠ 2 ∧ 2 + 3 ≠ block.start)) :=
  free_list_kept oneFree_formed (by decide) (by decide) (by decide) (fun p low _ => oneFree_outside p low)

/-- Freeing the pages 2 to 4 behind the block at page 0 breaks the list. -/
theorem free_list_broken : ¬ ∀ (lo n : Nat) (area : FreeArea) (blocks : List Block) (base k : Nat), WellFormed lo n area blocks →
    0 < k → lo ≤ base → base + k ≤ lo + n → (∀ p, base ≤ p → p < base + k → ¬ Covered blocks p) →
    (∀ p, base ≤ p → p < base + k → (area.page p).flags.reserved = false) →
    Adds defaultFreePages lo n base k area blocks := by
  intro claim
  have plain : ∀ p, 2 ≤ p → p < 2 + 3 → (oneFree.page p).flags.reserved = false := by
    intro p low _
    have away : p ≠ 0 := by omega
    simp [oneFree, away]
  have outside : ∀ p, 2 ≤ p → p < 2 + 3 → ¬ Covered [⟨0, 1⟩] p := fun p low _ => oneFree_outside p low
  have adds := claim 0 5 oneFree [⟨0, 1⟩] 2 3 oneFree_formed (by decide) (by decide) (by decide) outside plain
  have below := ((adds_freed oneFree_formed (by decide) (by decide) (by decide) outside plain).mp adds).2
  exact absurd below (show ¬ 2 < 0 by decide)

end Ucore.PageAllocator
