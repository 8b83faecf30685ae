import Ucore.PageAllocator

/-! The free list as a list of blocks. Each operation is specified against the
blocks it starts from: which block an allocation cuts, and where a freed range
is inserted and merged. -/

namespace Ucore.PageAllocator
open Lib

structure Block where
  start : Nat
  size : Nat

namespace Block

def link (block : Block) : Link := .pageLink block.start

def Covers (block : Block) (p : Nat) : Prop := block.start ≤ p ∧ p < block.start + block.size

end Block

/-- The pages of the blocks: the free pages. -/
def Covered (blocks : List Block) (p : Nat) : Prop := ∃ block ∈ blocks, block.Covers p

/-- The pages `lo ≤ p < lo + n` are managed, `blocks` are on the list in address
order and disjoint, and the page structures agree with them. `nr_free` is an
`unsigned int`. -/
structure Listed (lo n : Nat) (area : FreeArea) (blocks : List Block) : Prop where
  ring : area.link.Ring .freeList (blocks.map Block.link)
  sized : ∀ block ∈ blocks, (area.page block.start).property = block.size ∧ 0 < block.size
  ordered : blocks.Pairwise (fun a b => a.start + a.size ≤ b.start)
  inside : ∀ block ∈ blocks, lo ≤ block.start ∧ block.start + block.size ≤ lo + n
  heads : ∀ p, lo ≤ p → p < lo + n →
    ((area.page p).flags.property = true ↔ p ∈ blocks.map Block.start)
  total : area.nrFree = (blocks.map Block.size).sum
  word : area.nrFree < 2 ^ 32
  fits : lo + n ≤ area.npage

/-- A well-formed free list also has no two blocks that touch. -/
structure WellFormed (lo n : Nat) (area : FreeArea) (blocks : List Block) : Prop
    extends Listed lo n area blocks where
  apart : blocks.Pairwise (fun a b => a.start + a.size < b.start)

/-- The list is empty, or `base` is below the last block on it. -/
def BelowTail (area : FreeArea) (base : Nat) : Prop :=
  match area.link.prev .freeList with
  | .freeList => True
  | .pageLink p => base < p

section Lists

variable {lo n : Nat} {area : FreeArea} {blocks front back : List Block}

private theorem sum_le (ordered : blocks.Pairwise (fun a b => a.start + a.size ≤ b.start))
    (inside : ∀ block ∈ blocks, lo ≤ block.start ∧ block.start + block.size ≤ lo + n) :
    (blocks.map Block.size).sum ≤ n := by
  induction blocks generalizing lo n with
  | nil => simp
  | cons block blocks ih =>
    have first := inside block (by simp)
    simp only [List.pairwise_cons] at ordered
    have bounds : ∀ other ∈ blocks, block.start + block.size ≤ other.start ∧
        other.start + other.size ≤ block.start + block.size + (lo + n - (block.start + block.size)) := by
      intro other member
      have bound := inside other (by simp [member])
      have later := ordered.1 other member
      omega
    have rest := ih ordered.2 bounds
    simp only [List.map_cons, List.sum_cons]
    omega

private theorem length_le_sum (sized : ∀ block ∈ blocks, 0 < block.size) :
    blocks.length ≤ (blocks.map Block.size).sum := by
  induction blocks with
  | nil => simp
  | cons block blocks ih =>
    have first := sized block (by simp)
    have rest := ih (fun other member => sized other (by simp [member]))
    simp only [List.map_cons, List.sum_cons, List.length_cons]
    omega

theorem Listed.sum_le (listed : Listed lo n area blocks) : (blocks.map Block.size).sum ≤ n :=
  PageAllocator.sum_le listed.ordered listed.inside

theorem Listed.length_le (listed : Listed lo n area blocks) : blocks.length ≤ n :=
  (length_le_sum fun block member => (listed.sized block member).2).trans listed.sum_le

theorem Listed.length_lt (listed : Listed lo n area blocks) : blocks.length < area.fuel := by
  have bound := listed.length_le
  have fits := listed.fits
  simp only [FreeArea.fuel]
  omega

/-- A range of pages outside every block splits the list at its place. -/
theorem split_range {base k : Nat} (nonempty : 0 < k)
    (ordered : blocks.Pairwise (fun a b => a.start + a.size ≤ b.start))
    (sized : ∀ block ∈ blocks, 0 < block.size)
    (outside : ∀ p, base ≤ p → p < base + k → ¬ Covered blocks p) :
    ∃ front back, blocks = front ++ back ∧ (∀ block ∈ front, block.start + block.size ≤ base) ∧
      ∀ block ∈ back, base + k ≤ block.start := by
  induction blocks with
  | nil => exact ⟨[], [], by simp⟩
  | cons block blocks ih =>
    simp only [List.pairwise_cons] at ordered
    have positive := sized block (by simp)
    have apart : ∀ p, base ≤ p → p < base + k → ¬ block.Covers p :=
      fun p low high covers => outside p low high ⟨block, by simp, covers⟩
    by_cases lower : block.start < base
    · obtain ⟨front, back, rfl, before, after⟩ := ih ordered.2
        (fun other member => sized other (by simp [member]))
        (fun p low high ⟨other, member, covers⟩ => outside p low high ⟨other, by simp [member], covers⟩)
      refine ⟨block :: front, back, by simp, ?_, after⟩
      intro other member
      rcases List.mem_cons.mp member with rfl | member
      · have free := apart base (Nat.le_refl _) (by omega)
        simp only [Block.Covers] at free
        omega
      · exact before other member
    · refine ⟨[], block :: blocks, by simp, by simp, ?_⟩
      have start : base + k ≤ block.start := by
        by_contra touching
        exact apart block.start (by omega) (by omega) ⟨Nat.le_refl _, by omega⟩
      intro other member
      rcases List.mem_cons.mp member with rfl | member
      · exact start
      · have later := ordered.1 other member
        omega

theorem covered_append {p : Nat} :
    Covered (front ++ back) p ↔ Covered front p ∨ Covered back p := by
  simp only [Covered, List.mem_append, or_and_right, exists_or]

theorem covered_cons {block : Block} {p : Nat} :
    Covered (block :: blocks) p ↔ block.Covers p ∨ Covered blocks p := by
  simp [Covered]

end Lists

section Scans

variable {area : FreeArea} {blocks front back : List Block}

theorem findFit_spec {n fuel : Nat} {le : Link}
    (segment : area.link.Segment le (blocks.map Block.link) .freeList)
    (sized : ∀ block ∈ blocks, (area.page block.start).property = block.size)
    (enough : blocks.length < fuel) :
    findFit n fuel le area = .ok ((blocks.find? (n ≤ ·.size)).map Block.start) := by
  induction blocks generalizing le fuel with
  | nil =>
    obtain ⟨fuel, rfl⟩ := Nat.exists_eq_add_of_lt enough
    have next : area.link.next le = .freeList := segment.1
    simp [findFit, next]
  | cons block blocks ih =>
    cases fuel with
    | zero => simp at enough
    | succ fuel =>
      have next : area.link.next le = .pageLink block.start := segment.1.1
      have size := sized block (by simp)
      by_cases fit : n ≤ block.size
      · simp [findFit, next, size, fit]
      · have rest := ih segment.2 (fun other member => sized other (by simp [member]))
          (Nat.lt_of_succ_lt_succ enough)
        simp only [findFit, next, size, fit, if_false, List.find?_cons, decide_false]
        exact rest

/-- Below the last block the search stops at the first block above `base`. -/
theorem insertLoop_spec {base fuel : Nat} {le : Link} {block : Block}
    (segment : area.link.Segment le ((front ++ block :: back).map Block.link) .freeList)
    (before : ∀ other ∈ front, other.start < base) (above : base < block.start)
    (enough : front.length < fuel) :
    insertLoop base fuel le area =
      .ok (area.onLinks (listAddBefore block.link (.pageLink base))) := by
  induction front generalizing le fuel with
  | nil =>
    obtain ⟨fuel, rfl⟩ := Nat.exists_eq_add_of_lt enough
    have next : area.link.next le = .pageLink block.start := segment.1.1
    simp [insertLoop, next, above, Block.link]
  | cons other front ih =>
    cases fuel with
    | zero => simp at enough
    | succ fuel =>
      have next : area.link.next le = .pageLink other.start := segment.1.1
      have later : area.link.next (.pageLink other.start) ≠ .freeList := by
        have successor := Links.Segment.next_eq segment.2
        rw [Block.link] at successor
        rw [successor]
        cases front <;> simp [Block.link]
      have lower := before other (by simp)
      have rest := ih segment.2 (fun o member => before o (by simp [member]))
        (Nat.lt_of_succ_lt_succ enough)
      simp only [insertLoop, next, later, Nat.not_lt.mpr (Nat.le_of_lt lower), if_false]
      exact rest

end Scans

section Frames

variable {area area' : FreeArea} {p base : Nat}

theorem insertLoop_links {fuel : Nat} {le : Link} (inserted : insertLoop base fuel le area = .ok area') :
    ∃ link, area' = { area with link } := by
  induction fuel generalizing le area with
  | zero => cases inserted
  | succ fuel ih =>
    rw [insertLoop] at inserted
    split at inserted
    next =>
      cases inserted
      exact ⟨_, rfl⟩
    next page _ =>
      split at inserted
      · cases inserted
        exact ⟨_, rfl⟩
      · split at inserted
        · obtain ⟨link, same⟩ := ih inserted
          exact ⟨link, same⟩
        · exact ih inserted

theorem insertBlock_links (inserted : insertBlock base area = .ok area') : ∃ link, area' = { area with link } := by
  rw [insertBlock] at inserted
  split at inserted
  · cases inserted
    exact ⟨_, rfl⟩
  · exact insertLoop_links inserted

@[simp] theorem setProperty_flags (area : FreeArea) (q k : Nat) : ((area.setProperty q k).page p).flags = (area.page p).flags := by
  simp only [FreeArea.setProperty, FreeArea.setPage, Function.update_apply]
  split
  next same => rw [same]
  next => rfl

@[simp] theorem setPageProperty_reserved (area : FreeArea) (q : Nat) (value : Bool) :
    ((area.setPageProperty q value).page p).flags.reserved = (area.page p).flags.reserved := by
  simp only [FreeArea.setPageProperty, FreeArea.setPage, Function.update_apply]
  split
  next same => rw [same]
  next => rfl

@[simp] theorem onLinks_page (area : FreeArea) (edit : Links Link → Links Link) : (area.onLinks edit).page = area.page := rfl

@[simp] theorem absorb_reserved (low high : Nat) (area : FreeArea) :
    ((absorb low high area).page p).flags.reserved = (area.page p).flags.reserved := by
  simp only [absorb, onLinks_page, setPageProperty_reserved, setProperty_flags]

@[simp] theorem mergePrev_reserved (base : Nat) (area : FreeArea) :
    ((mergePrev base area).2.page p).flags.reserved = (area.page p).flags.reserved := by
  rw [mergePrev]
  split
  next => rfl
  next =>
    split
    · exact absorb_reserved _ _ _
    · rfl

@[simp] theorem mergeNext_reserved (base : Nat) (area : FreeArea) :
    ((mergeNext base area).page p).flags.reserved = (area.page p).flags.reserved := by
  rw [mergeNext]
  split
  next => rfl
  next =>
    split
    · exact absorb_reserved _ _ _
    · rfl

theorem takePages_reserved (page n : Nat) (area : FreeArea) :
    ((takePages page n area).page p).flags.reserved = (area.page p).flags.reserved := by
  simp only [takePages, setPageProperty_reserved]
  split <;> simp only [onLinks_page, setPageProperty_reserved, setProperty_flags]

end Frames

section Free

variable {lo n : Nat} {area : FreeArea} {blocks front back : List Block}

/-- The loop of `default_free_pages` clears the flags and the reference counts of the range. -/
def cleared (area : FreeArea) (base k : Nat) (p : Nat) : Page :=
  if base ≤ p ∧ p < base + k then ⟨0, {}, (area.page p).property⟩ else area.page p

theorem freePagesLoop_spec {base k : Nat}
    (plain : ∀ p, base ≤ p → p < base + k →
      (area.page p).flags.reserved = false ∧ (area.page p).flags.property = false) :
    freePagesLoop base k area = .ok { area with page := cleared area base k } := by
  induction k generalizing base area with
  | zero =>
    have same : cleared area base 0 = area.page := by
      funext p
      rw [cleared, if_neg (by omega)]
    rw [same]
    rfl
  | succ k ih =>
    obtain ⟨reserved, property⟩ := plain base (Nat.le_refl _) (by omega)
    simp only [freePagesLoop, reserved, property, Bool.not_false, Bool.and_self, assert_true, ok_bind]
    rw [ih]
    · simp only [FreeArea.setPage]
      congr 2
      funext p
      simp only [cleared]
      by_cases first : p = base
      · subst first
        simp
      · simp only [Function.update_of_ne first]
        have range : (base + 1 ≤ p ∧ p < base + 1 + k) = (base ≤ p ∧ p < base + (k + 1)) :=
          propext (by omega)
        simp only [range]
    · intro p low high
      have away : p ≠ base := by omega
      simpa only [FreeArea.setPage, Function.update_of_ne away] using plain p (by omega) (by omega)

/-- Insertion keeps the ring, at the place the address order gives. -/
theorem insertBlock_spec (area : FreeArea) (base k : Nat)
    (ring : area.link.Ring .freeList ((front ++ back).map Block.link))
    (before : ∀ block ∈ front, block.start < base) (after : ∀ block ∈ back, base < block.start)
    (below : front = [] ∨ back ≠ []) (enough : (front ++ back).length < area.fuel) :
    ∃ link, insertBlock base area = .ok { area with link } ∧
      link.Ring .freeList ((front ++ ⟨base, k⟩ :: back).map Block.link) := by
  have fresh : Link.pageLink base ∉ .freeList :: (front ++ back).map Block.link := by
    intro member
    simp only [List.mem_cons, reduceCtorEq, List.mem_map, Block.link, Link.pageLink.injEq, false_or,
      List.mem_append] at member
    obtain ⟨block, inFront | inBack, same⟩ := member
    · exact absurd (before block inFront) (by omega)
    · exact absurd (after block inBack) (by omega)
  cases back with
  | nil =>
    obtain rfl : front = [] := by simpa using below
    refine ⟨listAdd .freeList (.pageLink base) area.link, ?_, ?_⟩
    · have empty := (listEmpty_iff ring).mpr rfl
      simp only [insertBlock, empty, if_true, FreeArea.onLinks]
    · exact listAdd_head ring fresh
  | cons block back =>
    have occupied : listEmpty .freeList area.link = false := by
      rw [← Bool.not_eq_true, listEmpty_iff ring]
      simp
    refine ⟨listAddBefore block.link (.pageLink base) area.link, ?_, ?_⟩
    · rw [insertBlock, occupied]
      simp only [Bool.false_eq_true, if_false]
      apply insertLoop_spec ring.closed before (after block (by simp))
      simp only [List.length_append, List.length_cons] at enough
      omega
    · simp only [List.map_append, List.map_cons] at ring fresh ⊢
      exact listAddBefore_node ring fresh

theorem Listed.not_head {p : Nat} (listed : Listed lo n area blocks) (first : lo ≤ p) (last : p < lo + n)
    (outside : ¬ Covered blocks p) : (area.page p).flags.property = false := by
  rw [← Bool.not_eq_true, listed.heads p first last]
  intro member
  obtain ⟨block, inside, rfl⟩ := List.mem_map.mp member
  have size := (listed.sized block inside).2
  exact outside ⟨block, inside, Nat.le_refl _, by omega⟩

/-- The page structures with the range from `base` on as a block of its own, and the
other pages as they were. -/
structure Marked (area marked : FreeArea) (base k : Nat) : Prop where
  head : (marked.page base).property = k ∧ (marked.page base).flags.property = true
  inner : ∀ p, base < p → p < base + k → (marked.page p).flags.property = false
  outer : ∀ p, p < base ∨ base + k ≤ p → marked.page p = area.page p
  link : marked.link = area.link
  npage : marked.npage = area.npage
  nrFree : marked.nrFree = uint (area.nrFree + k)

/-- A range that is marked comes into the list as a block, which may still touch its
neighbours. -/
theorem Listed.insert {base k : Nat} {marked : FreeArea} (listed : Listed lo n area (front ++ back))
    (mark : Marked area marked base k) (small : area.nrFree + k < 2 ^ 32)
    (nonempty : 0 < k) (low : lo ≤ base) (high : base + k ≤ lo + n)
    (before : ∀ block ∈ front, block.start + block.size ≤ base)
    (after : ∀ block ∈ back, base + k ≤ block.start) (below : front = [] ∨ back ≠ []) :
    ∃ link, insertBlock base marked = .ok { marked with link } ∧
      Listed lo n { marked with link } (front ++ ⟨base, k⟩ :: back) := by
  have ordered : (front ++ ⟨base, k⟩ :: back).Pairwise (fun a b => a.start + a.size ≤ b.start) := by
    have old := List.pairwise_append.mp listed.ordered
    refine List.pairwise_append.mpr ⟨old.1, List.pairwise_cons.mpr ⟨after, old.2.1⟩, ?_⟩
    intro a inFront b inBack
    rcases List.mem_cons.mp inBack with rfl | inBack
    · exact before a inFront
    · exact old.2.2 a inFront b inBack
  have inside : ∀ block ∈ front ++ ⟨base, k⟩ :: back,
      lo ≤ block.start ∧ block.start + block.size ≤ lo + n := by
    intro block member
    simp only [List.mem_append, List.mem_cons] at member
    rcases member with member | rfl | member
    · exact listed.inside block (by simp [member])
    · exact ⟨low, high⟩
    · exact listed.inside block (by simp [member])
  have total := listed.total
  simp only [List.map_append, List.sum_append] at total
  obtain ⟨link, inserted, ring⟩ := insertBlock_spec marked base k (by rw [mark.link]; exact listed.ring)
    (fun block member => by
      have size := (listed.sized block (by simp [member])).2
      have bound := before block member
      omega)
    (fun block member => by
      have bound := after block member
      omega) below (by
      have length := listed.length_lt
      rw [FreeArea.fuel] at length ⊢
      rw [mark.npage]
      exact length)
  have nrFree : marked.nrFree = area.nrFree + k := by
    rw [mark.nrFree, uint]
    omega
  refine ⟨link, inserted, ring, ?_, ordered, inside, ?_, ?_, ?_, ?_⟩
  · intro block member
    simp only [List.mem_append, List.mem_cons] at member
    rcases member with member | rfl | member
    · have bound := before block member
      have old := listed.sized block (by simp [member])
      rw [mark.outer _ (by omega)]
      exact old
    · exact ⟨mark.head.1, nonempty⟩
    · have bound := after block member
      rw [mark.outer _ (by omega)]
      exact listed.sized block (by simp [member])
  · intro p first last
    have old := listed.heads p first last
    simp only [List.map_append, List.map_cons, List.mem_append, List.mem_cons] at old ⊢
    by_cases outer : p < base ∨ base + k ≤ p
    · have away : p ≠ base := by omega
      rw [mark.outer p outer]
      simp only [away, false_or]
      exact old
    · by_cases same : p = base
      · simp [same, mark.head.2]
      · have absent : (area.page p).flags.property = false := by
          apply listed.not_head first last
          intro covered
          rcases covered_append.mp covered with ⟨block, member, covers⟩ | ⟨block, member, covers⟩
          · have bound := before block member
            have range := covers.2
            omega
          · have bound := after block member
            have range := covers.1
            omega
        rw [mark.inner p (by omega) (by omega)]
        simp only [same, false_or]
        rw [← old, absent]
  · simp only [List.map_append, List.map_cons, List.sum_append, List.sum_cons, nrFree, total]
    omega
  · show marked.nrFree < 2 ^ 32
    omega
  · show lo + n ≤ marked.npage
    rw [mark.npage]
    exact listed.fits

/-- The range is marked, in `default_free_pages` behind its loop. -/
def freed (area : FreeArea) (base k : Nat) : FreeArea :=
  { ({ area with page := cleared area base k }.setProperty base k).setPageProperty base true with
    nrFree := uint (area.nrFree + k) }

theorem freed_marked {base k : Nat} (nonempty : 0 < k) (small : k < 2 ^ 32) : Marked area (freed area base k) base k := by
  refine ⟨?_, ?_, ?_, rfl, rfl, rfl⟩
  · simp [freed, FreeArea.setPageProperty, FreeArea.setProperty, FreeArea.setPage, uint]
    omega
  · intro p first last
    have away : p ≠ base := by omega
    simp [freed, FreeArea.setPageProperty, FreeArea.setProperty, FreeArea.setPage, Function.update_of_ne away, cleared,
      Nat.le_of_lt first, last]
  · intro p outer
    have away : p ≠ base := by omega
    simp only [freed, FreeArea.setPageProperty, FreeArea.setProperty, FreeArea.setPage, Function.update_of_ne away, cleared]
    rw [if_neg (by omega)]

/-- `default_free_pages` for a range of allocated pages. -/
theorem defaultFreePages_eq {base k : Nat} (listed : Listed lo n area blocks) (nonempty : 0 < k)
    (low : lo ≤ base) (high : base + k ≤ lo + n)
    (plain : ∀ p, base ≤ p → p < base + k → (area.page p).flags.reserved = false)
    (outside : ∀ p, base ≤ p → p < base + k → ¬ Covered blocks p) :
    defaultFreePages base k area = (do
      let area ← insertBlock base (freed area base k)
      .ok (mergeNext (mergePrev base area).1 (mergePrev base area).2)) := by
  have loop := freePagesLoop_spec fun p first last =>
    ⟨plain p first last, listed.not_head (by omega) (by omega) (outside p first last)⟩
  simp only [defaultFreePages, nonempty, decide_true, assert_true, ok_bind, loop]
  rfl

/-- Freeing allocated pages marks none as reserved. -/
theorem defaultFreePages_reserved {area' : FreeArea} {base k p : Nat} (listed : Listed lo n area blocks) (nonempty : 0 < k)
    (low : lo ≤ base) (high : base + k ≤ lo + n)
    (plain : ∀ p, base ≤ p → p < base + k → (area.page p).flags.reserved = false)
    (outside : ∀ p, base ≤ p → p < base + k → ¬ Covered blocks p)
    (result : defaultFreePages base k area = .ok area') : (area'.page p).flags.reserved = (area.page p).flags.reserved := by
  rw [defaultFreePages_eq listed nonempty low high plain outside] at result
  obtain ⟨inserted, insertion, rest⟩ := bind_ok result
  obtain ⟨link, rfl⟩ := insertBlock_links insertion
  cases rest
  simp only [mergeNext_reserved, mergePrev_reserved, freed, setPageProperty_reserved, setProperty_flags, cleared]
  split
  next range => exact (plain p range.1 range.2).symm
  next => rfl

/-- Merging two blocks that touch. -/
theorem Listed.absorb {a b : Block} (listed : Listed lo n area (front ++ a :: b :: back))
    (touch : a.start + a.size = b.start) :
    Listed lo n (PageAllocator.absorb a.start b.start area)
      (front ++ ⟨a.start, a.size + b.size⟩ :: back) := by
  have word := listed.word
  have total := listed.total
  simp only [List.map_append, List.map_cons, List.sum_append, List.sum_cons] at total
  have sizeA := listed.sized a (by simp)
  have sizeB := listed.sized b (by simp)
  have ordered := List.pairwise_append.mp listed.ordered
  simp only [List.pairwise_cons, List.mem_cons, forall_eq_or_imp] at ordered
  have away : a.start ≠ b.start := by omega
  have property : ∀ p, ((PageAllocator.absorb a.start b.start area).page p).property =
      if p = a.start then a.size + b.size else (area.page p).property := by
    intro p
    simp only [PageAllocator.absorb, FreeArea.onLinks, FreeArea.setPageProperty, FreeArea.setProperty,
      FreeArea.setPage, Function.update_apply, sizeA.1, sizeB.1, uint]
    by_cases first : p = a.start
    · subst first
      simp only [away, if_false, if_true]
      omega
    · simp only [first, if_false]
      split
      next same => simp [same, Ne.symm away]
      next => rfl
  have flags : ∀ p, ((PageAllocator.absorb a.start b.start area).page p).flags =
      { (area.page p).flags with property := (area.page p).flags.property && p ≠ b.start } := by
    intro p
    simp only [PageAllocator.absorb, FreeArea.onLinks, FreeArea.setPageProperty, FreeArea.setProperty,
      FreeArea.setPage, Function.update_apply]
    by_cases second : p = b.start
    · subst second
      simp [Ne.symm away]
    · simp only [second, if_false]
      split
      next same => simp [same, away]
      next => simp [second]
  have distinct : ∀ other ∈ front ++ back, other.start ≠ a.start ∧ other.start ≠ b.start := by
    intro other member
    rcases List.mem_append.mp member with member | member
    · have size := (listed.sized other (by simp [member])).2
      have bound := ordered.2.2 other member
      omega
    · have bound := ordered.2.1.2.1 other member
      omega
  refine ⟨?_, ?_, ?_, ?_, ?_, ?_, listed.word, listed.fits⟩
  · have ring := listed.ring
    simp only [List.map_append, List.map_cons] at ring ⊢
    have removed := listDel_node (show area.link.Ring .freeList
      ((front.map Block.link ++ [a.link]) ++ b.link :: back.map Block.link) by simpa using ring)
    rw [List.append_assoc] at removed
    exact removed
  · intro block member
    simp only [property]
    simp only [List.mem_append, List.mem_cons] at member
    rcases member with member | rfl | member
    · rw [if_neg (distinct block (by simp [member])).1]
      exact listed.sized block (by simp [member])
    · exact ⟨if_pos rfl, by simp only; omega⟩
    · rw [if_neg (distinct block (by simp [member])).1]
      exact listed.sized block (by simp [member])
  · refine List.pairwise_append.mpr ⟨ordered.1, List.pairwise_cons.mpr ⟨?_, ordered.2.1.2.2⟩, ?_⟩
    · intro other member
      have bound := ordered.2.1.2.1 other member
      simp only
      omega
    · intro first inFront second inBack
      have bounds := ordered.2.2 first inFront
      rcases List.mem_cons.mp inBack with rfl | inBack
      · exact bounds.1
      · exact bounds.2.2 second inBack
  · intro block member
    simp only [List.mem_append, List.mem_cons] at member
    rcases member with member | rfl | member
    · exact listed.inside block (by simp [member])
    · have first := listed.inside a (by simp)
      have second := listed.inside b (by simp)
      simp only
      omega
    · exact listed.inside block (by simp [member])
  · intro p first last
    have old := listed.heads p first last
    simp only [flags, List.map_append, List.map_cons, List.mem_append, List.mem_cons, Bool.and_eq_true,
      decide_eq_true_eq] at old ⊢
    rw [old]
    constructor
    · rintro ⟨member, other⟩
      tauto
    · intro member
      refine ⟨by tauto, ?_⟩
      rintro rfl
      rcases member with member | same | member
      · obtain ⟨other, inFront, same⟩ := List.mem_map.mp member
        exact (distinct other (by simp [inFront])).2 same
      · exact away same.symm
      · obtain ⟨other, inBack, same⟩ := List.mem_map.mp member
        exact (distinct other (by simp [inBack])).2 same
  · simp only [PageAllocator.absorb, FreeArea.onLinks, FreeArea.setPageProperty, FreeArea.setProperty,
      FreeArea.setPage, List.map_append, List.map_cons, List.sum_append, List.sum_cons]
    omega

theorem covered_merge {a b : Block} {p : Nat} (touch : a.start + a.size = b.start) :
    Covered (front ++ ⟨a.start, a.size + b.size⟩ :: back) p ↔ Covered (front ++ a :: b :: back) p := by
  simp only [covered_append, covered_cons, Block.Covers]
  have split : (a.start ≤ p ∧ p < a.start + (a.size + b.size)) ↔
      (a.start ≤ p ∧ p < a.start + a.size) ∨ b.start ≤ p ∧ p < b.start + b.size := by omega
  rw [split]
  tauto

theorem mergePrev_spec {block : Block} (listed : Listed lo n area (front ++ block :: back))
    (apart : front.Pairwise (fun a b => a.start + a.size < b.start)) :
    ∃ front' block' area', mergePrev block.start area = (block'.start, area') ∧
      Listed lo n area' (front' ++ block' :: back) ∧ area'.nrFree = area.nrFree ∧
      (front' ++ [block']).Pairwise (fun a b => a.start + a.size < b.start) ∧
      ∀ p, Covered (front' ++ block' :: back) p ↔ Covered (front ++ block :: back) p := by
  have prev : area.link.prev (.pageLink block.start) = (front.map Block.link).getLastD .freeList := by
    have ring := listed.ring
    simp only [List.map_append, List.map_cons] at ring
    exact ring.prev_node
  rcases List.eq_nil_or_concat front with rfl | ⟨front, last, rfl⟩
  · simp only [List.map_nil, List.getLastD_nil] at prev
    exact ⟨[], block, area, by simp [mergePrev, prev], listed, rfl, by simp, fun p => Iff.rfl⟩
  · rw [List.concat_eq_append] at *
    rw [List.map_append, List.map_singleton, List.getLastD_concat, Block.link] at prev
    have size := (listed.sized last (by simp)).1
    rw [List.append_assoc, List.singleton_append] at listed
    by_cases touch : last.start + last.size = block.start
    · refine ⟨front, ⟨last.start, last.size + block.size⟩, PageAllocator.absorb last.start block.start area,
        by simp [mergePrev, prev, size, touch], listed.absorb touch, rfl, ?_, ?_⟩
      · rw [List.pairwise_append] at apart ⊢
        simpa using apart
      · intro p
        rw [covered_merge touch, List.append_assoc, List.singleton_append]
    · refine ⟨front ++ [last], block, area, by simp [mergePrev, prev, size, touch], ?_, rfl, ?_,
        fun p => Iff.rfl⟩
      · rw [List.append_assoc, List.singleton_append]
        exact listed
      · refine List.pairwise_append.mpr ⟨apart, by simp, ?_⟩
        intro a member b same
        obtain rfl := List.mem_singleton.mp same
        have ordered := List.pairwise_append.mp listed.ordered
        simp only [List.pairwise_cons, List.mem_cons, forall_eq_or_imp] at ordered
        rcases List.mem_append.mp member with member | same
        · have first := (ordered.2.2 a member).1
          have second := ordered.2.1.1.1
          have positive := (listed.sized last (by simp)).2
          omega
        · obtain rfl := List.mem_singleton.mp same
          have second := ordered.2.1.1.1
          omega

private theorem apart_join {block : Block}
    (before : (front ++ [block]).Pairwise (fun a b => a.start + a.size < b.start))
    (after : back.Pairwise (fun a b => a.start + a.size < b.start))
    (next : ∀ other ∈ back, block.start + block.size < other.start) :
    (front ++ block :: back).Pairwise (fun a b => a.start + a.size < b.start) := by
  have old := List.pairwise_append.mp before
  refine List.pairwise_append.mpr ⟨old.1, List.pairwise_cons.mpr ⟨next, after⟩, ?_⟩
  intro a inFront b inBack
  have bound := old.2.2 a inFront block (by simp)
  rcases List.mem_cons.mp inBack with rfl | inBack
  · exact bound
  · have later := next b inBack
    omega

theorem mergeNext_spec {block : Block} (listed : Listed lo n area (front ++ block :: back))
    (before : (front ++ [block]).Pairwise (fun a b => a.start + a.size < b.start))
    (after : back.Pairwise (fun a b => a.start + a.size < b.start)) :
    ∃ blocks, WellFormed lo n (mergeNext block.start area) blocks ∧
      (mergeNext block.start area).nrFree = area.nrFree ∧
      ∀ p, Covered blocks p ↔ Covered (front ++ block :: back) p := by
  have next : area.link.next (.pageLink block.start) = (back.map Block.link).headD .freeList := by
    have ring := listed.ring
    simp only [List.map_append, List.map_cons] at ring
    exact ring.next_node
  have size := (listed.sized block (by simp)).1
  cases back with
  | nil =>
    simp only [List.map_nil, List.headD_nil] at next
    simp only [mergeNext, next]
    exact ⟨_, ⟨listed, before⟩, trivial, fun p => Iff.rfl⟩
  | cons other back =>
    simp only [List.map_cons, List.headD_cons, Block.link] at next
    have ordered := (List.pairwise_append.mp listed.ordered).2.1
    simp only [List.pairwise_cons, List.mem_cons, forall_eq_or_imp] at ordered after
    by_cases touch : block.start + block.size = other.start
    · simp only [mergeNext, next, size, touch, if_true]
      refine ⟨_, ⟨listed.absorb touch, apart_join (by simpa [List.pairwise_append] using before)
        after.2 ?_⟩, rfl, fun p => covered_merge touch⟩
      intro later member
      have bound := after.1 later member
      simp only
      omega
    · simp only [mergeNext, next, size, touch, if_false]
      refine ⟨_, ⟨listed, apart_join before (List.pairwise_cons.mpr after) ?_⟩, trivial,
        fun p => Iff.rfl⟩
      intro later member
      have positive := (listed.sized other (by simp)).2
      rcases List.mem_cons.mp member with rfl | member
      · have bound := ordered.1.1
        omega
      · have first := ordered.1.1
        have bound := after.1 later member
        omega

theorem below_place {base : Nat} (ring : area.link.Ring .freeList ((front ++ back).map Block.link))
    (before : ∀ block ∈ front, block.start < base) (below : BelowTail area base) : front = [] ∨ back ≠ [] := by
  rcases List.eq_nil_or_concat front with same | ⟨front, last, rfl⟩
  · exact .inl same
  right
  rintro rfl
  have prev := ring.prev_head
  simp only [List.concat_eq_append, List.append_nil, List.map_append, List.map_singleton,
    List.getLastD_concat, Block.link] at prev
  simp only [BelowTail, prev] at below
  have bound := before last (by simp)
  omega

/-- Freeing a range of allocated pages below the tail of the list adds exactly
that range to the free pages. -/
theorem defaultFreePages_spec {base k : Nat} (formed : WellFormed lo n area blocks)
    (small : area.nrFree + k < 2 ^ 32) (nonempty : 0 < k) (low : lo ≤ base) (high : base + k ≤ lo + n)
    (plain : ∀ p, base ≤ p → p < base + k → (area.page p).flags.reserved = false)
    (outside : ∀ p, base ≤ p → p < base + k → ¬ Covered blocks p) (below : BelowTail area base) :
    ∃ area' blocks', defaultFreePages base k area = .ok area' ∧ WellFormed lo n area' blocks' ∧
      area'.nrFree = area.nrFree + k ∧
      ∀ p, Covered blocks' p ↔ Covered blocks p ∨ base ≤ p ∧ p < base + k := by
  obtain ⟨front, back, rfl, before, after⟩ := split_range nonempty formed.ordered
    (fun block member => (formed.sized block member).2) outside
  have lower : ∀ block ∈ front, block.start < base := by
    intro block member
    have size := (formed.sized block (by simp [member])).2
    have bound := before block member
    omega
  have apart := List.pairwise_append.mp formed.apart
  obtain ⟨link, insertion, listed⟩ := formed.toListed.insert (freed_marked nonempty (by omega)) small nonempty low high
    before after (below_place formed.ring lower below)
  obtain ⟨front', block, merged, first, listed, sameFree, strict, covered⟩ := mergePrev_spec listed apart.1
  obtain ⟨blocks', result, finalFree, finalCovered⟩ := mergeNext_spec listed strict apart.2.1
  refine ⟨_, blocks', ?_, result, ?_, ?_⟩
  · rw [defaultFreePages_eq formed.toListed nonempty low high plain outside, insertion, ok_bind, first]
  · rw [finalFree, sameFree]
    show uint (area.nrFree + k) = _
    rw [uint]
    omega
  · intro p
    rw [finalCovered, covered, covered_append, covered_cons, covered_append]
    simp only [Block.Covers]
    tauto

end Free

section Alloc

variable {lo n : Nat} {area : FreeArea} {blocks front back : List Block}

private theorem covered_outside {block : Block} {p : Nat}
    (listed : Listed lo n area (front ++ block :: back)) :
    (Covered front p → p < block.start) ∧ (Covered back p → block.start + block.size ≤ p) := by
  have ordered := List.pairwise_append.mp listed.ordered
  simp only [List.pairwise_cons, List.mem_cons, forall_eq_or_imp] at ordered
  constructor
  · rintro ⟨other, member, covers⟩
    have bound := (ordered.2.2 other member).1
    have range := covers.2
    omega
  · rintro ⟨other, member, covers⟩
    have bound := ordered.2.1.1 other member
    have range := covers.1
    omega

private theorem takePages_whole {block : Block} (formed : WellFormed lo n area (front ++ block :: back)) :
    WellFormed lo n (takePages block.start block.size area) (front ++ back) := by
  have size := formed.sized block (by simp)
  have take : takePages block.start block.size area = { area.onLinks (listDel block.link) with
      nrFree := area.nrFree - block.size }.setPageProperty block.start false := by
    simp [takePages, FreeArea.onLinks, size.1, Block.link]
  have property : ∀ p, ((takePages block.start block.size area).page p).property =
      (area.page p).property := by
    intro p
    simp only [take, FreeArea.onLinks, FreeArea.setPageProperty, FreeArea.setPage, Function.update_apply]
    split
    next same => rw [same]
    next => rfl
  have flags : ∀ p, ((takePages block.start block.size area).page p).flags =
      { (area.page p).flags with property := (area.page p).flags.property && p ≠ block.start } := by
    intro p
    simp only [take, FreeArea.onLinks, FreeArea.setPageProperty, FreeArea.setPage, Function.update_apply]
    split
    next same => simp [same]
    next other => simp [other]
  have ordered := List.pairwise_append.mp formed.ordered
  simp only [List.pairwise_cons, List.mem_cons, forall_eq_or_imp] at ordered
  have distinct : ∀ other ∈ front ++ back, other.start ≠ block.start := by
    intro other member
    rcases List.mem_append.mp member with member | member
    · have bound := (ordered.2.2 other member).1
      have positive := (formed.sized other (by simp [member])).2
      omega
    · have bound := ordered.2.1.1 other member
      omega
  have sublist : (front ++ back).Sublist (front ++ block :: back) :=
    List.Sublist.append_left (List.sublist_cons_self _ _) _
  have keep : ∀ other ∈ front ++ back, other ∈ front ++ block :: back := fun _ member => sublist.subset member
  refine ⟨⟨?_, ?_, formed.ordered.sublist sublist, fun other member => formed.inside other (keep other member),
    ?_, ?_, ?_, by rw [take]; exact formed.fits⟩, formed.apart.sublist sublist⟩
  · have ring := formed.ring
    simp only [List.map_append, List.map_cons] at ring ⊢
    rw [take]
    exact listDel_node ring
  · intro other member
    rw [property]
    exact formed.sized other (keep other member)
  · intro p first last
    have old := formed.heads p first last
    simp only [flags, List.map_append, List.map_cons, List.mem_append, List.mem_cons, Bool.and_eq_true,
      decide_eq_true_eq] at old ⊢
    rw [old]
    constructor
    · rintro ⟨member, other⟩
      tauto
    · intro member
      refine ⟨by tauto, ?_⟩
      rintro rfl
      rw [← List.mem_append, ← List.map_append] at member
      obtain ⟨other, inside, same⟩ := List.mem_map.mp member
      exact distinct other inside same
  · have total := formed.total
    simp only [take, FreeArea.setPageProperty, FreeArea.setPage, List.map_append, List.map_cons,
      List.sum_append, List.sum_cons] at total ⊢
    omega
  · have word := formed.word
    rw [take]
    show area.nrFree - block.size < 2 ^ 32
    omega

private theorem takePages_split {block : Block} {k : Nat} (nonempty : 0 < k) (more : k < block.size)
    (formed : WellFormed lo n area (front ++ block :: back)) :
    WellFormed lo n (takePages block.start k area)
      (front ++ ⟨block.start + k, block.size - k⟩ :: back) := by
  have size := formed.sized block (by simp)
  have prev : area.link.prev (.pageLink block.start) = (front.map Block.link).getLastD .freeList := by
    have ring := formed.ring
    simp only [List.map_append, List.map_cons] at ring
    exact ring.prev_node
  have take : takePages block.start k area = { (((area.onLinks (listDel block.link)).setProperty
      (block.start + k) (block.size - k)).setPageProperty (block.start + k) true).onLinks
        (listAdd ((front.map Block.link).getLastD .freeList) (.pageLink (block.start + k))) with
      nrFree := area.nrFree - k }.setPageProperty block.start false := by
    simp [takePages, FreeArea.onLinks, FreeArea.setProperty, FreeArea.setPageProperty, FreeArea.setPage,
      size.1, more, prev, Block.link]
  have word := formed.word
  have count := formed.total
  simp only [List.map_append, List.map_cons, List.sum_append, List.sum_cons] at count
  have property : ∀ p, ((takePages block.start k area).page p).property =
      if p = block.start + k then block.size - k else (area.page p).property := by
    intro p
    simp only [take, FreeArea.onLinks, FreeArea.setPageProperty, FreeArea.setProperty, FreeArea.setPage,
      Function.update_apply, uint]
    have away : block.start ≠ block.start + k := by omega
    by_cases first : p = block.start
    · simp [first, Nat.ne_of_gt nonempty]
    · by_cases rest : p = block.start + k
      · simp only [rest, if_true, Ne.symm away, if_false]
        omega
      · simp [first, rest]
  have flags : ∀ p, ((takePages block.start k area).page p).flags =
      { (area.page p).flags with
        property := (p = block.start + k || (area.page p).flags.property) && p ≠ block.start } := by
    intro p
    simp only [take, FreeArea.onLinks, FreeArea.setPageProperty, FreeArea.setProperty, FreeArea.setPage,
      Function.update_apply]
    by_cases first : p = block.start
    · simp [first, Nat.ne_of_gt nonempty]
    · by_cases rest : p = block.start + k
      · simp [rest, Nat.ne_of_gt nonempty]
      · simp [first, rest]
  have ordered := List.pairwise_append.mp formed.ordered
  have apart := List.pairwise_append.mp formed.apart
  simp only [List.pairwise_cons, List.mem_cons, forall_eq_or_imp] at ordered apart
  have before : ∀ other ∈ front, other.start < block.start := by
    intro other member
    have bound := (apart.2.2 other member).1
    omega
  have after : ∀ other ∈ back, block.start + block.size < other.start := fun other member =>
    apart.2.1.1 other member
  refine ⟨⟨?_, ?_, ?_, ?_, ?_, ?_, ?_, by rw [take]; exact formed.fits⟩, ?_⟩
  · have ring := formed.ring
    simp only [List.map_append, List.map_cons] at ring ⊢
    rw [take]
    refine listAdd_last (listDel_node ring) ?_
    intro member
    simp only [List.mem_cons, reduceCtorEq, false_or, List.mem_append, List.mem_map, Block.link,
      Link.pageLink.injEq] at member
    rcases member with ⟨other, member, same⟩ | ⟨other, member, same⟩
    · have bound := before other member
      omega
    · have bound := after other member
      omega
  · intro other member
    rw [property]
    simp only [List.mem_append, List.mem_cons] at member
    rcases member with member | rfl | member
    · have bound := before other member
      rw [if_neg (by omega)]
      exact formed.sized other (by simp [member])
    · exact ⟨if_pos rfl, by simp only; omega⟩
    · have bound := after other member
      rw [if_neg (by omega)]
      exact formed.sized other (by simp [member])
  · refine List.pairwise_append.mpr ⟨ordered.1, List.pairwise_cons.mpr ⟨?_, ordered.2.1.2⟩, ?_⟩
    · intro other member
      have bound := after other member
      simp only
      omega
    · intro a inFront b inBack
      have bounds := ordered.2.2 a inFront
      rcases List.mem_cons.mp inBack with rfl | inBack
      · have first := bounds.1
        simp only
        omega
      · exact bounds.2 b inBack
  · intro other member
    simp only [List.mem_append, List.mem_cons] at member
    rcases member with member | rfl | member
    · exact formed.inside other (by simp [member])
    · have bounds := formed.inside block (by simp)
      simp only
      omega
    · exact formed.inside other (by simp [member])
  · intro p first last
    have old := formed.heads p first last
    simp only [flags, List.map_append, List.map_cons, List.mem_append, List.mem_cons, Bool.and_eq_true,
      Bool.or_eq_true, decide_eq_true_eq] at old ⊢
    rw [old]
    constructor
    · rintro ⟨member, other⟩
      tauto
    · intro member
      refine ⟨by tauto, ?_⟩
      rintro rfl
      rcases member with member | same | member
      · obtain ⟨other, inside, same⟩ := List.mem_map.mp member
        have bound := before other inside
        omega
      · omega
      · obtain ⟨other, inside, same⟩ := List.mem_map.mp member
        have bound := after other inside
        omega
  · have total := formed.total
    simp only [take, FreeArea.setPageProperty, FreeArea.setPage, List.map_append, List.map_cons,
      List.sum_append, List.sum_cons] at total ⊢
    omega
  · rw [take]
    show area.nrFree - k < 2 ^ 32
    omega
  · refine List.pairwise_append.mpr ⟨apart.1, List.pairwise_cons.mpr ⟨?_, apart.2.1.2⟩, ?_⟩
    · intro other member
      have bound := after other member
      simp only
      omega
    · intro a inFront b inBack
      have bounds := apart.2.2 a inFront
      rcases List.mem_cons.mp inBack with rfl | inBack
      · have first := bounds.1
        simp only
        omega
      · exact bounds.2 b inBack

theorem takePages_spec {block : Block} {k : Nat} (nonempty : 0 < k) (fit : k ≤ block.size)
    (formed : WellFormed lo n area (front ++ block :: back)) :
    ∃ blocks', WellFormed lo n (takePages block.start k area) blocks' ∧
      (takePages block.start k area).nrFree = area.nrFree - k ∧
      ∀ p, Covered blocks' p ↔ Covered (front ++ block :: back) p ∧
        ¬ (block.start ≤ p ∧ p < block.start + k) := by
  have free : (takePages block.start k area).nrFree = area.nrFree - k := by
    simp only [takePages, FreeArea.setPageProperty, FreeArea.setPage]
    split <;> rfl
  have outside := fun p => covered_outside (p := p) formed.toListed
  rcases Nat.lt_or_eq_of_le fit with more | rfl
  · refine ⟨_, takePages_split nonempty more formed, free, fun p => ?_⟩
    have bounds := outside p
    simp only [covered_append, covered_cons, Block.Covers]
    constructor
    · rintro (inFront | ⟨low, high⟩ | inBack)
      · exact ⟨.inl inFront, by have := bounds.1 inFront; omega⟩
      · exact ⟨.inr (.inl (by omega)), by omega⟩
      · exact ⟨.inr (.inr inBack), by have := bounds.2 inBack; omega⟩
    · rintro ⟨inFront | ⟨low, high⟩ | inBack, away⟩
      · exact .inl inFront
      · exact .inr (.inl (by omega))
      · exact .inr (.inr inBack)
  · refine ⟨_, takePages_whole formed, free, fun p => ?_⟩
    have bounds := outside p
    simp only [covered_append, covered_cons, Block.Covers]
    constructor
    · rintro (inFront | inBack)
      · exact ⟨.inl inFront, by have := bounds.1 inFront; omega⟩
      · exact ⟨.inr (.inr inBack), by have := bounds.2 inBack; omega⟩
    · tauto

/-- Allocation takes the first block of at least `k` pages, or finds none. -/
theorem defaultAllocPages_spec {k : Nat} (formed : WellFormed lo n area blocks)
    (nonempty : 0 < k) :
    (blocks.find? (k ≤ ·.size) = none ∧ defaultAllocPages k area = .ok (none, area)) ∨
    ∃ block blocks', blocks.find? (k ≤ ·.size) = some block ∧
      defaultAllocPages k area = .ok (some block.start, takePages block.start k area) ∧
      WellFormed lo n (takePages block.start k area) blocks' ∧
      (takePages block.start k area).nrFree + k = area.nrFree ∧
      ∀ p, Covered blocks' p ↔ Covered blocks p ∧ ¬ (block.start ≤ p ∧ p < block.start + k) := by
  have scan := findFit_spec (n := k) formed.ring.closed
    (fun block member => (formed.sized block member).1) formed.length_lt
  cases found : blocks.find? (k ≤ ·.size) with
  | none =>
    refine .inl ⟨rfl, ?_⟩
    simp only [found, Option.map_none] at scan
    simp only [defaultAllocPages, nonempty, decide_true, assert_true, ok_bind, scan]
    split <;> rfl
  | some block =>
    have fit : k ≤ block.size := by simpa using List.find?_some found
    obtain ⟨front, back, rfl⟩ := List.append_of_mem (List.mem_of_find?_eq_some found)
    obtain ⟨blocks', result, free, covered⟩ := takePages_spec nonempty fit formed
    have enough : block.size ≤ area.nrFree := by
      have total := formed.total
      simp only [List.map_append, List.map_cons, List.sum_append, List.sum_cons] at total
      omega
    refine .inr ⟨block, blocks', rfl, ?_, result, by omega, covered⟩
    simp only [found, Option.map_some] at scan
    simp only [defaultAllocPages, nonempty, decide_true, assert_true, ok_bind, scan]
    rw [if_neg (by omega)]
    rfl

end Alloc

end Ucore.PageAllocator
