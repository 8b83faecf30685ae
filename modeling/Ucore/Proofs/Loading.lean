import Mathlib
import Ucore.Proofs.ElfPages

/-! What `load_icode` builds: an area for each segment and one for the stack, and the pages in them. Whatever a file holds whose segments end below
2^64, the address space stands beside those in use, and `bad` are the halts that reading the file never causes. -/

namespace Ucore
open Lib

/-- The text of the assertion for an area that begins in front of another one and reaches into it. -/
def overlapText : String := "prev->vm_end <= next->vm_start"

/-- The texts of the assertions about the pages of the stack. -/
def stackTexts : List String :=
  ["pgdir_alloc_page(mm->pgdir, USTACKTOP - PGSIZE, PTE_USER) != NULL", "pgdir_alloc_page(mm->pgdir, USTACKTOP - 2 * PGSIZE, PTE_USER) != NULL",
    "pgdir_alloc_page(mm->pgdir, USTACKTOP - 3 * PGSIZE, PTE_USER) != NULL", "pgdir_alloc_page(mm->pgdir, USTACKTOP - 4 * PGSIZE, PTE_USER) != NULL"]

/-- The program header with the number `i`. -/
def Image.At (image : Image) (satp : Frame) (m : Mem) (phoff i : Nat) (header : ProgHdr) : Prop :=
  image.proghdr satp m (wrap (phoff + i * proghdrSize)) = .ok (some header)

/-- Among the first `phnum` program headers none reaches from below into the area of one in front of it, or begins in the stack behind its first page. -/
structure Image.Ordered (image : Image) (satp : Frame) (m₀ : Mem) (phoff phnum : Nat) : Prop where
  segment : ∀ i j header header', i < j → j < phnum → image.At satp m₀ phoff i header → image.At satp m₀ phoff j header' →
    roundUp (header'.pVa + header'.pMemsz) pgSize ≤ roundDown header.pVa pgSize ∨ roundDown header.pVa pgSize ≤ roundDown header'.pVa pgSize
  stack : ∀ i < phnum, ∀ header, image.At satp m₀ phoff i header →
    ustackTop ≤ roundDown header.pVa pgSize ∨ roundDown header.pVa pgSize ≤ ustackTop - ustackSize

/-- The halts that are `bad` never come from reading the program headers and their segments, which end below 2^64. -/
structure Image.Suits (image : Image) (bad : Halt → Prop) (satp : Frame) (m₀ : Mem) (phoff phnum : Nat) : Prop where
  word : image.binary < 2 ^ 64
  readable : ∀ m : Mem, (∀ i < 511, m.word satp i = 0) → ∀ i < phnum, Ensures bad (image.proghdr satp m (wrap (phoff + i * proghdrSize))) fun _ => True
  ends : ∀ i < phnum, ∀ header, image.At satp m₀ phoff i header → header.pVa + header.pMemsz < 2 ^ 64
  reads : ∀ i < phnum, ∀ header, image.At satp m₀ phoff i header → image.Reads bad satp header.pOffset header.pFilesz
  overlap : ¬ bad (.assertion overlapText) ∨ image.Ordered satp m₀ phoff phnum
  pages : ∀ text ∈ stackTexts, ¬ bad (.assertion text)

/-- The area is that of a segment, and its pages show what the file puts there. -/
structure Vma.Carries (vma : Vma) (header : ProgHdr) (image : Image) (satp : Frame) (m₀ : Mem) (c : Frame) (m : Mem) : Prop where
  first : vma.vmStart = roundDown header.pVa pgSize
  last : vma.vmEnd = roundUp (header.pVa + header.pMemsz) pgSize
  flags : vma.vmFlags = header.vmFlags
  fits : header.pFilesz ≤ header.pMemsz
  user : header.pVa + header.pMemsz ≤ userTop
  shows : m.Shows c header image satp m₀ (header.pVa + header.pMemsz)

/-- The area of the stack. Only the four pages on top of it are there. -/
structure Vma.IsStack (vma : Vma) (c : Frame) (m : Mem) : Prop where
  first : vma.vmStart = ustackTop - ustackSize
  last : vma.vmEnd = ustackTop
  flags : vma.vmFlags = vmRead ||| vmWrite ||| vmStack
  pages : ∀ index, 1 ≤ index → index ≤ 4 → ∃ page, m.leaf c ((ustackTop - index * pgSize) / pgSize) = pteCreate page (1 ||| 0x01F)
  below : ∀ v, vma.Covers v → v < (ustackTop - 4 * pgSize) / pgSize → m.target (c, v) = none

/-- The areas in the list are those of the first `last` program headers. -/
structure Image.Fills (image : Image) (satp : Frame) (m₀ : Mem) (phoff last : Nat) (list : List Vma) (c : Frame) (m : Mem) : Prop where
  areas : ∀ vma ∈ list, ∃ i < last, ∃ header, image.At satp m₀ phoff i header ∧ vma.Carries header image satp m₀ c m
  headers : ∀ i < last, ∀ header, image.At satp m₀ phoff i header → ∃ vma ∈ list, vma.Carries header image satp m₀ c m

/-- The areas in the list are those of the first `last` program headers and the stack. -/
structure Image.Stands (image : Image) (satp : Frame) (m₀ : Mem) (phoff last : Nat) (list : List Vma) (c : Frame) (m : Mem) : Prop where
  areas : ∀ vma ∈ list, vma.IsStack c m ∨ ∃ i < last, ∃ header, image.At satp m₀ phoff i header ∧ vma.Carries header image satp m₀ c m
  headers : ∀ i < last, ∀ header, image.At satp m₀ phoff i header → ∃ vma ∈ list, vma.Carries header image satp m₀ c m
  stack : ∃ vma ∈ list, vma.IsStack c m

variable {roots : Finset Frame} {other : Set Frame} {beside : List Block} {block : Block} {mm mm' : MmStruct} {m m₀ m₁ mₛ m' : Mem} {c page satp : Frame}
  {vma : Vma} {image : Image} {vmFlags : BitVec 32} {fuel phoff phnum index addr len : Nat} {header : ProgHdr} {bad : Halt → Prop} {list : List Vma}

theorem insertVmaStruct_ensures (kept : mm.Kept) (size : vma.vmStart < vma.vmEnd)
    (overlap : ¬ bad (.assertion overlapText) ∨ ∀ area ∈ mm.mmapList, area.vmEnd ≤ vma.vmStart ∨ vma.vmEnd ≤ area.vmStart) :
    Ensures bad (mm.insertVmaStruct vma) fun _ => True := by
  rcases overlap with harmless | clear
  · have sizes := kept.spans.nonempty
    have passes : ∀ prev next : Vma, prev.vmStart < prev.vmEnd → next.vmStart < next.vmEnd → Ensures bad (checkVmaOverlap prev next) fun _ => True := by
      intro prev next first second
      unfold checkVmaOverlap
      rw [decide_eq_true first, assert_true, ok_bind, decide_eq_true second, assert_true]
      cases met : decide (prev.vmEnd ≤ next.vmStart) with
      | false => exact .error harmless
      | true => exact .ok trivial
    unfold MmStruct.insertVmaStruct
    rw [decide_eq_true size, assert_true, ok_bind]
    have behind : ∀ prev : Option Vma, (∀ area ∈ prev, area ∈ mm.mmapList) → Ensures bad (checkNeighbours prev (some vma)) fun _ => True := by
      intro prev known
      cases prev with
      | none => exact .ok trivial
      | some area => exact passes area vma (sizes area (known area rfl)) size
    have ahead : ∀ next : Option Vma, (∀ area ∈ next, area ∈ mm.mmapList) → Ensures bad (checkNeighbours (some vma) next) fun _ => True := by
      intro next known
      cases next with
      | none => exact .ok trivial
      | some area => exact passes vma area size (sizes area (known area rfl))
    refine (behind _ fun area inside => List.takeWhile_subset _ (List.mem_of_getLast? inside)).bind fun _ _ => ?_
    exact (ahead _ fun area inside => List.dropWhile_subset _ (List.mem_of_head? inside)).bind fun _ _ => .ok trivial
  · obtain ⟨mm', inserted⟩ := MmStruct.insertVmaStruct_fits kept size clear
    rw [inserted]
    exact .ok trivial

theorem roundUp_above {start a : Nat} (word : a < 2 ^ 64) (user : UserAccess start (roundUp a pgSize)) : a ≤ roundUp a pgSize := by
  simp only [UserAccess, roundUp, roundDown, wrap, pgSize, userTop, userBase] at user ⊢
  omega

theorem mmMap_ensures (kept : mm.Kept)
    (overlap : ¬ bad (.assertion overlapText) ∨
      ∀ area ∈ mm.mmapList, roundUp (wrap (addr + len)) pgSize ≤ area.vmStart ∨ area.vmStart ≤ roundDown addr pgSize) :
    Ensures bad (mm.mmMap addr len vmFlags m) fun answer => answer.1 ≤ 0 := by
  rcases MmStruct.mmMap_cases kept addr len vmFlags m with ⟨_, refused⟩ | ⟨found, keptFound, same, user, ⟨_, refused⟩ | ⟨nowhere, isNew⟩⟩
  · rw [refused]
    exact .ok (show -eInval ≤ 0 by decide)
  · rw [refused]
    exact .ok (show -eInval ≤ 0 by decide)
  · have clear : ¬ bad (.assertion overlapText) ∨
        ∀ area ∈ found.mmapList, area.vmEnd ≤ roundDown addr pgSize ∨ roundUp (wrap (addr + len)) pgSize ≤ area.vmStart := by
      refine overlap.imp_right fun apart area member => ?_
      rw [same.list] at member
      rcases apart area member with behind | ahead
      · exact .inr behind
      · refine .inl (not_lt.mp fun inside => nowhere ⟨area, member, ?_⟩)
        unfold Vma.has
        rw [decide_eq_true ahead, decide_eq_true inside]
        rfl
    rw [isNew]
    unfold MmStruct.mmMap.mapNew vmaCreate
    cases asked : m.kmalloc with
    | mk answer m₁ =>
      cases answer with
      | none => exact .ok (show -eNoMem ≤ 0 by decide)
      | some place => exact (insertVmaStruct_ensures keptFound user.2.1 clear).bind fun _ _ => .ok le_rfl

/-- The area that `mm_map` makes has no pages yet. -/
theorem Raised.mapArea (raised : Raised roots other beside block mm c m₀ m)
    (overlap : ¬ bad (.assertion overlapText) ∨
      ∀ area ∈ mm.mmapList, roundUp (wrap (addr + len)) pgSize ≤ area.vmStart ∨ area.vmStart ≤ roundDown addr pgSize) :
    Ensures bad (mm.mmMap addr len vmFlags m) fun answer => Raised roots other beside block answer.2.1 c m₀ answer.2.2 ∧ answer.2.2.word = m.word ∧
      answer.1 ≤ 0 ∧ (answer.1 = 0 → ∃ place, UserAccess (roundDown addr pgSize) (roundUp (wrap (addr + len)) pgSize) ∧
        (∀ area, area ∈ answer.2.1.mmapList ↔ area = ⟨place, roundDown addr pgSize, roundUp (wrap (addr + len)) pgSize, vmFlags⟩ ∨ area ∈ mm.mmapList) ∧
        ∀ v, Vma.Covers ⟨place, roundDown addr pgSize, roundUp (wrap (addr + len)) pgSize, vmFlags⟩ v → answer.2.2.target (c, v) = none) := by
  refine (mmMap_ensures raised.kept overlap).result.mono fun answer ran => ?_
  obtain ⟨ret, mm', m'⟩ := answer
  obtain ⟨sign, mapped⟩ := ran
  obtain ⟨annexed, only, _⟩ := raised.toAnnexed.mmMap mapped
  have word : m'.word = m.word := by rw [only]
  have unshared : Unshared (insert c roots) m' := by
    rw [only]
    exact raised.unshared
  refine ⟨⟨annexed, unshared⟩, word, sign, fun worked => ?_⟩
  obtain ⟨kept, ⟨failed, _⟩ | ⟨_, place, asked, user, after⟩⟩ := MmStruct.mmMap_done raised.kept mapped
  · exact absurd worked failed
  have area : ∀ area, area ∈ mm'.mmapList ↔ area = ⟨place, roundDown addr pgSize, roundUp (wrap (addr + len)) pgSize, vmFlags⟩ ∨ area ∈ mm.mmapList := by
    intro area
    rw [after]
    exact MmStruct.mem_withArea
  refine ⟨place, user, area, fun v covers => ?_⟩
  have passes := annexed.covered.passes
  have inside := covers_user (passes _ ((area _).mpr (.inl rfl))) covers
  have same : m'.target (c, v) = m.target (c, v) := by
    rw [Mem.target, Mem.leaf, word]
    rfl
  dsimp only
  rw [same]
  by_contra there
  obtain ⟨old, member, covers'⟩ := raised.covered.pages v inside there
  -- Two areas of the list that share a page are one area, and the block of the new one was free.
  have spot : ∀ area ∈ mm'.mmapList, area.Covers v → area.vmStart ≤ v * pgSize ∧ v * pgSize < area.vmEnd := by
    intro area member covers
    obtain ⟨first, last, _⟩ := assertRange_ok (passes area member)
    unfold Vma.Covers at covers
    unfold pgSize at first last covers ⊢
    omega
  have own := (area _).mpr (.inl rfl)
  have wide := (area old).mpr (.inr member)
  have one := kept.spans.unique own wide (spot _ own covers) (spot old wide covers')
  have taken : old.block ∈ m.blocks := by
    refine raised.blocks.mem_iff.mpr (List.mem_append_left _ (List.mem_cons_of_mem _ ?_))
    exact List.mem_map_of_mem member
  rw [← one] at taken
  exact (kmalloc_some asked).1 taken

theorem Vma.Carries.keeps (carries : vma.Carries header image satp m₀ c m) (keeps : Keeps c m m') : vma.Carries header image satp m₀ c m' :=
  ⟨carries.first, carries.last, carries.flags, carries.fits, carries.user, carries.shows.keeps carries.user keeps⟩

theorem Image.Fills.keeps (fills : image.Fills satp m₀ phoff index list c m) (keeps : Keeps c m m') : image.Fills satp m₀ phoff index list c m' := by
  refine ⟨fun vma member => ?_, fun i below header here => ?_⟩
  · obtain ⟨i, below, header, here, carries⟩ := fills.areas vma member
    exact ⟨i, below, header, here, carries.keeps keeps⟩
  · obtain ⟨vma, member, carries⟩ := fills.headers i below header here
    exact ⟨vma, member, carries.keeps keeps⟩

/-- One segment. -/
theorem Raised.fillSegment (kernel : satp ∈ other) (zero : ∀ i < 511, m₀.word satp i = 0) (reads : image.Reads bad satp header.pOffset header.pFilesz)
    (word : header.pVa + header.pMemsz < 2 ^ 64) (raised : Raised roots other beside block mm c m₀ m)
    (overlap : ¬ bad (.assertion overlapText) ∨
      ∀ area ∈ mm.mmapList, roundUp (header.pVa + header.pMemsz) pgSize ≤ area.vmStart ∨ area.vmStart ≤ roundDown header.pVa pgSize) :
    Ensures bad (Ucore.loadSegment image satp c header mm m) fun answer => Raised roots other beside block answer.2.1 c m₀ answer.2.2 ∧ answer.1 ≤ 0 ∧
      (answer.1 = 0 → Keeps c m answer.2.2 ∧ ∃ vma : Vma, (∀ area, area ∈ answer.2.1.mmapList ↔ area = vma ∨ area ∈ mm.mmapList) ∧
        vma.Carries header image satp m₀ c answer.2.2) := by
  have whole : wrap (header.pVa + header.pMemsz) = header.pVa + header.pMemsz := Nat.mod_eq_of_lt word
  unfold Ucore.loadSegment
  split
  · exact .ok ⟨raised, show -eInvalElf ≤ 0 by decide, fun impossible => absurd (show -eInvalElf = 0 from impossible) (by decide)⟩
  next fits =>
    rw [← whole] at overlap
    refine (raised.mapArea overlap).bind fun answer mapped => ?_
    obtain ⟨ret, mm₁, m₁⟩ := answer
    obtain ⟨raised₁, same, sign, area⟩ := mapped
    dsimp only at raised₁ same sign area ⊢
    split
    next failed => exact .ok ⟨raised₁, sign, fun worked => absurd worked failed⟩
    next worked =>
      obtain ⟨place, user, areas, unmapped⟩ := area (not_not.mp worked)
      rw [whole] at user areas unmapped
      have above : header.pVa + header.pMemsz ≤ roundUp (header.pVa + header.pMemsz) pgSize := roundUp_above word user
      refine (raised₁.fillPages kernel zero reads ((areas _).mpr (.inl rfl)) rfl above (not_lt.mp fits) unmapped).bind fun answer filled => ?_
      obtain ⟨code, m₂⟩ := answer
      obtain ⟨raised₂, sign₂, shown⟩ := filled
      refine .ok ⟨raised₂, sign₂, fun worked => ?_⟩
      obtain ⟨shows, keeps⟩ := shown worked
      exact ⟨(Keeps.word same).trans keeps, _, areas, rfl, rfl, rfl, not_lt.mp fits, above.trans user.2.2, shows⟩

theorem number_bare {satp' : Frame} (zero : ∀ i < 511, m.word satp i = 0) (zero' : ∀ i < 511, m'.word satp' i = 0) (offset n : Nat) :
    image.number satp m offset n = image.number satp' m' offset n := by
  induction n generalizing offset with
  | zero => rfl
  | succ n ih => rw [Image.number, Image.number, byte_bare zero zero', ih]

theorem proghdr_bare {satp' : Frame} (zero : ∀ i < 511, m.word satp i = 0) (zero' : ∀ i < 511, m'.word satp' i = 0) (offset : Nat) :
    image.proghdr satp m offset = image.proghdr satp' m' offset := by
  unfold Image.proghdr
  simp only [number_bare zero zero']

private theorem header_offset {binary index : Nat} (word : binary < 2 ^ 64) :
    minus (wrap (wrap (binary + phoff) + index * proghdrSize)) binary = wrap (phoff + index * proghdrSize) := by
  unfold minus wrap
  omega

theorem Image.Orderly.suits (orderly : image.Orderly) (zero : ∀ i < 511, m₀.word satp i = 0) (read : image.ePhoff satp m₀ = .ok phoff)
    (counted : image.ePhnum satp m₀ = .ok phnum) : image.Suits (fun _ => False) satp m₀ phoff phnum where
  word := orderly.word
  readable _ _ _ _ := .unbarred _
  ends i below header here := orderly.ends satp m₀ zero phoff phnum read counted i below header here
  reads _ _ _ _ _ _ _ _ := .unbarred _
  overlap := .inl id
  pages _ _ := id

section Program

variable (kernel : satp ∈ other) (zero : ∀ i < 511, m₀.word satp i = 0) (suits : image.Suits bad satp m₀ phoff phnum)
include kernel zero suits

/-- The loop over the program headers. If the table reaches over 2^64, the loop may end in front of its end. -/
theorem Raised.fillSegments (raised : Raised roots other beside block mm c m₀ m) (fills : image.Fills satp m₀ phoff index mm.mmapList c m)
    (within : index ≤ phnum) (rounds : phnum < index + fuel) :
    Ensures bad (Ucore.loadSegments image satp c (wrap (wrap (image.binary + phoff) + phnum * proghdrSize)) fuel
        (wrap (wrap (image.binary + phoff) + index * proghdrSize)) mm m) fun answer => Raised roots other beside block answer.2.1 c m₀ answer.2.2 ∧
      answer.1 ≤ 0 ∧ (answer.1 = 0 → ∃ last ≤ phnum, image.Fills satp m₀ phoff last answer.2.1.mmapList c answer.2.2 ∧
        (image.binary + phoff + phnum * proghdrSize < 2 ^ 64 → last = phnum)) := by
  induction fuel generalizing index mm m with
  | zero => omega
  | succ fuel ih =>
    have goes : wrap (wrap (wrap (image.binary + phoff) + index * proghdrSize) + proghdrSize) =
        wrap (wrap (image.binary + phoff) + (index + 1) * proghdrSize) := by
      unfold wrap proghdrSize
      omega
    unfold Ucore.loadSegments
    split
    next before =>
      have inside : index < phnum := by
        refine lt_of_le_of_ne within ?_
        rintro rfl
        exact lt_irrefl _ before
      rw [goes, header_offset suits.word]
      have empty : ∀ i < 511, m.word satp i = 0 := by
        rw [raised.spares.words satp kernel]
        exact zero
      refine (suits.readable m empty index inside).result.bind fun found seen => ?_
      have seen := (proghdr_bare zero empty _).trans seen.2
      cases found with
      | none =>
        refine ih raised ⟨fun vma member => ?_, fun i below header here => ?_⟩ inside (by omega)
        · obtain ⟨i, below, rest⟩ := fills.areas vma member
          exact ⟨i, Nat.lt_succ_of_lt below, rest⟩
        · rcases Nat.lt_succ_iff_lt_or_eq.mp below with below | rfl
          · exact fills.headers i below header here
          · cases here.symm.trans seen
      | some header =>
        have overlap : ¬ bad (.assertion overlapText) ∨
            ∀ area ∈ mm.mmapList, roundUp (header.pVa + header.pMemsz) pgSize ≤ area.vmStart ∨ area.vmStart ≤ roundDown header.pVa pgSize := by
          refine suits.overlap.imp_right fun ordered area member => ?_
          obtain ⟨i, below, header', here, carries⟩ := fills.areas area member
          rw [carries.first]
          exact ordered.segment i index header' header below inside here seen
        refine (raised.fillSegment kernel zero (suits.reads index inside header seen) (suits.ends index inside header seen) overlap).bind
          fun answer filled => ?_
        obtain ⟨code, mm₁, m₁⟩ := answer
        obtain ⟨raised₁, sign, shown⟩ := filled
        dsimp only at raised₁ sign shown ⊢
        split
        next failed => exact .ok ⟨raised₁, sign, fun worked => absurd worked failed⟩
        next worked =>
          obtain ⟨keeps, vma, areas, carries⟩ := shown (not_not.mp worked)
          have fills₁ := fills.keeps keeps
          refine ih raised₁ ⟨fun area member => ?_, fun i below header' here => ?_⟩ inside (by omega)
          · rcases (areas area).mp member with rfl | old
            · exact ⟨index, Nat.lt_succ_self index, header, seen, carries⟩
            · obtain ⟨i, below, rest⟩ := fills₁.areas area old
              exact ⟨i, Nat.lt_succ_of_lt below, rest⟩
          · rcases Nat.lt_succ_iff_lt_or_eq.mp below with below | rfl
            · obtain ⟨area, old, rest⟩ := fills₁.headers i below header' here
              exact ⟨area, (areas area).mpr (.inr old), rest⟩
            · obtain rfl := Option.some.inj (Except.ok.inj (seen.symm.trans here))
              exact ⟨vma, (areas vma).mpr (.inl rfl), carries⟩
    next past =>
      refine .ok ⟨raised, le_rfl, fun _ => ⟨index, within, fills, fun word => ?_⟩⟩
      have begin : wrap (image.binary + phoff) = image.binary + phoff := Nat.mod_eq_of_lt (lt_of_le_of_lt (Nat.le_add_right _ _) word)
      have behind : index * proghdrSize ≤ phnum * proghdrSize := Nat.mul_le_mul_right _ within
      have here : wrap (image.binary + phoff + index * proghdrSize) = image.binary + phoff + index * proghdrSize := Nat.mod_eq_of_lt (by omega)
      rw [begin, here, wrap, Nat.mod_eq_of_lt word] at past
      unfold proghdrSize at past
      omega

omit kernel zero suits in
private theorem Raised.keepStack {text : String} (harmless : ¬ bad (.assertion text)) (area : vma ∈ mm.mmapList)
    (inside : vma.vmStart ≤ ustackTop - index * pgSize ∧ ustackTop - index * pgSize < vma.vmEnd)
    (unmapped : ∀ v, vma.Covers v → mₛ.target (c, v) = none) (raised : Raised roots other beside block mm c m₀ m) (keeps : Keeps c mₛ m) :
    Ensures bad (Ucore.stackPage c index text m) fun m' => Raised roots other beside block mm c m₀ m' ∧ Keeps c mₛ m' ∧
      (∀ v < userPages, v ≠ (ustackTop - index * pgSize) / pgSize → m'.leaf c v = m.leaf c v) ∧
      ∃ page, m'.leaf c ((ustackTop - index * pgSize) / pgSize) = pteCreate page (1 ||| 0x01F) := by
  have root := Finset.mem_insert_self c roots
  obtain ⟨_, last, user⟩ := assertRange_ok (raised.covered.passes vma area)
  have low : ustackTop - index * pgSize < userTop := lt_of_lt_of_le inside.2 user.2.2
  have flags : (0x01F : BitVec 32).toNat < 2 ^ 10 := by decide
  obtain ⟨found, m', done, _⟩ := raised.counted.pgdirAllocPage root low flags
  obtain ⟨annexed, unshared, _⟩ := raised.toAnnexed.pgdirAllocPage area inside flags raised.unshared done
  obtain ⟨_, something⟩ := raised.counted.pgdirAllocPage_remapped root low flags done
  have covers : vma.Covers ((ustackTop - index * pgSize) / pgSize) := by
    unfold Vma.Covers pgSize
    unfold pgSize at last inside
    omega
  unfold Ucore.stackPage
  rw [done, ok_bind]
  dsimp only
  cases found with
  | none => exact .error harmless
  | some page =>
    obtain ⟨_, _, remapped⟩ := something page rfl
    refine .ok ⟨⟨annexed, unshared⟩, keeps.remapped raised.counted root (unmapped _ covers) remapped, fun v within away => ?_, page, ?_⟩
    · rw [remapped.leaf c root v within, if_neg fun both => away both.2]
    · rw [remapped.leaf c root _ (page_of_user low), if_pos ⟨rfl, rfl⟩]

omit kernel zero in
/-- The stack. -/
theorem Raised.fillStack (raised : Raised roots other beside block mm c m₀ m)
    (overlap : ¬ bad (.assertion overlapText) ∨ ∀ area ∈ mm.mmapList, ustackTop ≤ area.vmStart ∨ area.vmStart ≤ ustackTop - ustackSize) :
    Ensures bad (Ucore.loadStack c mm m) fun answer => Raised roots other beside block answer.2.1 c m₀ answer.2.2 ∧ answer.1 ≤ 0 ∧
      (answer.1 = 0 → Keeps c m answer.2.2 ∧ ∃ vma : Vma, (∀ area, area ∈ answer.2.1.mmapList ↔ area = vma ∨ area ∈ mm.mmapList) ∧
        vma.IsStack c answer.2.2) := by
  have first : roundDown (ustackTop - ustackSize) pgSize = ustackTop - ustackSize := by decide
  have last : roundUp (wrap (ustackTop - ustackSize + ustackSize)) pgSize = ustackTop := by decide
  have clear : ¬ bad (.assertion overlapText) ∨ ∀ area ∈ mm.mmapList,
      roundUp (wrap (ustackTop - ustackSize + ustackSize)) pgSize ≤ area.vmStart ∨ area.vmStart ≤ roundDown (ustackTop - ustackSize) pgSize := by
    rw [first, last]
    exact overlap
  unfold Ucore.loadStack
  refine (raised.mapArea clear).bind fun answer mapped => ?_
  obtain ⟨ret, mm₁, m₁⟩ := answer
  obtain ⟨raised₁, same, sign, area⟩ := mapped
  dsimp only at raised₁ same sign area ⊢
  split
  next failed => exact .ok ⟨raised₁, sign, fun worked => absurd worked failed⟩
  next worked =>
    obtain ⟨place, user, areas, unmapped⟩ := area (not_not.mp worked)
    rw [first, last] at areas unmapped
    have member := (areas _).mpr (.inl rfl)
    have inside : ∀ index, 1 ≤ index → index ≤ 4 → ustackTop - ustackSize ≤ ustackTop - index * pgSize ∧ ustackTop - index * pgSize < ustackTop := by
      intro index low high
      unfold ustackTop ustackSize userTop pgSize
      omega
    have within : ∀ index, 1 ≤ index → index ≤ 4 → (ustackTop - index * pgSize) / pgSize < userPages :=
      fun index low high => page_of_user (inside index low high).2
    have harmless : ∀ text ∈ stackTexts, ¬ bad (.assertion text) := suits.pages
    refine (raised₁.keepStack (harmless _ (by decide)) member (inside 1 (by decide) (by decide)) unmapped .refl).bind fun m₂ built₁ => ?_
    obtain ⟨raised₂, keeps₁, others₁, page₁⟩ := built₁
    refine (raised₂.keepStack (harmless _ (by decide)) member (inside 2 (by decide) (by decide)) unmapped keeps₁).bind fun m₃ built₂ => ?_
    obtain ⟨raised₃, keeps₂, others₂, page₂⟩ := built₂
    refine (raised₃.keepStack (harmless _ (by decide)) member (inside 3 (by decide) (by decide)) unmapped keeps₂).bind fun m₄ built₃ => ?_
    obtain ⟨raised₄, keeps₃, others₃, page₃⟩ := built₃
    refine (raised₄.keepStack (harmless _ (by decide)) member (inside 4 (by decide) (by decide)) unmapped keeps₃).bind fun m₅ built₄ => ?_
    obtain ⟨raised₅, keeps₄, others₄, page₄⟩ := built₄
    refine .ok ⟨raised₅, le_rfl, fun _ => ⟨(Keeps.word same).trans keeps₄, _, areas, rfl, rfl, rfl, fun index low high => ?_, fun v covers low => ?_⟩⟩
    · obtain rfl | rfl | rfl | rfl : index = 1 ∨ index = 2 ∨ index = 3 ∨ index = 4 := by omega
      · obtain ⟨page, leaf⟩ := page₁
        have inside := within 1 (by decide) (by decide)
        exact ⟨page, (others₄ _ inside (by decide)).trans ((others₃ _ inside (by decide)).trans ((others₂ _ inside (by decide)).trans leaf))⟩
      · obtain ⟨page, leaf⟩ := page₂
        have inside := within 2 (by decide) (by decide)
        exact ⟨page, (others₄ _ inside (by decide)).trans ((others₃ _ inside (by decide)).trans leaf)⟩
      · obtain ⟨page, leaf⟩ := page₃
        exact ⟨page, (others₄ _ (within 3 (by decide) (by decide)) (by decide)).trans leaf⟩
      · exact page₄
    · have inside : v < userPages := covers_user (raised₁.covered.passes _ member) covers
      have away : ∀ index, index ≤ 4 → v ≠ (ustackTop - index * pgSize) / pgSize := by
        intro index most
        unfold ustackTop userTop pgSize at low ⊢
        omega
      have leaf : m₅.leaf c v = m₁.leaf c v :=
        (others₄ v inside (away 4 (by decide))).trans ((others₃ v inside (away 3 (by decide))).trans
          ((others₂ v inside (away 2 (by decide))).trans (others₁ v inside (away 1 (by decide)))))
      dsimp only
      rw [Mem.target, leaf]
      exact unmapped v covers

/-- The segments and the stack. -/
theorem Raised.fillImage (counts : ∀ m : Mem, (∀ i < 511, m.word satp i = 0) → Ensures bad (image.ePhnum satp m) fun _ => True)
    (counted : ∀ n, image.ePhnum satp m₀ = .ok n → n = phnum)
    (raised : Raised roots other beside block mm c m₀ m) (bare : mm.mmapList = []) :
    Ensures bad (Ucore.loadImage image satp phoff c mm m) fun answer => Raised roots other beside block answer.2.1 c m₀ answer.2.2 ∧ answer.1 ≤ 0 ∧
      (answer.1 = 0 → ∃ last ≤ phnum, image.Stands satp m₀ phoff last answer.2.1.mmapList c answer.2.2 ∧
        (image.binary + phoff + phnum * proghdrSize < 2 ^ 64 → last = phnum)) := by
  have empty : ∀ i < 511, m.word satp i = 0 := by
    rw [raised.spares.words satp kernel]
    exact zero
  unfold Ucore.loadImage
  refine (counts m empty).result.bind fun n seen => ?_
  obtain rfl := counted n ((number_bare zero empty 56 2).trans seen.2)
  have start : wrap (image.binary + phoff) = wrap (wrap (image.binary + phoff) + 0 * proghdrSize) := by
    rw [Nat.zero_mul, Nat.add_zero, wrap, wrap, Nat.mod_mod]
  have nothing : image.Fills satp m₀ phoff 0 mm.mmapList c m := by
    refine ⟨fun vma member => ?_, fun i impossible => absurd impossible (Nat.not_lt_zero i)⟩
    rw [bare] at member
    exact absurd member List.not_mem_nil
  have segments := raised.fillSegments kernel zero suits nothing (Nat.zero_le n) (show n < 0 + (n + 1) by omega)
  rw [← start] at segments
  refine segments.bind fun answer filled => ?_
  obtain ⟨code, mm₁, m₁⟩ := answer
  obtain ⟨raised₁, sign, shown⟩ := filled
  dsimp only at raised₁ sign shown ⊢
  split
  next failed => exact .ok ⟨raised₁, sign, fun worked => absurd worked failed⟩
  next worked =>
    obtain ⟨last, most, fills, all⟩ := shown (not_not.mp worked)
    have below : ¬ bad (.assertion overlapText) ∨ ∀ area ∈ mm₁.mmapList, ustackTop ≤ area.vmStart ∨ area.vmStart ≤ ustackTop - ustackSize := by
      refine suits.overlap.imp_right fun ordered area member => ?_
      obtain ⟨i, early, header, here, carries⟩ := fills.areas area member
      rw [carries.first]
      exact ordered.stack i (early.trans_le most) header here
    refine (raised₁.fillStack suits below).mono fun answer stacked => ⟨stacked.1, stacked.2.1, fun done => ?_⟩
    obtain ⟨keeps, vma, areas, isStack⟩ := stacked.2.2 done
    have fills' := fills.keeps keeps
    refine ⟨last, most, ⟨fun area member => ?_, fun i early header here => ?_, vma, (areas vma).mpr (.inl rfl), isStack⟩, all⟩
    · rcases (areas area).mp member with rfl | old
      · exact .inl isStack
      · exact .inr (fills'.areas area old)
    · obtain ⟨area, old, carries⟩ := fills'.headers i early header here
      exact ⟨area, (areas area).mpr (.inr old), carries⟩

end Program

end Ucore
