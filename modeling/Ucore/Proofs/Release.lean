import Ucore.AddressSpace
import Ucore.Proofs.PageMap

/-! Giving back an address space. `exit_mmap` only clears entries in the tree of its page
directory, so it leaves every other page table alone, and it asks for no memory. -/

namespace Ucore
open Lib

/-- Between the two states entries in the tree of `pgdir` were cleared and memory was given back. -/
structure Shrunk (pgdir : Frame) (m m' : Mem) : Prop where
  less : ∀ q j, m'.word q j = m.word q j ∨ entry (m'.word q j) = none
  word : ∀ q, ¬ m.IsTable {pgdir} q → m'.word q = m.word q
  pages : m'.pages = m.pages
  kmallocs : m'.kmallocs = m.kmallocs
  npage : m'.npage = m.npage

variable {m m' m₀ : Mem} {pgdir page f : Frame} {la start stop fuel : Nat}

theorem Shrunk.refl : Shrunk pgdir m m := ⟨fun _ _ => .inl rfl, fun _ _ => rfl, rfl, rfl, rfl⟩

theorem Shrunk.table (shrunk : Shrunk pgdir m₀ m) (table : m.IsTable {pgdir} f) : m₀.IsTable {pgdir} f := by
  obtain ⟨n, inside, owned, found⟩ := table
  exact ⟨n, inside, owned, Radix.nodeAt_shrink shrunk.less found⟩

theorem Shrunk.clear (shrunk : Shrunk pgdir m₀ m) (table : m₀.IsTable {pgdir} f) (j : Nat) :
    Shrunk pgdir m₀ (m.setWord f j 0) := by
  constructor
  · intro q i
    by_cases own : q = f
    · subst own
      by_cases here : i = j
      · subst here
        have cleared : (m.setWord q i 0).word q i = 0 := by simp [Mem.setWord]
        rw [cleared]
        exact .inr entry_zero
      · have same : (m.setWord q j 0).word q i = m.word q i := by simp [Mem.setWord, here]
        rw [same]
        exact shrunk.less q i
    · have same : (m.setWord f j 0).word q = m.word q := by simp [Mem.setWord, own]
      rw [same]
      exact shrunk.less q i
  · intro q outside
    have own : q ≠ f := by
      rintro rfl
      exact outside table
    have same : (m.setWord f j 0).word q = m.word q := by simp [Mem.setWord, own]
    rw [same]
    exact shrunk.word q outside
  · exact shrunk.pages
  · exact shrunk.kmallocs
  · exact shrunk.npage

theorem Shrunk.counted (shrunk : Shrunk pgdir m₀ m) (used : List Frame) (blocks : List Block) (ref : Frame → Int) :
    Shrunk pgdir m₀ { m with used := used, blocks := blocks, ref := ref } :=
  ⟨shrunk.less, shrunk.word, shrunk.pages, shrunk.kmallocs, shrunk.npage⟩

theorem Shrunk.freePages {n : Nat} (shrunk : Shrunk pgdir m₀ m) (freed : m.freePages page n = .ok m') : Shrunk pgdir m₀ m' := by
  unfold Mem.freePages at freed
  split at freed
  · cases freed
    exact shrunk.counted _ m.blocks _
  · cases freed

theorem Shrunk.kfree {block : Block} (shrunk : Shrunk pgdir m₀ m) (freed : m.kfree block = .ok m') : Shrunk pgdir m₀ m' := by
  unfold Mem.kfree at freed
  split at freed
  · cases freed
    exact shrunk.counted m.used _ m.ref
  · cases freed

theorem Shrunk.pageRemovePte {ptep : Frame × Nat} (shrunk : Shrunk pgdir m₀ m) (table : m₀.IsTable {pgdir} ptep.1)
    (removed : m.pageRemovePte ptep = .ok m') : Shrunk pgdir m₀ m' := by
  rcases pageRemovePte_ok removed with ⟨_, rfl⟩ | ⟨_, _, _, rfl⟩
  · exact shrunk
  · exact (shrunk.counted _ m.blocks _).clear table _

private theorem nextTable_false {dir : Frame} {index : Nat} {found : Option Frame}
    (looked : m.nextTable dir index false = .ok (found, m')) : m' = m ∧ entry (m.word dir index) = found := by
  unfold Mem.nextTable at looked
  split at looked
  next isValid =>
    obtain ⟨table, address, result⟩ := bind_ok looked
    cases result
    unfold Mem.kaddr at address
    split at address
    · cases address
    · split at address
      · cases address
      · cases address
        exact ⟨rfl, by rw [entry, if_pos isValid]⟩
  next invalid =>
    cases looked
    exact ⟨rfl, by rw [entry, if_neg invalid]⟩

theorem getPte_ok {found : Option (Frame × Nat)} (user : la < userTop) (looked : m.getPte pgdir la false = .ok (found, m')) :
    m' = m ∧ found = (m.node (tableOf pgdir la)).map fun t => (t, ptx la) := by
  obtain ⟨⟨pd0, m₁⟩, first, rest⟩ := bind_ok looked
  obtain ⟨rfl, above⟩ := nextTable_false first
  have dir : m₁.node (.dir pgdir (pdx1 la)) = pd0 := above
  rw [← tableOf_parent user] at dir
  cases pd0 with
  | none =>
    cases rest
    have missing : m'.node (tableOf pgdir la) = none := Radix.nodeAt_none trivial dir
    rw [missing]
    exact ⟨rfl, rfl⟩
  | some d =>
    obtain ⟨⟨pt, m₂⟩, second, result⟩ := bind_ok rest
    cases result
    obtain ⟨rfl, here⟩ := nextTable_false second
    have place := Radix.nodeAt_some (n := tableOf pgdir la) trivial dir
    rw [tableOf_index, here] at place
    rw [Mem.node, place]
    exact ⟨rfl, rfl⟩


private theorem unmapPage_shrunk {next : Nat} (user : start < userTop) (shrunk : Shrunk pgdir m₀ m)
    (unmapped : m.unmapPage pgdir start = .ok (next, m')) : Shrunk pgdir m₀ m' := by
  obtain ⟨⟨found, m₁⟩, looked, rest⟩ := bind_ok unmapped
  obtain ⟨rfl, rfl⟩ := getPte_ok user looked
  cases place : m₁.node (tableOf pgdir start) with
  | none =>
    rw [place] at rest
    obtain ⟨_, rfl⟩ := Prod.mk.inj (Except.ok.inj rest)
    exact shrunk
  | some t =>
    rw [place] at rest
    obtain ⟨m₂, removed, result⟩ := bind_ok rest
    obtain ⟨_, rfl⟩ := Prod.mk.inj (Except.ok.inj result)
    have table : m₀.IsTable {pgdir} t := shrunk.table ⟨_, tableOf_inside user, Finset.mem_singleton_self _, place⟩
    unfold onlyIf at removed
    split at removed
    · exact shrunk.pageRemovePte table removed
    · cases removed
      exact shrunk

private theorem unmapLoop_shrunk (user : start < userTop) (below : stop ≤ userTop) (shrunk : Shrunk pgdir m₀ m)
    (unmapped : m.unmapLoop pgdir stop fuel start = .ok m') : Shrunk pgdir m₀ m' := by
  induction fuel generalizing start m with
  | zero => cases unmapped
  | succ fuel ih =>
    obtain ⟨⟨next, m₁⟩, round, rest⟩ := bind_ok unmapped
    have shrunk := unmapPage_shrunk user shrunk round
    dsimp only at rest
    split at rest
    next more => exact ih (lt_of_lt_of_le more.2 below) shrunk rest
    next done =>
      cases rest
      exact shrunk

theorem assertRange_ok (passed : Mem.assertRange start stop = .ok ()) :
    start % pgSize = 0 ∧ stop % pgSize = 0 ∧ UserAccess start stop := by
  unfold Mem.assertRange assert at passed
  by_cases aligned : start % pgSize = 0 ∧ stop % pgSize = 0
  · by_cases user : UserAccess start stop
    · exact ⟨aligned.1, aligned.2, user⟩
    · simp [aligned, user] at passed
  · simp [aligned] at passed

theorem Shrunk.unmapRange (shrunk : Shrunk pgdir m₀ m) (unmapped : m.unmapRange pgdir start stop = .ok m') : Shrunk pgdir m₀ m' := by
  obtain ⟨⟨⟩, passed, rest⟩ := bind_ok unmapped
  obtain ⟨_, _, user⟩ := assertRange_ok passed
  exact unmapLoop_shrunk (lt_of_lt_of_le user.2.1 user.2.2) user.2.2 shrunk rest

private theorem exitTable_shrunk {pd0 : Frame} {free free' : Bool} (table : m₀.IsTable {pgdir} pd0) (shrunk : Shrunk pgdir m₀ m)
    (freed : m.exitTable pd0 start free = .ok (free', m')) : Shrunk pgdir m₀ m' := by
  unfold Mem.exitTable at freed
  split at freed
  · obtain ⟨pt, _, rest⟩ := bind_ok freed
    split at rest
    · cases rest
      exact shrunk
    · obtain ⟨m₁, given, result⟩ := bind_ok rest
      cases result
      exact (shrunk.freePages given).clear table _
  · cases freed
    exact shrunk

private theorem exitTables_shrunk {pd0 : Frame} {free free' : Bool} {d1start : Nat} (table : m₀.IsTable {pgdir} pd0)
    (shrunk : Shrunk pgdir m₀ m) (freed : m.exitTables pd0 d1start stop fuel start free = .ok (free', m')) : Shrunk pgdir m₀ m' := by
  induction fuel generalizing start free m with
  | zero => cases freed
  | succ fuel ih =>
    obtain ⟨⟨flag, m₁⟩, round, rest⟩ := bind_ok freed
    have shrunk := exitTable_shrunk table shrunk round
    dsimp only at rest
    split at rest
    · exact ih shrunk rest
    · cases rest
      exact shrunk

private theorem exitDir_shrunk {d0start : Nat} (user : start < userTop) (shrunk : Shrunk pgdir m₀ m)
    (freed : m.exitDir pgdir start d0start stop = .ok m') : Shrunk pgdir m₀ m' := by
  have root : m₀.IsTable {pgdir} pgdir := ⟨.root pgdir, trivial, Finset.mem_singleton_self _, rfl⟩
  unfold Mem.exitDir at freed
  split at freed
  next isValid =>
    obtain ⟨pd0, address, rest⟩ := bind_ok freed
    obtain ⟨⟨flag, m₁⟩, tables, rest⟩ := bind_ok rest
    have dir : m.node (.dir pgdir (pdx1 start)) = some pd0 := by
      have page : m.pte2page (m.word pgdir (pdx1 start)) = .ok pd0 := by
        rw [Mem.pte2page, if_pos isValid]
        exact address
      have known := pte2page_ok page
      show entry (m.word pgdir (pdx1 start)) = some pd0
      rw [entry, if_pos isValid, known.2.2.2]
    have table : m₀.IsTable {pgdir} pd0 := shrunk.table ⟨.dir pgdir (pdx1 start), (dir_of_user user).1, Finset.mem_singleton_self _, dir⟩
    have shrunk := exitTables_shrunk table shrunk tables
    dsimp only at rest
    split at rest
    · obtain ⟨m₂, given, result⟩ := bind_ok rest
      cases result
      exact (shrunk.freePages given).clear root _
    · cases rest
      exact shrunk
  next invalid =>
    cases freed
    exact shrunk

private theorem exitDirs_shrunk {d0start : Nat} (user : start < userTop) (below : stop ≤ userTop) (shrunk : Shrunk pgdir m₀ m)
    (freed : m.exitDirs pgdir stop fuel start d0start = .ok m') : Shrunk pgdir m₀ m' := by
  induction fuel generalizing start d0start m with
  | zero => cases freed
  | succ fuel ih =>
    obtain ⟨m₁, round, rest⟩ := bind_ok freed
    have shrunk := exitDir_shrunk user shrunk round
    dsimp only at rest
    split at rest
    next more => exact ih (lt_of_lt_of_le more.2 below) shrunk rest
    next done =>
      cases rest
      exact shrunk

theorem Shrunk.exitRange (shrunk : Shrunk pgdir m₀ m) (freed : m.exitRange pgdir start stop = .ok m') : Shrunk pgdir m₀ m' := by
  obtain ⟨⟨⟩, passed, rest⟩ := bind_ok freed
  obtain ⟨_, _, user⟩ := assertRange_ok passed
  have first : roundDown start pdSize < userTop := lt_of_le_of_lt (Nat.sub_le _ _) (lt_of_lt_of_le user.2.1 user.2.2)
  exact exitDirs_shrunk first user.2.2 shrunk rest

private theorem unmapVmas_shrunk {vmas : List Vma} (shrunk : Shrunk pgdir m₀ m)
    (unmapped : MmStruct.unmapVmas (some pgdir) vmas m = .ok m') : Shrunk pgdir m₀ m' := by
  induction vmas generalizing m with
  | nil =>
    cases unmapped
    exact shrunk
  | cons vma rest ih =>
    obtain ⟨root, found, more⟩ := bind_ok unmapped
    cases found
    obtain ⟨m₁, round, more⟩ := bind_ok more
    exact ih (shrunk.unmapRange round) more

private theorem exitVmas_shrunk {vmas : List Vma} (shrunk : Shrunk pgdir m₀ m)
    (freed : MmStruct.exitVmas (some pgdir) vmas m = .ok m') : Shrunk pgdir m₀ m' := by
  induction vmas generalizing m with
  | nil =>
    cases freed
    exact shrunk
  | cons vma rest ih =>
    obtain ⟨root, found, more⟩ := bind_ok freed
    cases found
    obtain ⟨m₁, round, more⟩ := bind_ok more
    exact ih (shrunk.exitRange round) more

private theorem freeVmas_shrunk {vmas : List Vma} (shrunk : Shrunk pgdir m₀ m)
    (freed : MmStruct.freeVmas vmas m = .ok m') : Shrunk pgdir m₀ m' := by
  induction vmas generalizing m with
  | nil =>
    cases freed
    exact shrunk
  | cons vma rest ih =>
    obtain ⟨m₁, round, more⟩ := bind_ok freed
    exact ih (shrunk.kfree round) more

theorem exitMmap_shrunk {mm : MmStruct} (place : mm.pgdir = some pgdir) (exited : mm.exitMmap m = .ok m') : Shrunk pgdir m m' := by
  obtain ⟨⟨⟩, _, exited⟩ := bind_ok exited
  obtain ⟨m₁, unmapped, exited⟩ := bind_ok exited
  rw [place] at unmapped exited
  exact exitVmas_shrunk (unmapVmas_shrunk .refl unmapped) exited

theorem tearDown_shrunk {block : Block} {mm : MmStruct} (place : mm.pgdir = some pgdir) (done : tearDown block mm m = .ok m') :
    Shrunk pgdir m m' := by
  obtain ⟨m₁, exited, rest⟩ := bind_ok done
  obtain ⟨m₂, put, destroyed⟩ := bind_ok rest
  obtain ⟨root, found, put⟩ := bind_ok put
  have shrunk := (exitMmap_shrunk place exited).freePages put
  obtain ⟨⟨⟩, _, destroyed⟩ := bind_ok destroyed
  obtain ⟨m₃, freed, destroyed⟩ := bind_ok destroyed
  exact (freeVmas_shrunk shrunk freed).kfree destroyed

theorem walk_zero {satp : Frame} {addr : Nat} (zero : ∀ i < 511, m.word satp i = 0) (low : addr < kernWindow) : m.walk satp addr = none := by
  unfold Mem.walk
  split
  next canonical =>
    have index : pdx1 addr < 511 := by
      unfold Canonical at canonical
      unfold kernWindow at low
      unfold pdx1
      omega
    rw [zero _ index, entry_zero]
    rfl
  next => rfl

end Ucore
