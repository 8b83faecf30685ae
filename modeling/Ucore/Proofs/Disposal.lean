import Mathlib
import Ucore.Proofs.CopyRange
import Ucore.Proofs.Release
import Ucore.Proofs.TearDown

/-! An address space that nobody uses is given back whole: `exit_mmap`, `put_pgdir` and
`mm_destroy` return, free the `mm_struct` and the areas, and change nothing that another page
directory maps. -/

namespace Ucore
open Lib

variable {roots : Finset Frame} {held other : Set Frame} {m m' m'' : Mem} {r t f pgdir : Frame} {ptep : Frame × Nat} {la start stop next : Nat}
  {fuel : Nat} {block : Block} {rest : List Block} {vmas : List Vma} {mm : MmStruct}

theorem SameHeap.refl : SameHeap m m := ⟨rfl, rfl⟩

theorem SameHeap.trans (first : SameHeap m m') (second : SameHeap m' m'') : SameHeap m m'' :=
  ⟨second.1.trans first.1, second.2.trans first.2⟩

section Heap

theorem freePages_heap {base : Frame} {n : Nat} (freed : m.freePages base n = .ok m') : SameHeap m m' := by
  unfold Mem.freePages at freed
  split at freed
  · cases freed
    exact .refl
  · cases freed

theorem pageRemovePte_heap (removed : m.pageRemovePte ptep = .ok m') : SameHeap m m' := by
  unfold Mem.pageRemovePte at removed
  split at removed
  · obtain ⟨page, _, removed⟩ := bind_ok removed
    obtain ⟨m₁, freed, result⟩ := bind_ok removed
    cases result
    unfold onlyIf at freed
    split at freed
    · exact (freePages_heap freed).trans .refl
    · cases freed
      exact .refl
  · cases removed
    exact .refl

theorem getPte_same {found : Option (Frame × Nat)} (looked : m.getPte pgdir la false = .ok (found, m')) : m' = m := by
  have level : ∀ {m m' : Mem} {dir index : Nat} {table : Option Frame}, m.nextTable dir index false = .ok (table, m') → m' = m := by
    intro m m' dir index table looked
    unfold Mem.nextTable at looked
    split at looked
    · obtain ⟨_, _, result⟩ := bind_ok looked
      cases result
      rfl
    · cases looked
      rfl
  obtain ⟨⟨pd0, m₁⟩, first, looked⟩ := bind_ok looked
  obtain rfl := level first
  cases pd0 with
  | none =>
    cases looked
    rfl
  | some pd0 =>
    obtain ⟨⟨pt, m₂⟩, second, result⟩ := bind_ok looked
    cases result
    exact level second

theorem unmapLoop_heap (unmapped : m.unmapLoop pgdir stop fuel start = .ok m') : SameHeap m m' := by
  induction fuel generalizing start m with
  | zero => cases unmapped
  | succ fuel ih =>
    obtain ⟨⟨next, m₁⟩, round, unmapped⟩ := bind_ok unmapped
    have one : SameHeap m m₁ := by
      obtain ⟨⟨found, m₂⟩, looked, round⟩ := bind_ok round
      obtain rfl := getPte_same looked
      cases found with
      | none =>
        obtain ⟨_, rfl⟩ := Prod.mk.inj (Except.ok.inj round)
        exact .refl
      | some ptep =>
        obtain ⟨m₃, removed, result⟩ := bind_ok round
        obtain ⟨_, rfl⟩ := Prod.mk.inj (Except.ok.inj result)
        unfold onlyIf at removed
        split at removed
        · exact pageRemovePte_heap removed
        · cases removed
          exact .refl
    dsimp only at unmapped
    split at unmapped
    · exact one.trans (ih unmapped)
    · cases unmapped
      exact one

theorem exitTables_heap {pd0 : Frame} {d1start : Nat} {free free' : Bool} (freed : m.exitTables pd0 d1start stop fuel start free = .ok (free', m')) :
    SameHeap m m' := by
  induction fuel generalizing start free m with
  | zero => cases freed
  | succ fuel ih =>
    obtain ⟨⟨flag, m₁⟩, round, freed⟩ := bind_ok freed
    have one : SameHeap m m₁ := by
      unfold Mem.exitTable at round
      split at round
      · obtain ⟨pt, _, round⟩ := bind_ok round
        split at round
        · cases round
          exact .refl
        · obtain ⟨m₂, given, result⟩ := bind_ok round
          cases result
          exact (freePages_heap given).trans .refl
      · cases round
        exact .refl
    dsimp only at freed
    split at freed
    · exact one.trans (ih freed)
    · cases freed
      exact one

theorem exitDirs_heap {d0start : Nat} (freed : m.exitDirs pgdir stop fuel start d0start = .ok m') : SameHeap m m' := by
  induction fuel generalizing start d0start m with
  | zero => cases freed
  | succ fuel ih =>
    obtain ⟨m₁, round, freed⟩ := bind_ok freed
    have one : SameHeap m m₁ := by
      unfold Mem.exitDir at round
      split at round
      · obtain ⟨pd0, _, round⟩ := bind_ok round
        obtain ⟨⟨flag, m₂⟩, tables, round⟩ := bind_ok round
        have below := exitTables_heap tables
        dsimp only at round
        split at round
        · obtain ⟨m₃, given, result⟩ := bind_ok round
          cases result
          exact below.trans ((freePages_heap given).trans .refl)
        · cases round
          exact below
      · cases round
        exact .refl
    dsimp only at freed
    split at freed
    · exact one.trans (ih freed)
    · cases freed
      exact one

theorem unmapVmas_heap {place : Option Frame} (unmapped : MmStruct.unmapVmas place vmas m = .ok m') : SameHeap m m' := by
  induction vmas generalizing m with
  | nil =>
    cases unmapped
    exact .refl
  | cons vma vmas ih =>
    obtain ⟨root, _, unmapped⟩ := bind_ok unmapped
    obtain ⟨m₁, round, unmapped⟩ := bind_ok unmapped
    obtain ⟨⟨⟩, _, round⟩ := bind_ok round
    exact (unmapLoop_heap round).trans (ih unmapped)

theorem exitVmas_heap {place : Option Frame} (exited : MmStruct.exitVmas place vmas m = .ok m') : SameHeap m m' := by
  induction vmas generalizing m with
  | nil =>
    cases exited
    exact .refl
  | cons vma vmas ih =>
    obtain ⟨root, _, exited⟩ := bind_ok exited
    obtain ⟨m₁, round, exited⟩ := bind_ok exited
    obtain ⟨⟨⟩, _, round⟩ := bind_ok round
    exact (exitDirs_heap round).trans (ih exited)

theorem exitMmap_heap (exited : mm.exitMmap m = .ok m') : SameHeap m m' := by
  obtain ⟨⟨⟩, _, exited⟩ := bind_ok exited
  obtain ⟨m₁, unmapped, exited⟩ := bind_ok exited
  exact (unmapVmas_heap unmapped).trans (exitVmas_heap exited)

end Heap

/-- Only the heap differs. -/
def HeapOnly (m m' : Mem) : Prop := m' = { m with blocks := m'.blocks, kmallocs := m'.kmallocs }

theorem HeapOnly.trans (first : HeapOnly m m') (second : HeapOnly m' m'') : HeapOnly m m'' := by
  unfold HeapOnly at first second ⊢
  rw [second, first]

theorem Counted.heapOnly (counted : Counted roots held other m) (only : HeapOnly m m') : Counted roots held other m' := by
  rw [only]
  exact ⟨⟨counted.paged.unique, counted.paged.sound⟩, counted.classes, counted.mapped, counted.count, counted.held, counted.other, counted.free⟩

theorem kfree_perm (blocks : m.blocks.Perm (block :: rest)) : ∃ m', m.kfree block = .ok m' ∧ HeapOnly m m' ∧ m'.blocks.Perm rest := by
  have inside : block ∈ m.blocks := blocks.mem_iff.mpr List.mem_cons_self
  refine ⟨_, if_pos inside, rfl, ?_⟩
  have erased := blocks.erase block
  rw [List.erase_cons_head] at erased
  exact erased

theorem freeVmas_perm (blocks : m.blocks.Perm (vmas.map Vma.block ++ rest)) :
    ∃ m', MmStruct.freeVmas vmas m = .ok m' ∧ HeapOnly m m' ∧ m'.blocks.Perm rest := by
  induction vmas generalizing m with
  | nil => exact ⟨m, rfl, rfl, blocks⟩
  | cons vma vmas ih =>
    obtain ⟨m₁, freed, only, blocks₁⟩ := kfree_perm blocks
    obtain ⟨m', done, others, blocks'⟩ := ih blocks₁
    refine ⟨m', ?_, only.trans others, blocks'⟩
    rw [MmStruct.freeVmas, freed, ok_bind]
    exact done

/-- The blocks of an address space at `block`. -/
def MmStruct.heap (block : Block) (mm : MmStruct) : List Block := block :: mm.mmapList.map Vma.block

theorem mmDestroy_perm (idle : mm.mmCount = 0) (blocks : m.blocks.Perm (mm.heap block ++ rest)) :
    ∃ m', mm.mmDestroy block m = .ok m' ∧ HeapOnly m m' ∧ m'.blocks.Perm rest := by
  obtain ⟨m₁, freed, only, blocks₁⟩ := freeVmas_perm (blocks.trans List.perm_middle.symm)
  obtain ⟨m', done, others, blocks'⟩ := kfree_perm blocks₁
  refine ⟨m', ?_, only.trans others, blocks'⟩
  rw [MmStruct.mmDestroy, decide_eq_true idle, assert_true, ok_bind, freed, ok_bind]
  exact done

/-- The page directories `roots` map what they did, with the same words. -/
def Spared (roots : Finset Frame) (m m' : Mem) : Prop :=
  ∀ r ∈ roots, ∀ v < userPages, m'.leaf r v = m.leaf r v ∧ ∀ f, m.target (r, v) = some f → m'.word f = m.word f

theorem Spared.refl : Spared roots m m := fun _ _ _ _ => ⟨rfl, fun _ _ => rfl⟩

theorem Spared.trans (first : Spared roots m m') (second : Spared roots m' m'') : Spared roots m m'' := by
  intro r root v inside
  obtain ⟨leaf, word⟩ := first r root v inside
  obtain ⟨leaf', word'⟩ := second r root v inside
  refine ⟨leaf'.trans leaf, fun f here => ?_⟩
  have there : m'.target (r, v) = some f := (congrArg entry leaf).trans here
  exact (word' f there).trans (word f here)

theorem Spared.mono {fewer : Finset Frame} (spared : Spared roots m m') (less : fewer ⊆ roots) : Spared fewer m m' :=
  fun r root => spared r (less root)

theorem Spared.heapOnly (only : HeapOnly m m') : Spared roots m m' := by
  rw [only]
  exact .refl

theorem Shrunk.spared (shrunk : Shrunk r m m') (counted : Counted roots held other m) (root : r ∈ roots) : Spared (roots.erase r) m m' := by
  intro r' root' v inside
  obtain ⟨apart, root'⟩ := Finset.mem_erase.mp root'
  have tables : ∀ f, m.IsTable {r'} f → m'.word f = m.word f := by
    rintro f ⟨n, within, owned, found⟩
    refine shrunk.word f ?_
    rintro ⟨n', within', owned', found'⟩
    have own : n.owner = r' := Finset.mem_singleton.mp owned
    have own' : n'.owner = r := Finset.mem_singleton.mp owned'
    have same := counted.paged.unique n n' within within' (own ▸ root') (own' ▸ root) f found found'
    exact apart (by rw [← own, ← own', same])
  refine ⟨Radix.leafAt_frame inside (Finset.mem_singleton_self r') tables, fun f here => shrunk.word f fun table => ?_⟩
  exact (counted.mapped f ⟨r', root', v, inside, here⟩).2.2.1 (IsTable.single root table)

/-- An address space without users is given back. -/
theorem Counted.tearDown (counted : Counted roots held other m) (root : r ∈ roots) (covered : Covered mm r m) (idle : mm.mmCount = 0)
    (blocks : m.blocks.Perm (mm.heap block ++ rest)) :
    ∃ m' other', tearDown block mm m = .ok m' ∧ Counted (roots.erase r) held other' m' ∧ other ⊆ other' ∧ m'.blocks.Perm rest ∧
      Spared (roots.erase r) m m' ∧ (∀ f ∈ other, m'.word f = m.word f) ∧ r ∉ m'.used ∧
      ∀ f, m.Mapped roots f → ¬ m.Mapped (roots.erase r) f → f ∉ m'.used := by
  obtain ⟨m₁, exits, emptied, counted₁⟩ := counted.exitCovered root covered idle
  have bare : ∀ v < userPages, m₁.target (r, v) = none := by
    intro v inside
    rw [emptied.target r root v inside, if_pos rfl]
  obtain ⟨m₂, put, _, _, used, counted₂⟩ := counted₁.putRoot root bare
  have heap := (exitMmap_heap exits).trans (freePages_heap put)
  have blocks₂ : m₂.blocks.Perm (mm.heap block ++ rest) := by
    rw [heap.1]
    exact blocks
  obtain ⟨m', destroyed, only, blocks'⟩ := mmDestroy_perm idle blocks₂
  have done : Ucore.tearDown block mm m = .ok m' := by
    rw [Ucore.tearDown, exits, ok_bind, putPgdir, covered.place, deref, ok_bind, put, ok_bind]
    exact destroyed
  have shrunk := tearDown_shrunk covered.place done
  refine ⟨m', _, done, counted₂.heapOnly only, ?_, blocks', shrunk.spared counted root, ?_, ?_, ?_⟩
  · exact fun f inOther => .inl (.inl inOther)
  · exact fun f inOther => shrunk.word f fun table => (counted.other f inOther).2 (IsTable.single root table)
  · rw [only]
    exact fun inUse => ((used r).mp inUse).2 rfl
  · intro f mapped alone inUse
    rw [only] at inUse
    obtain ⟨_, _, notTable, notHeld, notOther⟩ := counted.mapped f mapped
    rcases counted₁.classes f ((used f).mp inUse).1 with table | there | inHeld | inOther | left
    · exact notTable (emptied.table f table)
    · obtain ⟨q, own, v, inside, here⟩ := there
      rw [emptied.target q own v inside] at here
      split at here
      · cases here
      next away => exact alone ⟨q, Finset.mem_erase.mpr ⟨away, own⟩, v, inside, here⟩
    · exact notHeld inHeld
    · exact notOther inOther
    · exact notTable left.1

end Ucore
