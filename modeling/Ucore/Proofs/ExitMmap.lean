import Mathlib
import Ucore.Vmm
import Ucore.Proofs.ExitRange

/-! `exit_mmap`: first the pages of all areas are unmapped, and then the page tables below
them are given back, area after area. -/

namespace Ucore
open Lib

/-- The page number `v` is in the area. -/
def Vma.Covers (vma : Vma) (v : Nat) : Prop := vma.vmStart / pgSize ≤ v ∧ v < vma.vmEnd / pgSize

/-- The slots of the region `i` that the area touches. -/
def Vma.slots (vma : Vma) (i : Nat) : Finset Nat := slotsOf (vma.vmStart / ptSize) (lastSlot vma.vmEnd) i

/-- The tables of the region `i` behind `exit_range` for the areas, one after the other. -/
def prunes (vacant : Nat → Prop) [DecidablePred vacant] (vmas : List Vma) (i : Nat) (T : Option (Finset Nat)) : Option (Finset Nat) :=
  vmas.foldl (fun T vma => prune vacant (vma.slots i) T) T

variable {roots : Finset Frame} {held other : Set Frame} {freed : Set Frame} {m m' : Mem} {r f : Frame} {i s : Nat} {vmas : List Vma}

section Prunes

variable {vacant vacant' : Nat → Prop} [DecidablePred vacant] [DecidablePred vacant'] {T T' : Finset Nat}

theorem prune_some {S : Finset Nat} (left : prune vacant S (some T) = some T') :
    ¬ (S.Nonempty ∧ S ⊆ T) ∧ T' = T.filter fun s => ¬ (s ∈ S ∧ vacant s) := by
  rw [prune] at left
  split at left
  next => cases left
  next stays => exact ⟨stays, (Option.some.inj left).symm⟩

theorem prunes_nil {T : Option (Finset Nat)} : prunes vacant [] i T = T := rfl

theorem prunes_cons {vma : Vma} {T : Option (Finset Nat)} :
    prunes vacant (vma :: vmas) i T = prunes vacant vmas i (prune vacant (vma.slots i) T) := rfl

theorem prunes_none : prunes vacant vmas i none = none := by
  induction vmas with
  | nil => rfl
  | cons vma rest ih => exact prunes_cons.trans ih

theorem prunes_congr {T : Option (Finset Nat)} (same : ∀ T' ∈ T, ∀ s ∈ T', (vacant' s ↔ vacant s)) :
    prunes vacant' vmas i T = prunes vacant vmas i T := by
  induction vmas generalizing T with
  | nil => rw [prunes_nil, prunes_nil]
  | cons vma rest ih =>
    rw [prunes_cons, prunes_cons, prune_congr same]
    refine ih ?_
    intro T' left s inside
    cases T with
    | none => cases left
    | some T =>
      rw [(prune_some left).2, Finset.mem_filter] at inside
      exact same T rfl s inside.1

theorem prunes_kept (left : prunes vacant vmas i (some T) = some T') (inside : s ∈ T) (full : ¬ vacant s) : s ∈ T' := by
  induction vmas generalizing T with
  | nil =>
    obtain rfl : T = T' := Option.some.inj left
    exact inside
  | cons vma rest ih =>
    rw [prunes_cons] at left
    cases middle : prune vacant (vma.slots i) (some T) with
    | none =>
      rw [middle] at left
      rw [prunes_none] at left
      cases left
    | some T₁ =>
      rw [middle] at left
      refine ih left ?_
      rw [(prune_some middle).2, Finset.mem_filter]
      exact ⟨inside, fun both => full both.2⟩

theorem prunes_gone : prunes vacant vmas i (some T) = none ↔
    ∃ before vma after, vmas = before ++ vma :: after ∧ (vma.slots i).Nonempty ∧
      ∀ s ∈ vma.slots i, s ∈ T ∧ ∀ earlier ∈ before, s ∈ earlier.slots i → ¬ vacant s := by
  induction vmas generalizing T with
  | nil =>
    refine iff_of_false (fun impossible => by cases impossible) ?_
    rintro ⟨before, vma, after, split, _⟩
    exact absurd (congrArg List.length split) (by simp)
  | cons vma rest ih =>
    rw [prunes_cons]
    by_cases all : (vma.slots i).Nonempty ∧ vma.slots i ⊆ T
    · rw [prune, if_pos all]
      refine iff_of_true prunes_none ⟨[], vma, rest, rfl, all.1, fun s inside => ⟨all.2 inside, ?_⟩⟩
      intro earlier impossible
      cases impossible
    · rw [prune, if_neg all]
      refine Iff.trans ih ?_
      constructor
      · rintro ⟨before, next, after, rfl, some, tables⟩
        refine ⟨vma :: before, next, after, rfl, some, fun s inside => ?_⟩
        obtain ⟨left, others⟩ := tables s inside
        rw [Finset.mem_filter] at left
        refine ⟨left.1, fun earlier place own => ?_⟩
        rcases List.mem_cons.mp place with rfl | place
        · exact fun empty => left.2 ⟨own, empty⟩
        · exact others earlier place own
      · rintro ⟨before, next, after, split, some, tables⟩
        cases before with
        | nil =>
          obtain ⟨rfl, _⟩ := List.cons.inj split
          exact absurd ⟨some, fun s inside => (tables s inside).1⟩ all
        | cons first before =>
          obtain ⟨rfl, rfl⟩ := List.cons.inj split
          refine ⟨before, next, after, rfl, some, fun s inside => ?_⟩
          obtain ⟨present, others⟩ := tables s inside
          rw [Finset.mem_filter]
          exact ⟨⟨present, fun both => others vma List.mem_cons_self both.1 both.2⟩,
            fun earlier place own => others earlier (List.mem_cons_of_mem _ place) own⟩

end Prunes

/-- The ranges of the areas pass the assertions of `unmap_range` and `exit_range`. -/
def RangesPass (vmas : List Vma) : Prop := ∀ vma ∈ vmas, Mem.assertRange vma.vmStart vma.vmEnd = .ok ()

section Areas

variable (root : r ∈ roots)
include root

/-- The first pass: no page of an area is mapped behind it. -/
theorem Counted.unmapVmas (counted : Counted roots held other m) (passes : RangesPass vmas) :
    ∃ m', MmStruct.unmapVmas (some r) vmas m = .ok m' ∧ Counted roots held other m' ∧
      (∀ n : Node Frame, n.Inside top 512 → n.owner ∈ roots → m'.node n = m.node n) ∧
      (∀ r' ∈ roots, ∀ v < userPages, r' = r ∧ (∃ vma ∈ vmas, vma.Covers v) → m'.target (r', v) = none) ∧
      ∀ r' ∈ roots, ∀ v < userPages, ¬ (r' = r ∧ ∃ vma ∈ vmas, vma.Covers v) → m'.target (r', v) = m.target (r', v) := by
  induction vmas generalizing m with
  | nil =>
    refine ⟨m, rfl, counted, fun _ _ _ => rfl, ?_, fun _ _ _ _ _ => rfl⟩
    rintro r' root' v inside ⟨_, vma, impossible, _⟩
    cases impossible
  | cons vma rest ih =>
    obtain ⟨m₁, unmapped, counted₁, effect⟩ := counted.unmapRange root (passes vma List.mem_cons_self)
    obtain ⟨m', others, counted', node, gone, kept⟩ := ih counted₁ fun vma inside => passes vma (List.mem_cons_of_mem _ inside)
    have done : MmStruct.unmapVmas (some r) (vma :: rest) m = .ok m' := by
      rw [MmStruct.unmapVmas, deref, ok_bind, unmapped, ok_bind]
      exact others
    refine ⟨m', done, counted', ?_, ?_, ?_⟩
    · intro n inside owned
      rw [node n inside owned, effect.node n inside owned]
    · rintro r' root' v inside ⟨rfl, area, place, covers⟩
      by_cases later : ∃ vma ∈ rest, vma.Covers v
      · exact gone r' root' v inside ⟨rfl, later⟩
      · rw [kept r' root' v inside fun both => later both.2, effect.target r' root' v inside, if_pos]
        rcases List.mem_cons.mp place with rfl | place
        · exact ⟨rfl, covers⟩
        · exact absurd ⟨area, place, covers⟩ later
    · intro r' root' v inside outside
      rw [kept r' root' v inside ?_, effect.target r' root' v inside, if_neg ?_]
      · intro here
        exact outside ⟨here.1, vma, List.mem_cons_self, here.2⟩
      · rintro ⟨own, area, place, covers⟩
        exact outside ⟨own, area, List.mem_cons_of_mem _ place, covers⟩

theorem exitVmas_spec (paged : Paged roots m) (passes : RangesPass vmas) :
    ∃ m' freed, MmStruct.exitVmas (some r) vmas m = .ok m' ∧ Pruned roots r freed m m' ∧
      ∀ i < top, m'.tables r i = prunes (m.Vacant r) vmas i (m.tables r i) := by
  induction vmas generalizing m with
  | nil => exact ⟨m, ∅, rfl, .refl, fun _ _ => rfl⟩
  | cons vma rest ih =>
    obtain ⟨m₁, exits, exited⟩ := exitRange_spec paged root (passes vma List.mem_cons_self)
    obtain ⟨m', freed, others, pruned, tables⟩ :=
      ih (exited.pruned.paged paged) fun vma inside => passes vma (List.mem_cons_of_mem _ inside)
    have done : MmStruct.exitVmas (some r) (vma :: rest) m = .ok m' := by
      rw [MmStruct.exitVmas, deref, ok_bind, exits, ok_bind]
      exact others
    refine ⟨m', _, done, exited.pruned.trans root pruned, ?_⟩
    intro i region
    have same : ∀ T ∈ m₁.tables r i, ∀ s ∈ T, (m₁.Vacant r s ↔ m.Vacant r s) := by
      intro T here s inside
      obtain ⟨slot, there⟩ := (mem_tables here).mp inside
      refine exited.pruned.vacant root ?_ there
      have limit : (i + 1) * 512 ≤ top * 512 := Nat.mul_le_mul_right 512 region
      omega
    rw [tables i region, prunes_congr same, exited.tables i region, prunes_cons, Vma.slots]

end Areas

theorem unmapVmas_pass (done : MmStruct.unmapVmas (some r) vmas m = .ok m') : RangesPass vmas := by
  induction vmas generalizing m with
  | nil => exact fun _ impossible => absurd impossible List.not_mem_nil
  | cons vma rest ih =>
    obtain ⟨root, found, more⟩ := bind_ok done
    obtain ⟨m₁, unmapped, more⟩ := bind_ok more
    obtain ⟨⟨⟩, passed, _⟩ := bind_ok unmapped
    intro area place
    rcases List.mem_cons.mp place with rfl | place
    · exact passed
    · exact ih more area place

/-- A page of the slot `s` is mapped that is in none of the areas. -/
def Mem.Spared (m : Mem) (r : Frame) (vmas : List Vma) (s : Nat) : Prop :=
  ∃ v < userPages, v / 512 = s ∧ m.target (r, v) ≠ none ∧ ∀ vma ∈ vmas, ¬ vma.Covers v

/-- `exit_range` comes to an area that has a page table in each slot that it touches in the region `i`,
and none of these tables was given back for an earlier area. Then it gives back the directory. -/
def Mem.GivesUp (m : Mem) (r : Frame) (vmas : List Vma) (i : Nat) : Prop :=
  ∃ before vma after, vmas = before ++ vma :: after ∧ (vma.slots i).Nonempty ∧
    ∀ s ∈ vma.slots i, m.node (.table r s) ≠ none ∧ ∀ earlier ∈ before, s ∈ earlier.slots i → m.Spared r vmas s

/-- No directory is given back below which a page is still mapped. -/
def Mem.Tidy (m : Mem) (r : Frame) (vmas : List Vma) : Prop := ∀ i < top, m.GivesUp r vmas i → ∀ s, s / 512 = i → ¬ m.Spared r vmas s

/-- Tables that are not reached any more are not user memory either. -/
theorem Counted.pruned (counted : Counted roots held other m) (root : r ∈ roots) (pruned : Pruned roots r freed m m')
    (kept : ∀ v < userPages, m'.node (.table r (v / 512)) = none → m.target (r, v) = none) :
    (∀ r' ∈ roots, ∀ v < userPages, m'.target (r', v) = m.target (r', v)) ∧
      Counted roots held (other ∪ {f | m.IsTable roots f ∧ f ∈ m'.used ∧ ¬ m'.IsTable roots f}) m' := by
  have targets : ∀ r' ∈ roots, ∀ v < userPages, m'.target (r', v) = m.target (r', v) := by
    intro r' root' v inside
    by_cases there : m'.node (.table r' (v / 512)) = none
    · rw [target_missing there]
      rcases pruned.node (.table r' (v / 512)) (Radix.slot_inside inside) root' with same | ⟨_, own, _⟩
      · exact (target_missing (same.symm.trans there)).symm
      · obtain rfl : r' = r := own
        exact (kept v inside there).symm
    · exact congrArg entry (pruned.leaf r' root' v inside there)
  have stays : ∀ f ∈ m.used, ¬ m.IsTable roots f → f ∈ m'.used := by
    intro f inUse notTable
    exact (pruned.used f).mpr ⟨inUse, fun gone => notTable (IsTable.single root (pruned.gone f gone).1)⟩
  have outside : ∀ f, ¬ m.IsTable roots f → ¬ m'.IsTable roots f := fun f notTable table => notTable (pruned.table subset_rfl table)
  have refs : ∀ f, ¬ m.IsTable roots f → m'.ref f = m.ref f :=
    fun f notTable => pruned.kept f fun gone => notTable (IsTable.single root (pruned.gone f gone).1)
  refine ⟨targets, pruned.paged counted.paged, ?_, ?_, ?_, ?_, ?_, ?_⟩
  · intro f inUse
    rw [mapped_congr targets]
    by_cases table : m.IsTable roots f
    · by_cases still : m'.IsTable roots f
      · exact .inl still
      · exact .inr (.inr (.inr (.inr ⟨table, inUse, still⟩)))
    · rcases counted.classes f ((pruned.used f).mp inUse).1 with isTable | mapped | inHeld | inOther
      · exact absurd isTable table
      · exact .inr (.inl mapped)
      · exact .inr (.inr (.inl inHeld))
      · exact .inr (.inr (.inr (.inl inOther)))
  · intro f mapped
    obtain ⟨inUse, range, notTable, notHeld, notOther⟩ := counted.mapped f ((mapped_congr targets).mp mapped)
    rw [pruned.npage]
    refine ⟨stays f inUse notTable, range, outside f notTable, notHeld, ?_⟩
    intro inOther
    rcases inOther with old | lost
    · exact notOther old
    · exact notTable lost.1
  · intro f mapped
    have mapped := (mapped_congr targets).mp mapped
    rw [mappings_congr targets, refs f (counted.mapped f mapped).2.2.1]
    exact counted.count f mapped
  · intro f inHeld
    obtain ⟨inUse, range, notTable, notOther, zero⟩ := counted.held f inHeld
    rw [pruned.npage, refs f notTable]
    refine ⟨stays f inUse notTable, range, outside f notTable, ?_, zero⟩
    intro inOther
    rcases inOther with old | lost
    · exact notOther old
    · exact notTable lost.1
  · intro f inOther
    rcases inOther with old | lost
    · obtain ⟨inUse, notTable⟩ := counted.other f old
      exact ⟨stays f inUse notTable, outside f notTable⟩
    · exact lost.2
  · intro f unused
    by_cases gone : f ∈ freed
    · exact pruned.zero f gone
    · rw [pruned.kept f gone]
      exact counted.free f fun inUse => unused ((pruned.used f).mpr ⟨inUse, gone⟩)

private theorem spared {m₁ : Mem} (root : r ∈ roots)
    (gone : ∀ r' ∈ roots, ∀ v < userPages, r' = r ∧ (∃ vma ∈ vmas, vma.Covers v) → m₁.target (r', v) = none)
    (kept : ∀ r' ∈ roots, ∀ v < userPages, ¬ (r' = r ∧ ∃ vma ∈ vmas, vma.Covers v) → m₁.target (r', v) = m.target (r', v))
    {v : Nat} (inside : v < userPages) (there : m₁.target (r, v) ≠ none) : m.Spared r vmas (v / 512) := by
  have outside : ¬ ∃ vma ∈ vmas, vma.Covers v := fun covered => there (gone r root v inside ⟨rfl, covered⟩)
  rw [kept r root v inside fun both => outside both.2] at there
  exact ⟨v, inside, rfl, there, fun vma place covers => outside ⟨vma, place, covers⟩⟩

/-- `exit_mmap` keeps the books if no directory is given back below which a page is mapped. -/
theorem Counted.exitMmap {mm : MmStruct} (counted : Counted roots held other m) (root : r ∈ roots) (place : mm.pgdir = some r)
    (tidy : m.Tidy r mm.mmapList) (exits : mm.exitMmap m = .ok m') :
    Counted roots held (other ∪ {f | m.IsTable roots f ∧ f ∈ m'.used ∧ ¬ m'.IsTable roots f}) m' ∧
      ∀ r' ∈ roots, ∀ v < userPages, r' = r ∧ (∃ vma ∈ mm.mmapList, vma.Covers v) ∧ m'.target (r', v) = none ∨
        ¬ (r' = r ∧ ∃ vma ∈ mm.mmapList, vma.Covers v) ∧ m'.target (r', v) = m.target (r', v) := by
  obtain ⟨⟨⟩, _, exits⟩ := bind_ok exits
  obtain ⟨m₁, unmapped, exits⟩ := bind_ok exits
  rw [place] at unmapped exits
  generalize mm.mmapList = vmas at tidy unmapped exits ⊢
  have passes := unmapVmas_pass unmapped
  obtain ⟨m₂, found, counted₁, node, gone, kept⟩ := counted.unmapVmas root passes
  obtain rfl : m₁ = m₂ := Except.ok.inj (unmapped.symm.trans found)
  obtain ⟨m₂, freed, done, pruned, tables⟩ := exitVmas_spec root counted₁.paged passes
  obtain rfl : m' = m₂ := Except.ok.inj (exits.symm.trans done)
  have sameTables : ∀ f, m₁.IsTable roots f ↔ m.IsTable roots f :=
    fun f => exists_congr fun n => and_congr_right fun inside => and_congr_right fun owned => Eq.congr_left (node n inside owned)
  have full : ∀ s < top * 512, ¬ m₁.Vacant r s → m.Spared r vmas s := by
    intro s low notVacant
    obtain ⟨j, small, there⟩ : ∃ j < 512, m₁.target (r, s * 512 + j) ≠ none := by
      simpa only [Mem.Vacant, not_forall, exists_prop] using notVacant
    have within : s * 512 + j < userPages := by
      unfold userPages
      omega
    have slot : (s * 512 + j) / 512 = s := by omega
    have result := spared root gone kept within there
    rw [slot] at result
    exact result
  have nothing : ∀ v < userPages, m'.node (.table r (v / 512)) = none → m₁.target (r, v) = none := by
    intro v inside missing
    by_contra there
    have low : v / 512 < top * 512 := Radix.slot_inside (r := r) inside
    have region : v / 512 / 512 < top := Nat.div_lt_of_lt_mul (by rw [mul_comm]; exact low)
    have present : m₁.node (.table r (v / 512)) ≠ none := fun none => there (target_missing none)
    have notVacant : ¬ m₁.Vacant r (v / 512) := fun vacant => there (vacant_target vacant rfl)
    have result := tables (v / 512 / 512) region
    cases here : m₁.tables r (v / 512 / 512) with
    | none => exact present (table_missing (tables_none.mp here))
    | some T =>
      have inTables : v / 512 ∈ T := (mem_tables here).mpr ⟨rfl, present⟩
      rw [here] at result
      cases left : m'.tables r (v / 512 / 512) with
      | some T' => exact ((mem_tables left).mp (prunes_kept (result.symm.trans left) inTables notVacant)).2 missing
      | none =>
        obtain ⟨before, vma, after, split, some, all⟩ := prunes_gone.mp (result.symm.trans left)
        refine tidy _ region ⟨before, vma, after, split, some, fun s own => ?_⟩ (v / 512) rfl (spared root gone kept inside there)
        obtain ⟨inT, others⟩ := all s own
        have slot := (mem_tables here).mp inT
        have within : s < top * 512 := by
          have limit : (v / 512 / 512 + 1) * 512 ≤ top * 512 := Nat.mul_le_mul_right 512 region
          omega
        rw [← node (.table r s) within root]
        exact ⟨slot.2, fun earlier place own => full s within (others earlier place own)⟩
  obtain ⟨targets, counted'⟩ := counted₁.pruned root pruned nothing
  simp only [sameTables] at counted'
  refine ⟨counted', ?_⟩
  intro r' root' v inside
  rw [targets r' root' v inside]
  by_cases covered : r' = r ∧ ∃ vma ∈ vmas, vma.Covers v
  · exact .inl ⟨covered.1, covered.2, gone r' root' v inside covered⟩
  · exact .inr ⟨covered, kept r' root' v inside covered⟩

end Ucore
