import Mathlib
import Ucore.Lib.Pointers
import Ucore.Proofs.PageMap

/-! Reference counts of user pages: the field `ref` of a page is the number of the leaves
that map it. -/

namespace Ucore
open Lib

namespace Mem

/-- The frame that the page number `place.2` of the page directory `place.1` is mapped to. -/
def target (m : Mem) (place : Frame × Nat) : Option Frame := entry (m.leaf place.1 place.2)

/-- The number of valid leaves that map a frame. -/
def mappings (m : Mem) (roots : Finset Frame) (f : Frame) : Int := pointers (roots ×ˢ Finset.range userPages) m.target f

def Mapped (m : Mem) (roots : Finset Frame) (f : Frame) : Prop := ∃ r ∈ roots, ∃ v < userPages, m.target (r, v) = some f

end Mem

/-- The books about the frames in use. A frame is a page table, is mapped, was allocated to be
mapped (`held`), or is used for something else (`other`). -/
structure Counted (roots : Finset Frame) (held other : Set Frame) (m : Mem) : Prop where
  paged : Paged roots m
  classes : ∀ f ∈ m.used, m.IsTable roots f ∨ m.Mapped roots f ∨ f ∈ held ∨ f ∈ other
  mapped : ∀ f, m.Mapped roots f → f ∈ m.used ∧ (nbase ≤ f ∧ f < m.npage) ∧ ¬ m.IsTable roots f ∧ f ∉ held ∧ f ∉ other
  count : ∀ f, m.Mapped roots f → m.ref f = m.mappings roots f
  held : ∀ f ∈ held, f ∈ m.used ∧ (nbase ≤ f ∧ f < m.npage) ∧ ¬ m.IsTable roots f ∧ f ∉ other ∧ m.ref f = 0
  other : ∀ f ∈ other, f ∈ m.used ∧ ¬ m.IsTable roots f
  free : ∀ f, f ∉ m.used → m.ref f = 0

variable {roots : Finset Frame} {held other : Set Frame} {m m' : Mem} {r page t f : Frame} {v la : Nat} {pte : BitVec 64}

section Mappings

theorem mapped_iff : m.Mapped roots f ↔ m.mappings roots f ≠ 0 := by
  constructor
  · intro mapped
    obtain ⟨r, root, v, inside, here⟩ := mapped
    exact (pointers_pos (Finset.mem_product.mpr ⟨root, Finset.mem_range.mpr inside⟩) here).ne'
  · intro counted
    by_contra unmapped
    refine counted (pointers_eq_zero.mpr ?_)
    intro place inside here
    obtain ⟨root, inside⟩ := Finset.mem_product.mp inside
    exact unmapped ⟨place.1, root, place.2, Finset.mem_range.mp inside, here⟩

theorem mappings_congr (same : ∀ r ∈ roots, ∀ v < userPages, m'.target (r, v) = m.target (r, v)) :
    m'.mappings roots f = m.mappings roots f := by
  refine pointers_congr ?_
  intro place inside
  obtain ⟨root, inside⟩ := Finset.mem_product.mp inside
  exact same place.1 root place.2 (Finset.mem_range.mp inside)

theorem mapped_congr (same : ∀ r ∈ roots, ∀ v < userPages, m'.target (r, v) = m.target (r, v)) :
    m'.Mapped roots f ↔ m.Mapped roots f := by
  rw [mapped_iff, mapped_iff, mappings_congr same]

/-- How the numbers change when one leaf is written. -/
theorem mappings_wrote (unique : Radix.Unique entry 512 m.word top roots) (root : r ∈ roots) (inside : v < userPages)
    (wrote : Wrote r v pte m m' t) (f : Frame) : m'.mappings roots f =
      m.mappings roots f - (if m.target (r, v) = some f then 1 else 0) + (if entry pte = some f then 1 else 0) := by
  have here : m'.target (r, v) = entry pte := by
    rw [Mem.target, wrote.leaf unique root inside inside root, if_pos ⟨rfl, rfl⟩]
  have others : ∀ place ∈ roots ×ˢ Finset.range userPages, place ≠ (r, v) → m'.target place = m.target place := by
    intro place member apart
    obtain ⟨owned, within⟩ := Finset.mem_product.mp member
    rw [Mem.target, wrote.leaf unique root inside (Finset.mem_range.mp within) owned, if_neg ?_]
    · rfl
    · intro same
      exact apart (Prod.ext same.1 same.2)
  have written := pointers_write (f := f) (Finset.mem_product.mpr ⟨root, Finset.mem_range.mpr inside⟩) others
  rw [here] at written
  exact written

end Mappings

theorem Counted.grown (counted : Counted roots held other m) (root : r ∈ roots) (grown : Grown roots r m m') :
    Counted roots held other m' := by
  have same : ∀ r ∈ roots, ∀ v < userPages, m'.target (r, v) = m.target (r, v) :=
    fun r root v inside => congrArg entry (grown.leaf r root v inside)
  obtain ⟨new, used, _, tables⟩ := grown.used
  have keeps : ∀ f ∈ m.used, f ∈ m'.used := by
    intro f inUse
    rw [used]
    exact List.mem_append_right _ inUse
  have ref : ∀ f ∈ m.used, m'.ref f = m.ref f := fun f inUse => grown.ref f fun fresh => fresh.2 inUse
  have outside : ∀ f ∈ m.used, ¬ m.IsTable roots f → ¬ m'.IsTable roots f := by
    intro f inUse old table
    rcases grown.fresh f table with before | unused
    · exact old before
    · exact unused inUse
  constructor
  · exact grown.paged
  · intro f inUse
    rw [used] at inUse
    rcases List.mem_append.mp inUse with isNew | inUse
    · exact .inl (IsTable.single root (tables f isNew).2)
    · rw [mapped_congr same]
      refine (counted.classes f inUse).imp_left ?_
      intro table
      obtain ⟨n, inside, owned, found⟩ := table
      exact ⟨n, inside, owned, grown.node n inside owned f found⟩
  · intro f mapped
    obtain ⟨inUse, range, notTable, apart⟩ := counted.mapped f ((mapped_congr same).mp mapped)
    rw [grown.npage]
    exact ⟨keeps f inUse, range, outside f inUse notTable, apart⟩
  · intro f mapped
    have mapped := (mapped_congr same).mp mapped
    rw [ref f (counted.mapped f mapped).1, mappings_congr same]
    exact counted.count f mapped
  · intro f inHeld
    obtain ⟨inUse, range, notTable, apart, zero⟩ := counted.held f inHeld
    rw [grown.npage, ref f inUse]
    exact ⟨keeps f inUse, range, outside f inUse notTable, apart, zero⟩
  · intro f inOther
    obtain ⟨inUse, notTable⟩ := counted.other f inOther
    exact ⟨keeps f inUse, outside f inUse notTable⟩
  · intro f unused
    rw [grown.ref f fun fresh => unused fresh.1]
    exact counted.free f fun inUse => unused (keeps f inUse)

theorem Counted.alloc (counted : Counted roots held other m) (asked : m.allocPage = (some page, m')) :
    Counted roots (insert page held) other m' := by
  obtain ⟨unused, low, high, rfl⟩ := allocPage_some asked
  have apart : ∀ f ∈ m.used, f ≠ page := by
    rintro f inUse rfl
    exact unused inUse
  constructor
  · exact ⟨counted.paged.unique, fun f table => ⟨List.mem_cons_of_mem _ (counted.paged.sound f table).1, (counted.paged.sound f table).2⟩⟩
  · intro f inUse
    rcases List.mem_cons.mp inUse with rfl | inUse
    · exact .inr (.inr (.inl (Set.mem_insert f held)))
    · rcases counted.classes f inUse with table | mapped | inHeld | inOther
      · exact .inl table
      · exact .inr (.inl mapped)
      · exact .inr (.inr (.inl (Set.mem_insert_of_mem page inHeld)))
      · exact .inr (.inr (.inr inOther))
  · intro f mapped
    obtain ⟨inUse, range, notTable, notHeld, notOther⟩ := counted.mapped f mapped
    refine ⟨List.mem_cons_of_mem _ inUse, range, notTable, ?_, notOther⟩
    rw [Set.mem_insert_iff, not_or]
    exact ⟨apart f inUse, notHeld⟩
  · exact counted.count
  · intro f inHeld
    rcases Set.mem_insert_iff.mp inHeld with rfl | inHeld
    · exact ⟨List.mem_cons_self, ⟨low, high⟩, fun table => unused (counted.paged.sound f table).1,
        fun inOther => unused (counted.other f inOther).1, counted.free f unused⟩
    · obtain ⟨inUse, rest⟩ := counted.held f inHeld
      exact ⟨List.mem_cons_of_mem _ inUse, rest⟩
  · exact fun f inOther => ⟨List.mem_cons_of_mem _ (counted.other f inOther).1, (counted.other f inOther).2⟩
  · exact fun f unused => counted.free f fun inUse => unused (List.mem_cons_of_mem _ inUse)

theorem Counted.asked (counted : Counted roots held other m) (asked : m.allocPage = (none, m')) : Counted roots held other m' := by
  obtain rfl := allocPage_none asked
  exact ⟨⟨counted.paged.unique, counted.paged.sound⟩, counted.classes, counted.mapped, counted.count, counted.held, counted.other,
    counted.free⟩

private theorem setFrame_word (outside : ¬ m.IsTable roots page) (words : Nat → BitVec 64) (f : Frame) (table : m.IsTable roots f) :
    (m.setFrame page words).word f = m.word f := by
  refine Function.update_of_ne ?_ _ _
  rintro rfl
  exact outside table

theorem setFrame_node (outside : ¬ m.IsTable roots page) (words : Nat → BitVec 64) (n : Node Frame) (inside : n.Inside top 512)
    (owned : n.owner ∈ roots) : (m.setFrame page words).node n = m.node n :=
  Radix.nodeAt_frame inside owned (setFrame_word outside words)

theorem setFrame_leaf (outside : ¬ m.IsTable roots page) (words : Nat → BitVec 64) (root : r ∈ roots) (inside : v < userPages) :
    (m.setFrame page words).leaf r v = m.leaf r v :=
  Radix.leafAt_frame inside root (setFrame_word outside words)

theorem Counted.setFrame (counted : Counted roots held other m) (outside : ¬ m.IsTable roots page) (words : Nat → BitVec 64) :
    Counted roots held other (m.setFrame page words) := by
  have node := setFrame_node outside words
  have targets : ∀ r ∈ roots, ∀ v < userPages, (m.setFrame page words).target (r, v) = m.target (r, v) :=
    fun r root v inside => congrArg entry (setFrame_leaf outside words root inside)
  have tables : ∀ f, (m.setFrame page words).IsTable roots f ↔ m.IsTable roots f := by
    intro f
    refine exists_congr fun n => and_congr_right fun inside => and_congr_right fun owned => ?_
    exact Eq.congr_left (node n inside owned)
  have unique : Radix.Unique entry 512 (m.setFrame page words).word top roots := by
    intro n n' inside inside' owned owned' f found found'
    apply counted.paged.unique n n' inside inside' owned owned' f
    · rw [← found]
      exact (node n inside owned).symm
    · rw [← found']
      exact (node n' inside' owned').symm
  refine ⟨⟨unique, fun f table => counted.paged.sound f ((tables f).mp table)⟩, ?_, ?_, ?_, ?_, ?_, counted.free⟩
  · intro f inUse
    rw [tables, mapped_congr targets]
    exact counted.classes f inUse
  · intro f mapped
    rw [tables]
    exact counted.mapped f ((mapped_congr targets).mp mapped)
  · intro f mapped
    rw [mappings_congr targets]
    exact counted.count f ((mapped_congr targets).mp mapped)
  · intro f inHeld
    rw [tables]
    exact counted.held f inHeld
  · intro f inOther
    rw [tables]
    exact counted.other f inOther

theorem Counted.freePage (counted : Counted roots held other m) (inHeld : page ∈ held) :
    ∃ m', m.freePage page = .ok m' ∧ m'.word = m.word ∧ m'.npage = m.npage ∧ Counted roots (held \ {page}) other m' := by
  obtain ⟨inUse, range, notTable, notOther, zero⟩ := counted.held page inHeld
  have unmapped : ¬ m.Mapped roots page := fun mapped => (counted.mapped page mapped).2.2.2.1 inHeld
  have freed : m.freePage page = .ok { m with
      used := m.used.filter (· ∉ [page])
      ref := fun f => if f ∈ [page] then 0 else m.ref f } := by
    unfold Mem.freePage Mem.freePages
    rw [List.range'_one, if_pos (by simpa using inUse)]
  refine ⟨_, freed, rfl, rfl, ?_⟩
  have keeps : ∀ f ∈ m.used, f ≠ page → f ∈ m.used.filter (· ∉ [page]) := by
    intro f inUse other
    simpa using ⟨inUse, other⟩
  have ref : ∀ f, (if f ∈ [page] then 0 else m.ref f) = m.ref f := by
    intro f
    split
    next same => rw [List.mem_singleton.mp same, zero]
    next => rfl
  constructor
  · refine ⟨counted.paged.unique, fun f table => ⟨keeps f (counted.paged.sound f table).1 ?_, (counted.paged.sound f table).2⟩⟩
    rintro rfl
    exact notTable table
  · intro f inUse
    obtain ⟨inUse, apart⟩ := List.mem_filter.mp inUse
    rcases counted.classes f inUse with table | mapped | inHeld | inOther
    · exact .inl table
    · exact .inr (.inl mapped)
    · refine .inr (.inr (.inl ⟨inHeld, ?_⟩))
      simpa using apart
    · exact .inr (.inr (.inr inOther))
  · intro f mapped
    obtain ⟨inUse, range, notTable, notHeld, notOther⟩ := counted.mapped f mapped
    refine ⟨keeps f inUse ?_, range, notTable, fun inHeld => notHeld inHeld.1, notOther⟩
    rintro rfl
    exact unmapped mapped
  · intro f mapped
    exact (ref f).trans (counted.count f mapped)
  · intro f inHeld
    obtain ⟨inUse, range, notTable, notOther, zero⟩ := counted.held f inHeld.1
    exact ⟨keeps f inUse inHeld.2, range, notTable, notOther, (ref f).trans zero⟩
  · intro f inOther
    refine ⟨keeps f (counted.other f inOther).1 ?_, (counted.other f inOther).2⟩
    rintro rfl
    exact notOther inOther
  · intro f unused
    refine (ref f).trans ?_
    by_cases same : f = page
    · rw [same, zero]
    · exact counted.free f fun inUse => unused (keeps f inUse same)

section Wrote

variable (counted : Counted roots held other m) (root : r ∈ roots) (inside : v < userPages) (wrote : Wrote r v pte m m' t)
include counted root inside wrote

theorem Counted.removed (empty : entry pte = none) (here : m.target (r, v) = some f) (used : m'.used = (m.dropped f).used)
    (ref : m'.ref = (m.dropped f).ref) : Counted roots held other m' ∧ (f ∉ m'.used ↔ ¬ m'.Mapped roots f) := by
  have mapped : m.Mapped roots f := ⟨r, root, v, inside, here⟩
  obtain ⟨inUse, range, notTable, notHeld, notOther⟩ := counted.mapped f mapped
  have tables := wrote.isTable counted.paged.unique root inside
  have number : ∀ g, m'.mappings roots g = m.mappings roots g - (if f = g then 1 else 0) := by
    intro g
    rw [mappings_wrote counted.paged.unique root inside wrote, here, empty]
    simp
  have still : ∀ g, g ≠ f → (m'.Mapped roots g ↔ m.Mapped roots g) := by
    intro g apart
    rw [mapped_iff, mapped_iff, number, if_neg apart.symm, sub_zero]
  have fewer : ∀ g, m'.Mapped roots g → m.Mapped roots g := by
    intro g mapped'
    by_cases same : g = f
    · rw [same]
      exact mapped
    · exact (still g same).mp mapped'
  have refs : ∀ g, g ≠ f → m'.ref g = m.ref g := by
    intro g apart
    rw [ref]
    exact Function.update_of_ne apart ..
  have less : m'.ref f = m.ref f - 1 := by
    rw [ref]
    exact Function.update_self ..
  have refHere : m'.ref f = m'.mappings roots f := by
    rw [less, number, if_pos rfl, counted.count f mapped]
  have useds : ∀ g, g ∈ m'.used ↔ g ∈ m.used ∧ (g = f → m'.Mapped roots f) := by
    intro g
    have last : m.ref f - 1 = 0 ↔ ¬ m'.Mapped roots f := by
      rw [mapped_iff, not_not, ← refHere, less]
    rw [used, Mem.dropped]
    dsimp only
    split
    next zero =>
      have unmapped := last.mp zero
      simp [unmapped]
    next positive =>
      have mapped' : m'.Mapped roots f := not_not.mp fun unmapped => positive (last.mpr unmapped)
      simp [mapped']
  refine ⟨⟨⟨wrote.distinct counted.paged.unique root inside, ?_⟩, ?_, ?_, ?_, ?_, ?_, ?_⟩, ?_⟩
  · intro g table
    have table := (tables g).mp table
    rw [useds, wrote.npage]
    refine ⟨⟨(counted.paged.sound g table).1, ?_⟩, (counted.paged.sound g table).2⟩
    rintro rfl
    exact absurd table notTable
  · intro g inUse'
    obtain ⟨inUse, own⟩ := (useds g).mp inUse'
    rw [tables]
    by_cases same : g = f
    · rw [same]
      exact .inr (.inl (own same))
    · rw [still g same]
      exact counted.classes g inUse
  · intro g mapped'
    obtain ⟨inUse, rest⟩ := counted.mapped g (fewer g mapped')
    rw [useds, tables, wrote.npage]
    refine ⟨⟨inUse, ?_⟩, rest⟩
    rintro rfl
    exact mapped'
  · intro g mapped'
    by_cases same : g = f
    · rw [same]
      exact refHere
    · rw [refs g same, number, if_neg fun eq => same eq.symm, sub_zero]
      exact counted.count g (fewer g mapped')
  · intro g inHeld
    obtain ⟨inUse, range, rest, notOther, zero⟩ := counted.held g inHeld
    have apart : g ≠ f := by
      rintro rfl
      exact notHeld inHeld
    rw [useds, tables, wrote.npage, refs g apart]
    exact ⟨⟨inUse, fun same => absurd same apart⟩, range, rest, notOther, zero⟩
  · intro g inOther
    obtain ⟨inUse, rest⟩ := counted.other g inOther
    have apart : g ≠ f := by
      rintro rfl
      exact notOther inOther
    rw [useds, tables]
    exact ⟨⟨inUse, fun same => absurd same apart⟩, rest⟩
  · intro g unused
    by_cases same : g = f
    · subst same
      have unmapped : ¬ m'.Mapped roots g := fun mapped' => unused ((useds g).mpr ⟨inUse, fun _ => mapped'⟩)
      rw [refHere]
      exact not_not.mp fun counts => unmapped (mapped_iff.mpr counts)
    · rw [refs g same]
      exact counted.free g fun inUse => unused ((useds g).mpr ⟨inUse, fun eq => absurd eq same⟩)
  · rw [useds, not_and, Classical.not_imp]
    exact ⟨fun gone => (gone inUse).2, fun unmapped _ => ⟨rfl, unmapped⟩⟩

theorem Counted.pointed (full : entry pte = some page) (empty : m.target (r, v) = none) (user : page ∈ held ∨ m.Mapped roots page)
    (used : m'.used = m.used) (ref : m'.ref = Function.update m.ref page (m.ref page + 1)) :
    Counted roots (held \ {page}) other m' := by
  have tables := wrote.isTable counted.paged.unique root inside
  have number : ∀ g, m'.mappings roots g = m.mappings roots g + (if page = g then 1 else 0) := by
    intro g
    rw [mappings_wrote counted.paged.unique root inside wrote, empty, full]
    simp
  have facts : page ∈ m.used ∧ (nbase ≤ page ∧ page < m.npage) ∧ ¬ m.IsTable roots page ∧ page ∉ other ∧
      m.ref page = m.mappings roots page := by
    rcases user with inHeld | mapped
    · obtain ⟨inUse, range, notTable, notOther, zero⟩ := counted.held page inHeld
      refine ⟨inUse, range, notTable, notOther, ?_⟩
      rw [zero]
      by_contra counts
      exact (counted.mapped page (mapped_iff.mpr fun none => counts none.symm)).2.2.2.1 inHeld
    · obtain ⟨inUse, range, notTable, _, notOther⟩ := counted.mapped page mapped
      exact ⟨inUse, range, notTable, notOther, counted.count page mapped⟩
  obtain ⟨inUse, range, notTable, notOther, counts⟩ := facts
  have still : ∀ g, g ≠ page → (m'.Mapped roots g ↔ m.Mapped roots g) := by
    intro g apart
    rw [mapped_iff, mapped_iff, number, if_neg apart.symm, add_zero]
  have refs : ∀ g, g ≠ page → m'.ref g = m.ref g := by
    intro g apart
    rw [ref]
    exact Function.update_of_ne apart ..
  have mapped : m'.Mapped roots page :=
    ⟨r, root, v, inside, by rw [Mem.target, wrote.leaf counted.paged.unique root inside inside root, if_pos ⟨rfl, rfl⟩, full]⟩
  refine ⟨⟨wrote.distinct counted.paged.unique root inside, ?_⟩, ?_, ?_, ?_, ?_, ?_, ?_⟩
  · intro g table
    rw [used, wrote.npage]
    exact counted.paged.sound g ((tables g).mp table)
  · intro g inUse
    rw [used] at inUse
    rw [tables]
    by_cases same : g = page
    · rw [same]
      exact .inr (.inl mapped)
    · rw [still g same]
      exact (counted.classes g inUse).imp_right (.imp_right (.imp_left fun inHeld => ⟨inHeld, same⟩))
  · intro g mapped'
    rw [used, tables, wrote.npage]
    by_cases same : g = page
    · rw [same]
      exact ⟨inUse, range, notTable, fun inHeld => inHeld.2 rfl, notOther⟩
    · obtain ⟨inUse, range, notTable, notHeld, notOther⟩ := counted.mapped g ((still g same).mp mapped')
      exact ⟨inUse, range, notTable, fun inHeld => notHeld inHeld.1, notOther⟩
  · intro g mapped'
    rw [number]
    by_cases same : g = page
    · rw [same, if_pos rfl, ref, ← counts]
      exact Function.update_self ..
    · rw [refs g same, if_neg fun eq => same eq.symm, add_zero]
      exact counted.count g ((still g same).mp mapped')
  · intro g inHeld
    rw [used, tables, wrote.npage, refs g inHeld.2]
    exact counted.held g inHeld.1
  · intro g inOther
    rw [used, tables]
    exact counted.other g inOther
  · intro g unused
    rw [used] at unused
    rw [refs g ?_]
    · exact counted.free g unused
    · rintro rfl
      exact unused inUse

end Wrote

section Operations

variable {perm : BitVec 32} {code : Int} (counted : Counted roots held other m) (root : r ∈ roots) (user : la < userTop)
include counted

omit counted in
theorem target_some (isValid : valid (m.leaf r v) = true) : m.target (r, v) = some (pteFrame (m.leaf r v)) := if_pos isValid

omit counted in
theorem target_none (invalid : ¬ valid (m.leaf r v) = true) : m.target (r, v) = none := if_neg invalid

private theorem Counted.rewrote (root : r ∈ roots) (inside : v < userPages) (wrote : Wrote r v pte m m' t)
    (same : entry pte = m.target (r, v)) (used : m'.used = m.used) (ref : m'.ref = m.ref) : Counted roots held other m' := by
  have tables := wrote.isTable counted.paged.unique root inside
  have targets : ∀ r' ∈ roots, ∀ v' < userPages, m'.target (r', v') = m.target (r', v') := by
    intro r' root' v' inside'
    rw [Mem.target, wrote.leaf counted.paged.unique root inside inside' root']
    split
    next here =>
      rw [here.1, here.2]
      exact same
    next => rfl
  refine ⟨⟨wrote.distinct counted.paged.unique root inside, ?_⟩, ?_, ?_, ?_, ?_, ?_, ?_⟩
  · intro f table
    rw [used, wrote.npage]
    exact counted.paged.sound f ((tables f).mp table)
  · intro f inUse
    rw [used] at inUse
    rw [tables, mapped_congr targets]
    exact counted.classes f inUse
  · intro f mapped
    rw [used, tables, wrote.npage]
    exact counted.mapped f ((mapped_congr targets).mp mapped)
  · intro f mapped
    rw [ref, mappings_congr targets]
    exact counted.count f ((mapped_congr targets).mp mapped)
  · intro f inHeld
    rw [used, tables, wrote.npage, ref]
    exact counted.held f inHeld
  · intro f inOther
    rw [used, tables]
    exact counted.other f inOther
  · intro f unused
    rw [used] at unused
    rw [ref]
    exact counted.free f unused

theorem Counted.backed (root : r ∈ roots) (user : la < userTop) : m.Backed r la := by
  intro pte translated isValid
  rw [translation_eq counted.paged.addressable root user] at translated
  cases translated
  obtain ⟨inUse, range, _⟩ := counted.mapped _ ⟨r, root, _, page_of_user user, target_some isValid⟩
  exact ⟨range.1, range.2, inUse⟩

theorem Counted.managed (mine : page ∈ held ∨ m.Mapped roots page) : page ∈ m.used ∧ nbase ≤ page ∧ page < m.npage := by
  rcases mine with inHeld | mapped
  · exact ⟨(counted.held page inHeld).1, (counted.held page inHeld).2.1⟩
  · exact ⟨(counted.mapped page mapped).1, (counted.mapped page mapped).2.1⟩

private theorem Counted.swapped (root : r ∈ roots) (inside : v < userPages) (wrote : Wrote r v (pteCreate page (1 ||| perm)) m m' t)
    (flags : perm.toNat < 2 ^ 10) (mine : page ∈ held ∨ m.Mapped roots page) (used : m'.used = (m.swapped page (m.leaf r v)).used)
    (ref : m'.ref = (m.swapped page (m.leaf r v)).ref) : Counted roots (held \ {page}) other m' := by
  have small : page < 2 ^ 52 := lt_of_lt_of_le (counted.managed mine).2.2 m.npage_le
  have full : entry (pteCreate page (1 ||| perm)) = some page := entry_pteCreate small (or_flags flags)
  rw [Mem.swapped] at used ref
  by_cases isValid : valid (m.leaf r v) = true
  · rw [if_pos isValid] at used ref
    have here := target_some isValid
    generalize pteFrame (m.leaf r v) = f at used ref here
    by_cases same : f = page
    · subst same
      rw [if_pos rfl] at used ref
      have mapped : m.Mapped roots f := ⟨r, root, v, inside, here⟩
      have notHeld : held \ {f} = held := Set.sdiff_singleton_eq_self (counted.mapped f mapped).2.2.2.1
      rw [notHeld]
      refine counted.rewrote root inside wrote (full.trans here.symm) used ?_
      rw [ref]
      exact Function.update_eq_self f m.ref
    · rw [if_neg same] at used ref
      -- First the old mapping goes, and then the new one comes.
      obtain ⟨written, others, rest⟩ := setPte_word (m.dropped f) (t, v % 512) 0
      have clears : Wrote r v 0 m ((m.dropped f).setPte (t, v % 512) 0) t := ⟨wrote.table, written, others, rest, rfl, rfl, rfl⟩
      obtain ⟨cleared, _⟩ := counted.removed root inside clears entry_zero here rfl rfl
      have number := fun g => mappings_wrote counted.paged.unique root inside clears g
      have none : ((m.dropped f).setPte (t, v % 512) 0).target (r, v) = none := by
        rw [Mem.target, clears.leaf counted.paged.unique root inside inside root, if_pos ⟨rfl, rfl⟩]
        exact entry_zero
      have mine' : page ∈ held ∨ ((m.dropped f).setPte (t, v % 512) 0).Mapped roots page := by
        refine mine.imp_right fun mapped => ?_
        rw [mapped_iff] at mapped ⊢
        rw [number, here, if_neg fun eq => same (Option.some.inj eq), entry_zero]
        simpa using mapped
      have again : Wrote r v (pteCreate page (1 ||| perm)) ((m.dropped f).setPte (t, v % 512) 0) m' t := by
        refine ⟨?_, wrote.written, ?_, ?_, wrote.npage, wrote.heap⟩
        · exact (clears.node counted.paged.unique root inside _ (Radix.slot_inside inside) root).trans wrote.table
        · intro j apart
          exact (wrote.others j apart).trans (others j apart).symm
        · intro q apart
          exact (wrote.same q apart).trans (rest q apart).symm
      have apart : (m.setRef page (m.ref page + 1)).ref f = m.ref f := Function.update_of_ne same _ _
      refine cleared.pointed root inside again full none mine' ?_ ?_
      · rw [used, Mem.dropped, apart]
        rfl
      · have kept : (m.dropped f).ref page = m.ref page := Function.update_of_ne (Ne.symm same) _ _
        have kept : ((m.dropped f).setPte (t, v % 512) 0).ref page = m.ref page := kept
        rw [ref, kept, Mem.dropped, apart]
        exact Function.update_comm (Ne.symm same) _ _ m.ref
  · rw [if_neg isValid] at used ref
    exact counted.pointed root inside wrote full (target_none isValid) mine used ref

/-- `page_insert` keeps the books. The page is not held any more if it was mapped. -/
theorem Counted.pageInsert (root : r ∈ roots) (user : la < userTop) (flags : perm.toNat < 2 ^ 10)
    (mine : page ∈ held ∨ m.Mapped roots page) (inserted : m.pageInsert r page la perm = .ok (code, m')) :
    ∃ m₁, Grown roots r m m₁ ∧
      (code = -eNoMem ∧ m' = m₁ ∧ Counted roots held other m' ∧ m₁.node (tableOf r la) = none ∨
        code = 0 ∧ Counted roots (held \ {page}) other m' ∧ (page ∈ held → m'.ref page = 1) ∧
          ∃ t, Wrote r (la / pgSize) (pteCreate page (1 ||| perm)) m₁ m' t) := by
  obtain ⟨m₁, grown, result⟩ := pageInsert_ok counted.paged root user inserted
  have counted₁ := counted.grown root grown
  refine ⟨m₁, grown, ?_⟩
  rcases result with ⟨failed, rfl, missing⟩ | ⟨worked, t, wrote, used, ref⟩
  · exact .inl ⟨failed, rfl, counted₁, missing⟩
  · have inside := page_of_user user
    have mine₁ : page ∈ held ∨ m₁.Mapped roots page := by
      refine mine.imp_right fun mapped => ?_
      exact (mapped_congr fun r root v inside => congrArg entry (grown.leaf r root v inside)).mpr mapped
    rw [← grown.leaf r root _ inside] at used ref
    have counted' := counted₁.swapped root inside wrote flags mine₁ used ref
    refine .inr ⟨worked, counted', fun inHeld => ?_, t, wrote⟩
    have unmapped : ¬ m₁.Mapped roots page := fun mapped => (counted₁.mapped page mapped).2.2.2.1 inHeld
    have zero : m₁.mappings roots page = 0 := not_not.mp fun counts => unmapped (mapped_iff.mpr counts)
    have elsewhere : m₁.target (r, la / pgSize) ≠ some page := fun here => unmapped ⟨r, root, _, inside, here⟩
    have small : page < 2 ^ 52 := lt_of_lt_of_le (counted.managed mine).2.2 m.npage_le
    have one : m'.mappings roots page = 1 := by
      rw [mappings_wrote counted₁.paged.unique root inside wrote, zero, if_neg elsewhere, entry_pteCreate small (or_flags flags),
        if_pos rfl]
      rfl
    rw [counted'.count page (mapped_iff.mpr (by rw [one]; decide)), one]

theorem Counted.pageRemove (root : r ∈ roots) (user : la < userTop) (removed : m.pageRemove r la = .ok m') :
    Counted roots held other m' := by
  rcases pageRemove_ok counted.paged.addressable root user removed with ⟨_, rfl⟩ | ⟨isValid, _, _, t, wrote, used, ref⟩
  · exact counted
  · exact (counted.removed root (page_of_user user) wrote entry_zero (target_some isValid) used ref).1

/-- `pgdir_alloc_page` keeps the books, and its assertion holds. It changes at most the mapping of its page. -/
theorem Counted.pgdirAllocPage (root : r ∈ roots) (user : la < userTop) (flags : perm.toNat < 2 ^ 10) :
    ∃ found m', m.pgdirAllocPage r la perm = .ok (found, m') ∧ Counted roots held other m' ∧ m'.npage = m.npage ∧
      ∀ r' ∈ roots, ∀ v < userPages, ¬ (r' = r ∧ v = la / pgSize) → m'.target (r', v) = m.target (r', v) := by
  unfold Mem.pgdirAllocPage
  cases asked : m.allocPage with
  | mk answer m₁ =>
    cases answer with
    | none =>
      have counted₁ := counted.asked asked
      obtain rfl := allocPage_none asked
      exact ⟨none, _, rfl, counted₁, rfl, fun _ _ _ _ _ => rfl⟩
    | some page =>
      have counted₁ := counted.alloc asked
      obtain ⟨unused, _, _, grew⟩ := allocPage_some asked
      have notHeld : page ∉ held := fun inHeld => unused (counted.held page inHeld).1
      have mine : page ∈ insert page held := Set.mem_insert page held
      have before : ∀ place, m₁.target place = m.target place := by
        rw [grew]
        exact fun _ => rfl
      have number : m₁.npage = m.npage := by rw [grew]
      obtain ⟨code, m₂, inserted⟩ := pageInsert_returns page perm counted₁.paged root user (counted₁.backed root user)
      dsimp only
      rw [inserted, ok_bind]
      dsimp only
      obtain ⟨m', grown, ⟨rfl, rfl, counted₂, _⟩ | ⟨rfl, counted₂, single, t, wrote⟩⟩ := counted₁.pageInsert root user flags (.inl mine) inserted
      · obtain ⟨m₃, freed, word, npage, counted₃⟩ := counted₂.freePage mine
        rw [if_pos (by decide), freed, ok_bind]
        rw [Set.insert_sdiff_self_of_notMem notHeld] at counted₃
        refine ⟨none, m₃, rfl, counted₃, ?_, ?_⟩
        · rw [npage, grown.npage, number]
        · intro r' root' v inside _
          rw [← before, Mem.target, Mem.target, ← grown.leaf r' root' v inside, Mem.leaf, Mem.leaf, word]
      · rw [Set.insert_sdiff_self_of_notMem notHeld] at counted₂
        rw [if_neg (by decide), single mine]
        refine ⟨some page, m₂, rfl, counted₂, ?_, ?_⟩
        · rw [wrote.npage, grown.npage, number]
        · intro r' root' v inside away
          rw [← before, Mem.target, Mem.target, wrote.leaf grown.paged.unique root (page_of_user user) inside root', if_neg away,
            grown.leaf r' root' v inside]

end Operations

end Ucore
