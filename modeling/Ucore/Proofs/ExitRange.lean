import Mathlib
import Ucore.Proofs.UnmapRange

/-! `exit_range`: page tables without a valid entry are given back, and a level 0 directory
if every slot of it that the range touches had a page table. -/

namespace Ucore
open Lib

namespace Mem

/-- No page is mapped in the 2 MB with the number `s`. -/
def Vacant (m : Mem) (r : Frame) (s : Nat) : Prop := ∀ j < 512, m.target (r, s * 512 + j) = none

instance (m : Mem) (r : Frame) (s : Nat) : Decidable (m.Vacant r s) :=
  decidable_of_iff (∀ j ∈ List.range 512, m.target (r, s * 512 + j) = none) (by simp only [List.mem_range, Mem.Vacant])

/-- The slots of the 1 GB region `i` that have a page table, if the region has a directory. -/
def tables (m : Mem) (r : Frame) (i : Nat) : Option (Finset Nat) :=
  (m.node (.dir r i)).map fun _ => (Finset.Ico (i * 512) ((i + 1) * 512)).filter fun s => (m.node (.table r s)).isSome = true

end Mem

/-- What is left of the tables of a region behind `exit_range` for the slots `S`: nothing if they
all had a table, and otherwise the tables that are not vacant slots of `S`. -/
def prune (vacant : Nat → Prop) [DecidablePred vacant] (S : Finset Nat) : Option (Finset Nat) → Option (Finset Nat)
  | none => none
  | some T => if S.Nonempty ∧ S ⊆ T then none else some (T.filter fun s => ¬ (s ∈ S ∧ vacant s))

/-- The slots from `lo` on and before `hi` in the region `i`. -/
def slotsOf (lo hi i : Nat) : Finset Nat := (Finset.Ico lo hi).filter fun s => s / 512 = i

/-- The frames that `exit_range` gives back for the slots from `lo` on and before `hi`. -/
def Mem.Returned (m : Mem) (r : Frame) (lo hi : Nat) : Set Frame :=
  {f | ∃ s, lo ≤ s ∧ s < hi ∧ m.Vacant r s ∧ m.node (.table r s) = some f} ∪
    {f | ∃ i < top, (slotsOf lo hi i).Nonempty ∧ (∀ s ∈ slotsOf lo hi i, m.node (.table r s) ≠ none) ∧ m.node (.dir r i) = some f}

/-- Between the two states frames of the tree of `r` were given back, and places of it became
empty. What is mapped by a page table that is still there is mapped as before. -/
structure Pruned (roots : Finset Frame) (r : Frame) (freed : Set Frame) (m m' : Mem) : Prop where
  node : ∀ n : Node Frame, n.Inside top 512 → n.owner ∈ roots → m'.node n = m.node n ∨ m'.node n = none ∧ n.owner = r ∧ n.Proper
  leaf : ∀ r' ∈ roots, ∀ v < userPages, m'.node (.table r' (v / 512)) ≠ none → m'.leaf r' v = m.leaf r' v
  gone : ∀ f ∈ freed, m.IsTable {r} f ∧ ¬ m'.IsTable roots f
  used : ∀ f, f ∈ m'.used ↔ f ∈ m.used ∧ f ∉ freed
  kept : ∀ f, f ∉ freed → m'.ref f = m.ref f
  zero : ∀ f ∈ freed, m'.ref f = 0
  npage : m'.npage = m.npage

variable {roots : Finset Frame} {held other : Set Frame} {freed freed' : Set Frame} {m m' m'' : Mem} {r d t f : Frame}
  {n : Node Frame} {i s lo hi start stop fuel : Nat}

theorem Pruned.refl : Pruned roots r ∅ m m :=
  ⟨fun _ _ _ => .inl rfl, fun _ _ _ _ _ => rfl, fun _ inside => absurd inside (Set.notMem_empty _),
    fun f => ⟨fun inUse => ⟨inUse, Set.notMem_empty f⟩, fun both => both.1⟩, fun _ _ => rfl,
    fun _ inside => absurd inside (Set.notMem_empty _), rfl⟩

theorem Pruned.table (pruned : Pruned roots r freed m m') {all : Finset Frame} (less : all ⊆ roots) (table : m'.IsTable all f) :
    m.IsTable all f := by
  obtain ⟨n, inside, owned, found⟩ := table
  refine ⟨n, inside, owned, ?_⟩
  rcases pruned.node n inside (less owned) with same | ⟨gone, _⟩
  · rw [← found]
    exact same.symm
  · have found : m'.node n = some f := found
    rw [gone] at found
    cases found

theorem Pruned.trans (root : r ∈ roots) (first : Pruned roots r freed m m') (second : Pruned roots r freed' m' m'') :
    Pruned roots r (freed ∪ freed') m m'' where
  node n inside owned := by
    rcases second.node n inside owned with same | gone
    · rw [same]
      exact first.node n inside owned
    · exact .inr gone
  leaf r' root' v inside there := by
    have before : m'.node (.table r' (v / 512)) ≠ none := by
      intro missing
      rcases second.node (.table r' (v / 512)) (Radix.slot_inside inside) root' with same | gone
      · exact there (same.trans missing)
      · exact there gone.1
    rw [second.leaf r' root' v inside there, first.leaf r' root' v inside before]
  gone f inside := by
    have single : ({r} : Finset Frame) ⊆ roots := Finset.singleton_subset_iff.mpr root
    rcases inside with early | late
    · exact ⟨(first.gone f early).1, fun table => (first.gone f early).2 (second.table subset_rfl table)⟩
    · exact ⟨first.table single (second.gone f late).1, (second.gone f late).2⟩
  used f := by
    rw [second.used, first.used, Set.mem_union, not_or, and_assoc]
  kept f outside := by
    rw [Set.mem_union, not_or] at outside
    rw [second.kept f outside.2, first.kept f outside.1]
  zero f inside := by
    by_cases late : f ∈ freed'
    · exact second.zero f late
    · rw [second.kept f late]
      exact first.zero f (inside.resolve_right late)
  npage := second.npage.trans first.npage

theorem Pruned.paged (paged : Paged roots m) (pruned : Pruned roots r freed m m') : Paged roots m' := by
  have before : ∀ n : Node Frame, n.Inside top 512 → n.owner ∈ roots → ∀ f, m'.node n = some f → m.node n = some f := by
    intro n inside owned f found
    rcases pruned.node n inside owned with same | gone
    · rw [← found]
      exact same.symm
    · rw [gone.1] at found
      cases found
  constructor
  · intro n n' inside inside' owned owned' f found found'
    exact paged.unique n n' inside inside' owned owned' f (before n inside owned f found) (before n' inside' owned' f found')
  · intro f table
    obtain ⟨inUse, range⟩ := paged.sound f (pruned.table subset_rfl table)
    rw [pruned.used, pruned.npage]
    exact ⟨⟨inUse, fun gone => (pruned.gone f gone).2 table⟩, range⟩

/-- The frame at a place is given back, and the entry for it becomes zero. -/
theorem Paged.cut (paged : Paged roots m) (owned : n.owner ∈ roots) (proper : n.Proper) (inside : n.Inside top 512)
    (above : m.node (n.parent 512) = some d) (found : m.node n = some t) :
    ∃ m₁, m.freePage t = .ok m₁ ∧ Pruned roots n.owner {t} m (m₁.setWord d (n.index 512) 0) ∧
      (∀ n' : Node Frame, n' = n ∨ n'.parent 512 = n → (m₁.setWord d (n.index 512) 0).node n' = none) ∧
      ∀ n' : Node Frame, n'.Inside top 512 → n'.owner ∈ roots → n' ≠ n → n'.parent 512 ≠ n →
        (m₁.setWord d (n.index 512) 0).node n' = m.node n' := by
  have table : m.IsTable roots t := ⟨n, inside, owned, found⟩
  have freePage : m.freePage t = .ok { m with
      used := m.used.filter (· ∉ [t])
      ref := fun f => if f ∈ [t] then 0 else m.ref f } := by
    unfold Mem.freePage Mem.freePages
    rw [List.range'_one, if_pos (by simpa using (paged.sound t table).1)]
  refine ⟨_, freePage, ?_⟩
  generalize after : ({ m with used := m.used.filter (· ∉ [t]), ref := fun f => if f ∈ [t] then 0 else m.ref f } : Mem).setWord d
    (n.index 512) 0 = m'
  have written : m'.word d (n.index 512) = 0 := by
    rw [← after]
    simp [Mem.setWord]
  have relinked : Radix.Relinked entry 512 m.word top roots n d m'.word := by
    refine ⟨proper, inside, owned, above, ?_⟩
    intro q j _ away
    rw [← after]
    by_cases own : q = d
    · have other : j ≠ n.index 512 := fun same => away ⟨own, same⟩
      simp [Mem.setWord, own, other]
    · simp [Mem.setWord, own]
  have here : m'.node n = none := by
    rw [Mem.node, relinked.here paged.unique, written]
    exact entry_zero
  have empty : ∀ n' : Node Frame, n' = n ∨ n'.parent 512 = n → m'.node n' = none := by
    intro n' place
    rcases place with rfl | under
    · exact here
    · have proper' : n'.Proper := by
        cases n' with
        | root q =>
          rw [← under] at proper
          cases proper
        | dir q i => trivial
        | table q s => trivial
      exact Radix.nodeAt_none proper' (by rw [under]; exact here)
  have same : ∀ n' : Node Frame, n'.Inside top 512 → n'.owner ∈ roots → n' ≠ n → n'.parent 512 ≠ n → m'.node n' = m.node n' :=
    fun n' inside' owned' own under => relinked.other paged.unique inside' owned' own under
  have used : ∀ f, f ∈ m'.used ↔ f ∈ m.used ∧ f ≠ t := by
    intro f
    rw [← after]
    show f ∈ m.used.filter (· ∉ [t]) ↔ _
    simp
  have ref : ∀ f, m'.ref f = if f = t then 0 else m.ref f := by
    intro f
    rw [← after]
    show (if f ∈ [t] then 0 else m.ref f) = _
    simp only [List.mem_singleton]
  refine ⟨⟨?_, ?_, ?_, used, ?_, ?_, by rw [← after]; rfl⟩, empty, same⟩
  · intro n' inside' owned'
    by_cases place : n' = n ∨ n'.parent 512 = n
    · refine .inr ⟨empty n' place, ?_, ?_⟩
      · rcases place with rfl | rfl
        · rfl
        · exact Radix.parent_owner.symm
      · cases n' with
        | root q =>
          rcases place with rfl | under
          · exact proper
          · rw [← under] at proper
            exact proper
        | dir q i => trivial
        | table q s => trivial
    · rw [not_or] at place
      exact .inl (same n' inside' owned' place.1 place.2)
  · intro r' root' v bound there
    have apart : ¬ (Node.table r' (v / 512) = n ∨ (Node.table r' (v / 512)).parent 512 = n) := fun place => there (empty _ place)
    rw [not_or] at apart
    exact relinked.leaf paged.unique bound root' apart.1 apart.2
  · intro f own
    obtain rfl : f = t := own
    refine ⟨⟨n, inside, Finset.mem_singleton_self _, found⟩, ?_⟩
    intro table'
    obtain ⟨n', inside', owned', found'⟩ := table'
    have found' : m'.node n' = some f := found'
    by_cases place : n' = n ∨ n'.parent 512 = n
    · rw [empty n' place] at found'
      cases found'
    · rw [not_or] at place
      rw [same n' inside' owned' place.1 place.2] at found'
      exact place.1 (paged.unique n' n inside' inside owned' owned f found' found)
  · intro f outside
    exact (ref f).trans (if_neg outside)
  · intro f own
    exact (ref f).trans (if_pos own)

/-- The first slot behind a range that ends at `stop`. -/
def lastSlot (stop : Nat) : Nat := (stop + ptSize - 1) / ptSize

/-- Some tables of the slots from `lo` on and before `hi` were given back: those without a page. -/
structure Swept (roots : Finset Frame) (r : Frame) (lo hi : Nat) (m m' : Mem) : Prop where
  pruned : Pruned roots r {f | ∃ s, lo ≤ s ∧ s < hi ∧ m.Vacant r s ∧ m.node (.table r s) = some f} m m'
  gone : ∀ s, lo ≤ s → s < hi → m.Vacant r s → m'.node (.table r s) = none
  node : ∀ n : Node Frame, n.Inside top 512 → n.owner ∈ roots → ¬ (∃ s, n = .table r s ∧ lo ≤ s ∧ s < hi ∧ m.Vacant r s) →
    m'.node n = m.node n

theorem vacant_target (vacant : m.Vacant r s) {v : Nat} (slot : v / 512 = s) : m.target (r, v) = none := by
  have place : v = s * 512 + v % 512 := by omega
  rw [place]
  exact vacant (v % 512) (Nat.mod_lt _ (by decide))

theorem Swept.target (swept : Swept roots r lo hi m m') : ∀ r' ∈ roots, ∀ v < userPages, m'.target (r', v) = m.target (r', v) := by
  intro r' root' v inside
  by_cases there : m'.node (.table r' (v / 512)) = none
  · rw [target_missing there]
    by_cases place : ∃ s, Node.table r' (v / 512) = .table r s ∧ lo ≤ s ∧ s < hi ∧ m.Vacant r s
    · obtain ⟨s, same, _, _, vacant⟩ := place
      obtain ⟨rfl, slot⟩ := Node.table.inj same
      exact (vacant_target vacant slot).symm
    · rw [swept.node _ (Radix.slot_inside inside) root' place] at there
      exact (target_missing there).symm
  · exact congrArg entry (swept.pruned.leaf r' root' v inside there)

theorem vacant_congr (same : ∀ v < userPages, m'.target (r, v) = m.target (r, v)) (inside : s < top * 512) :
    m'.Vacant r s ↔ m.Vacant r s := by
  refine forall₂_congr fun j low => ?_
  have within : s * 512 + j < userPages := by
    unfold userPages
    omega
  rw [same _ within]

theorem Swept.nothing (empty : lo = hi ∨ hi = lo + 1 ∧ (m.node (.table r lo) = none ∨ ¬ m.Vacant r lo)) : Swept roots r lo hi m m := by
  have none : {f | ∃ s, lo ≤ s ∧ s < hi ∧ m.Vacant r s ∧ m.node (.table r s) = some f} = ∅ := by
    refine Set.eq_empty_of_forall_notMem ?_
    intro f inside
    obtain ⟨s, low, high, vacant, found⟩ := inside
    rcases empty with rfl | ⟨rfl, missing | full⟩
    · exact absurd low (not_le.mpr high)
    · obtain rfl : s = lo := Nat.le_antisymm (Nat.le_of_lt_succ high) low
      rw [missing] at found
      cases found
    · obtain rfl : s = lo := Nat.le_antisymm (Nat.le_of_lt_succ high) low
      exact full vacant
  refine ⟨?_, ?_, fun _ _ _ _ => rfl⟩
  · rw [none]
    exact .refl
  · intro s low high vacant
    rcases empty with rfl | ⟨rfl, missing | full⟩
    · exact absurd low (not_le.mpr high)
    · obtain rfl : s = lo := Nat.le_antisymm (Nat.le_of_lt_succ high) low
      exact missing
    · obtain rfl : s = lo := Nat.le_antisymm (Nat.le_of_lt_succ high) low
      exact absurd vacant full

theorem Swept.trans (root : r ∈ roots) (first : Swept roots r lo mid m m') (second : Swept roots r mid hi m' m'') (before : lo ≤ mid)
    (behind : mid ≤ hi) (below : hi ≤ top * 512) : Swept roots r lo hi m m'' := by
  have vacant : ∀ s < hi, (m'.Vacant r s ↔ m.Vacant r s) :=
    fun s high => vacant_congr (fun v inside => first.target r root v inside) (lt_of_lt_of_le high below)
  have later : ∀ s, mid ≤ s → s < hi → m'.node (.table r s) = m.node (.table r s) := by
    intro s low high
    refine first.node _ (show s < top * 512 from lt_of_lt_of_le high below) root ?_
    intro early
    obtain ⟨x, same, _, high, _⟩ := early
    obtain rfl := (Node.table.inj same).2
    exact absurd low (not_le.mpr high)
  have all : {f | ∃ s, lo ≤ s ∧ s < hi ∧ m.Vacant r s ∧ m.node (.table r s) = some f} =
      {f | ∃ s, lo ≤ s ∧ s < mid ∧ m.Vacant r s ∧ m.node (.table r s) = some f} ∪
        {f | ∃ s, mid ≤ s ∧ s < hi ∧ m'.Vacant r s ∧ m'.node (.table r s) = some f} := by
    ext f
    constructor
    · intro inside
      obtain ⟨s, low, high, empty, found⟩ := inside
      by_cases early : s < mid
      · exact .inl ⟨s, low, early, empty, found⟩
      · have late := not_lt.mp early
        exact .inr ⟨s, late, high, (vacant s high).mpr empty, (later s late high).trans found⟩
    · intro inside
      rcases inside with ⟨s, low, high, empty, found⟩ | ⟨s, low, high, empty, found⟩
      · exact ⟨s, low, lt_of_lt_of_le high behind, empty, found⟩
      · exact ⟨s, le_trans before low, high, (vacant s high).mp empty, (later s low high).symm.trans found⟩
  constructor
  · rw [all]
    exact first.pruned.trans root second.pruned
  · intro s low high empty
    by_cases early : s < mid
    · rcases second.pruned.node (.table r s) (show s < top * 512 from lt_of_lt_of_le high below) root with same | gone
      · exact same.trans (first.gone s low early empty)
      · exact gone.1
    · exact second.gone s (not_lt.mp early) high ((vacant s high).mpr empty)
  · intro n inside owned away
    rw [second.node n inside owned, first.node n inside owned]
    · intro early
      obtain ⟨s, same, low, high, empty⟩ := early
      exact away ⟨s, same, low, lt_of_lt_of_le high behind, empty⟩
    · intro late
      obtain ⟨s, same, low, high, empty⟩ := late
      exact away ⟨s, same, le_trans before low, high, (vacant s high).mp empty⟩

private theorem pde2page_table (paged : Paged roots m) (n : Node Frame) (inside : n.Inside top 512) (owned : n.owner ∈ roots) (proper : n.Proper)
    (above : m.node (n.parent 512) = some d) (found : m.node n = some t) :
    valid (m.word d (n.index 512)) = true ∧ m.pde2page (m.word d (n.index 512)) = .ok t := by
  have place : m.node n = entry (m.word d (n.index 512)) := Radix.nodeAt_some proper above
  have known := entry_valid (place.symm.trans found)
  have range := (paged.sound t ⟨n, inside, owned, found⟩).2
  refine ⟨known.1, ?_⟩
  rw [Mem.pde2page, known.2, if_neg (not_le.mpr range.2), if_neg (not_lt.mpr range.1)]

private theorem table_vacant (found : m.node (.table r s) = some t) : (∃ index ∈ List.range 512, valid (m.word t index) = true) ↔ ¬ m.Vacant r s := by
  have leaf : ∀ j < 512, m.leaf r (s * 512 + j) = m.word t j := by
    intro j low
    have slot : (s * 512 + j) / 512 = s := by omega
    have index : (s * 512 + j) % 512 = j := by omega
    rw [Mem.leaf, Radix.leafAt_some (by rw [slot]; exact found), index]
  constructor
  · intro full vacant
    obtain ⟨j, low, isValid⟩ := full
    rw [List.mem_range] at low
    have nothing := vacant j low
    rw [Mem.target, leaf j low] at nothing
    exact entry_invalid nothing isValid
  · intro full
    by_contra invalid
    refine full fun j low => ?_
    rw [Mem.target, leaf j low, entry, if_neg]
    exact fun isValid => invalid ⟨j, List.mem_range.mpr low, isValid⟩

theorem slot_next (low : s < top * 512) : wrap (s * ptSize + ptSize) = (s + 1) * ptSize := by
  unfold top at low
  unfold wrap ptSize pgSize
  omega

theorem region_next (low : i < top) : wrap (i * pdSize + pdSize) = (i + 1) * pdSize := by
  unfold top at low
  unfold wrap pdSize ptSize pgSize
  omega

private theorem slot_goes (bound : hi = min ((i + 1) * 512) (lastSlot stop)) :
    ((lo + 1) * ptSize ≠ 0 ∧ (lo + 1) * ptSize < (i + 1) * pdSize ∧ (lo + 1) * ptSize < stop) ↔ lo + 1 < hi := by
  rw [bound]
  unfold lastSlot pdSize ptSize pgSize
  omega

section Tables

variable (paged : Paged roots m) (root : r ∈ roots)
include paged root

private theorem exitTable_spec (low : s < top * 512) (dir : m.node (.dir r (s / 512)) = some d) (flag : Bool) :
    ∃ m', m.exitTable d (s * ptSize) flag = .ok (flag && (m.node (.table r s)).isSome, m') ∧ Swept roots r s (s + 1) m m' := by
  have index : pdx0 (s * ptSize) = (Node.table r s).index 512 := by
    show s * ptSize / 2 ^ 21 % 512 = s % 512
    unfold ptSize pgSize
    omega
  rw [Mem.exitTable, index]
  have place : m.node (.table r s) = entry (m.word d ((Node.table r s).index 512)) := Radix.nodeAt_some trivial dir
  cases found : m.node (.table r s) with
  | none =>
    rw [if_neg (entry_invalid (place.symm.trans found)), Option.isSome_none, Bool.and_false]
    exact ⟨m, rfl, .nothing (.inr ⟨rfl, .inl found⟩)⟩
  | some t =>
    obtain ⟨isValid, address⟩ := pde2page_table paged (.table r s) low root trivial dir found
    rw [if_pos isValid, address, ok_bind, Option.isSome_some, Bool.and_true]
    by_cases vacant : m.Vacant r s
    · rw [if_neg fun full => (table_vacant found).mp full vacant]
      obtain ⟨m₁, freed, pruned, gone, others⟩ := paged.cut (n := .table r s) root trivial low dir found
      rw [freed, ok_bind]
      have only : {f | ∃ x, s ≤ x ∧ x < s + 1 ∧ m.Vacant r x ∧ m.node (.table r x) = some f} = {t} := by
        ext f
        constructor
        · intro inside
          obtain ⟨x, low, high, _, here⟩ := inside
          obtain rfl : x = s := Nat.le_antisymm (Nat.le_of_lt_succ high) low
          exact (Option.some.inj (found.symm.trans here)).symm
        · intro same
          obtain rfl : f = t := same
          exact ⟨s, le_rfl, Nat.lt_succ_self s, vacant, found⟩
      refine ⟨_, rfl, ?_, ?_, ?_⟩
      · rw [only]
        exact pruned
      · intro x low high _
        obtain rfl : x = s := Nat.le_antisymm (Nat.le_of_lt_succ high) low
        exact gone _ (.inl rfl)
      · intro n inside owned away
        refine others n inside owned (fun same => away ⟨s, same, le_rfl, Nat.lt_succ_self s, vacant⟩) ?_
        cases n with
        | root q => exact fun same => by cases same
        | dir q i => exact fun same => by cases same
        | table q x => exact fun same => by cases same
    · rw [if_pos ((table_vacant found).mpr vacant)]
      exact ⟨m, rfl, .nothing (.inr ⟨rfl, .inr vacant⟩)⟩

private theorem exitTables_spec (dir : m.node (.dir r i) = some d) (region : i < top) (low : i * 512 ≤ lo) (more : lo < hi)
    (bound : hi = min ((i + 1) * 512) (lastSlot stop)) (enough : hi - lo ≤ fuel) (flag : Bool) :
    ∃ flag' m', m.exitTables d (i * pdSize) stop fuel (lo * ptSize) flag = .ok (flag', m') ∧ Swept roots r lo hi m m' ∧
      (flag' = true ↔ flag = true ∧ ∀ s, lo ≤ s → s < hi → (m.node (.table r s)).isSome = true) := by
  induction fuel generalizing lo m flag with
  | zero => omega
  | succ fuel ih =>
    have high : hi ≤ (i + 1) * 512 := by omega
    have below : hi ≤ top * 512 := le_trans high (Nat.mul_le_mul_right 512 region)
    have slot : lo / 512 = i := by omega
    obtain ⟨m₁, round, swept⟩ := exitTable_spec paged root (lt_of_lt_of_le more below) (by rw [slot]; exact dir) flag
    have next := slot_next (lt_of_lt_of_le more below)
    have last := region_next region
    rw [Mem.exitTables, round, ok_bind]
    dsimp only
    rw [next, last]
    have goes := @slot_goes i lo hi stop bound
    by_cases again : lo + 1 < hi
    · rw [if_pos (goes.mpr again)]
      have paged₁ := swept.pruned.paged paged
      have dir₁ : m₁.node (.dir r i) = some d := by
        rw [swept.node (.dir r i) region root]
        · exact dir
        · intro table
          obtain ⟨s, same, _⟩ := table
          cases same
      obtain ⟨flag', m', looped, swept', all⟩ := ih paged₁ dir₁ (by omega) again (by omega) (flag && (m.node (.table r lo)).isSome)
      refine ⟨flag', m', looped, swept.trans root swept' (Nat.le_succ lo) again.le below, ?_⟩
      have later : ∀ s, lo + 1 ≤ s → s < hi → m₁.node (.table r s) = m.node (.table r s) := by
        intro s low high
        refine swept.node _ (show s < top * 512 from lt_of_lt_of_le high below) root ?_
        intro early
        obtain ⟨x, same, _, less, _⟩ := early
        obtain rfl := (Node.table.inj same).2
        exact absurd low (not_le.mpr less)
      rw [all, Bool.and_eq_true, and_assoc]
      refine and_congr_right fun _ => ?_
      constructor
      · intro both s low high
        by_cases first : s = lo
        · rw [first]
          exact both.1
        · rw [← later s (by omega) high]
          exact both.2 s (by omega) high
      · intro both
        refine ⟨both lo le_rfl more, fun s low high => ?_⟩
        rw [later s low high]
        exact both s (by omega) high
    · rw [if_neg fun loops => again (goes.mp loops)]
      have only : lo + 1 = hi := by omega
      rw [only] at swept
      refine ⟨_, m₁, rfl, swept, ?_⟩
      rw [Bool.and_eq_true]
      refine and_congr_right fun _ => ?_
      constructor
      · intro here s low high
        obtain rfl : s = lo := by omega
        exact here
      · exact fun both => both lo le_rfl more

end Tables

/-- `exit_range` went over the slots from `lo` on and before `hi`. -/
structure Exited (roots : Finset Frame) (r : Frame) (lo hi : Nat) (m m' : Mem) : Prop where
  pruned : Pruned roots r (m.Returned r lo hi) m m'
  tables : ∀ i < top, m'.tables r i = prune (m.Vacant r) (slotsOf lo hi i) (m.tables r i)
  dirs : ∀ i < top, slotsOf lo hi i = ∅ → m'.node (.dir r i) = m.node (.dir r i)

theorem mem_slotsOf : s ∈ slotsOf lo hi i ↔ (lo ≤ s ∧ s < hi) ∧ s / 512 = i := by
  rw [slotsOf, Finset.mem_filter, Finset.mem_Ico]

theorem prune_empty (vacant : Nat → Prop) [DecidablePred vacant] (T : Option (Finset Nat)) : prune vacant ∅ T = T := by
  cases T with
  | none => rfl
  | some T => simp [prune]

theorem prune_congr {vacant vacant' : Nat → Prop} [DecidablePred vacant] [DecidablePred vacant'] {S : Finset Nat} {T : Option (Finset Nat)}
    (same : ∀ T' ∈ T, ∀ s ∈ T', (vacant' s ↔ vacant s)) : prune vacant' S T = prune vacant S T := by
  cases T with
  | none => rfl
  | some T =>
    dsimp only [prune]
    by_cases all : S.Nonempty ∧ S ⊆ T
    · rw [if_pos all, if_pos all]
    · rw [if_neg all, if_neg all]
      refine congrArg some (Finset.ext fun s => ?_)
      rw [Finset.mem_filter, Finset.mem_filter]
      exact and_congr_right fun inside => by rw [same T rfl s inside]

theorem mem_tables {T : Finset Nat} (here : m.tables r i = some T) : s ∈ T ↔ s / 512 = i ∧ m.node (.table r s) ≠ none := by
  obtain ⟨d, _, rfl⟩ := Option.map_eq_some_iff.mp here
  rw [Finset.mem_filter, Finset.mem_Ico, Option.isSome_iff_ne_none]
  refine and_congr_left fun _ => ?_
  omega

theorem tables_none : m.tables r i = none ↔ m.node (.dir r i) = none := Option.map_eq_none_iff

theorem table_missing (missing : m.node (.dir r (s / 512)) = none) : m.node (.table r s) = none := Radix.nodeAt_none trivial missing

theorem tables_congr (dir : m'.node (.dir r i) = m.node (.dir r i)) (same : ∀ s, s / 512 = i → m'.node (.table r s) = m.node (.table r s)) :
    m'.tables r i = m.tables r i := by
  rw [Mem.tables, Mem.tables, dir]
  refine congrArg (fun f => Option.map f (m.node (.dir r i))) ?_
  funext _
  refine Finset.filter_congr fun s inside => ?_
  rw [Finset.mem_Ico] at inside
  rw [same s (by omega)]

private theorem slots_region (low : i * 512 ≤ lo) (high : hi ≤ (i + 1) * 512) (j : Nat) :
    s ∈ slotsOf lo hi j ↔ (lo ≤ s ∧ s < hi) ∧ j = i := by
  rw [mem_slotsOf]
  refine and_congr_right fun within => ?_
  omega

private theorem exited_nothing (low : i * 512 ≤ lo) (high : hi ≤ (i + 1) * 512) (dir : m.node (.dir r i) = none) :
    Exited roots r lo hi m m := by
  have missing : ∀ s, lo ≤ s → s < hi → m.node (.table r s) = none := by
    intro s lowS highS
    refine table_missing ?_
    rw [show s / 512 = i by omega]
    exact dir
  have given : m.Returned r lo hi = ∅ := by
    refine Set.eq_empty_of_forall_notMem fun f inside => ?_
    rcases inside with ⟨s, lowS, highS, _, found⟩ | ⟨j, _, ⟨s, member⟩, _, found⟩
    · rw [missing s lowS highS] at found
      cases found
    · rw [((slots_region low high j).mp member).2, dir] at found
      cases found
  refine ⟨?_, ?_, fun _ _ _ => rfl⟩
  · rw [given]
    exact .refl
  · intro j inside
    by_cases same : j = i
    · rw [same, tables_none.mpr dir]
      rfl
    · have none : slotsOf lo hi j = ∅ := by
        refine Finset.eq_empty_of_forall_notMem fun s member => ?_
        exact same ((slots_region low high j).mp member).2
      rw [none, prune_empty]

section Dirs

variable (paged : Paged roots m) (root : r ∈ roots) (region : i < top) (low : i * 512 ≤ lo) (more : lo < hi)
include paged root region low more

omit paged more in
private theorem Swept.exited (high : hi ≤ (i + 1) * 512) (dir : m.node (.dir r i) = some d) (swept : Swept roots r lo hi m m')
    (partly : ¬ ∀ s, lo ≤ s → s < hi → (m.node (.table r s)).isSome = true) : Exited roots r lo hi m m' := by
  have dirs : ∀ j < top, m'.node (.dir r j) = m.node (.dir r j) := by
    intro j inside
    refine swept.node (.dir r j) inside root ?_
    intro table
    obtain ⟨s, same, _⟩ := table
    cases same
  obtain ⟨hole, lowHole, highHole, missing⟩ : ∃ s, lo ≤ s ∧ s < hi ∧ m.node (.table r s) = none := by
    simpa only [not_forall, exists_prop, Option.not_isSome_iff_eq_none] using partly
  have given : m.Returned r lo hi = {f | ∃ s, lo ≤ s ∧ s < hi ∧ m.Vacant r s ∧ m.node (.table r s) = some f} := by
    refine Set.union_eq_left.mpr ?_
    intro f inside
    obtain ⟨j, _, ⟨s, member⟩, all, _⟩ := inside
    obtain rfl := ((slots_region low high j).mp member).2
    exact absurd missing (all hole ((slots_region low high j).mpr ⟨⟨lowHole, highHole⟩, rfl⟩))
  refine ⟨?_, ?_, fun j inside _ => dirs j inside⟩
  · rw [given]
    exact swept.pruned
  · intro j inside
    by_cases same : j = i
    · subst same
      have sweptTable : ∀ s, s / 512 = j → (m'.node (.table r s) ≠ none ↔ m.node (.table r s) ≠ none ∧ ¬ ((lo ≤ s ∧ s < hi) ∧ m.Vacant r s)) := by
        intro s slot
        have within : s < top * 512 := by omega
        by_cases given : (lo ≤ s ∧ s < hi) ∧ m.Vacant r s
        · rw [swept.gone s given.1.1 given.1.2 given.2]
          exact iff_of_false (fun some => some rfl) (fun both => both.2 given)
        · rw [swept.node (.table r s) within root ?_, and_iff_left given]
          intro table
          obtain ⟨x, same, low, high, vacant⟩ := table
          obtain rfl := (Node.table.inj same).2
          exact given ⟨⟨low, high⟩, vacant⟩
      obtain ⟨T, here⟩ : ∃ T, m.tables r j = some T := ⟨_, by rw [Mem.tables, dir]; rfl⟩
      obtain ⟨T', here'⟩ : ∃ T', m'.tables r j = some T' := ⟨_, by rw [Mem.tables, dirs j inside, dir]; rfl⟩
      rw [here, here', prune, if_neg]
      · refine congrArg some (Finset.ext fun s => ?_)
        rw [Finset.mem_filter, mem_tables here, mem_tables here', and_assoc]
        refine and_congr_right fun slot => ?_
        rw [sweptTable s slot, slots_region low high]
        simp only [and_true]
      · intro both
        have member := both.2 ((slots_region low high j).mpr ⟨⟨lowHole, highHole⟩, rfl⟩)
        exact ((mem_tables here).mp member).2 missing
    · have none : slotsOf lo hi j = ∅ := by
        refine Finset.eq_empty_of_forall_notMem fun s member => ?_
        exact same ((slots_region low high j).mp member).2
      rw [none, prune_empty]
      refine tables_congr (dirs j inside) fun s slot => ?_
      have within : s < top * 512 := by
        have limit : (j + 1) * 512 ≤ top * 512 := Nat.mul_le_mul_right 512 inside
        omega
      refine swept.node (.table r s) within root ?_
      intro table
      obtain ⟨x, eq, lowX, highX, _⟩ := table
      obtain rfl := (Node.table.inj eq).2
      exact same (by omega)

private theorem Swept.cut (high : hi ≤ (i + 1) * 512) (dir : m.node (.dir r i) = some d) (swept : Swept roots r lo hi m m')
    (all : ∀ s, lo ≤ s → s < hi → (m.node (.table r s)).isSome = true) :
    ∃ m₁, m'.freePage d = .ok m₁ ∧ Exited roots r lo hi m (m₁.setWord r i 0) := by
  have dirs : ∀ j < top, m'.node (.dir r j) = m.node (.dir r j) := by
    intro j inside
    refine swept.node (.dir r j) inside root ?_
    intro table
    obtain ⟨s, same, _⟩ := table
    cases same
  obtain ⟨m₁, freed, pruned, gone, others⟩ := (swept.pruned.paged paged).cut (n := .dir r i) root trivial region (d := r) rfl
    ((dirs i region).trans dir)
  refine ⟨m₁, freed, ?_⟩
  have pruned : Pruned roots r {d} m' (m₁.setWord r i 0) := pruned
  have gone : (m₁.setWord r i 0).node (.dir r i) = none := gone _ (.inl rfl)
  have others : ∀ n : Node Frame, n.Inside top 512 → n.owner ∈ roots → n ≠ .dir r i → n.parent 512 ≠ .dir r i →
      (m₁.setWord r i 0).node n = m'.node n := others
  have member : ∀ s, s ∈ slotsOf lo hi i ↔ lo ≤ s ∧ s < hi := fun s => by
    rw [slots_region low high]
    exact and_iff_left rfl
  have nonempty : (slotsOf lo hi i).Nonempty := ⟨lo, (member lo).mpr ⟨le_rfl, more⟩⟩
  have present : ∀ s ∈ slotsOf lo hi i, m.node (.table r s) ≠ none := by
    intro s inside
    obtain ⟨lowS, highS⟩ := (member s).mp inside
    exact Option.isSome_iff_ne_none.mp (all s lowS highS)
  have given : m.Returned r lo hi = {f | ∃ s, lo ≤ s ∧ s < hi ∧ m.Vacant r s ∧ m.node (.table r s) = some f} ∪ {d} := by
    refine congrArg (Set.union _) (Set.ext fun f => ?_)
    constructor
    · intro inside
      obtain ⟨j, _, ⟨s, inRegion⟩, _, found⟩ := inside
      rw [((slots_region low high j).mp inRegion).2, dir] at found
      exact (Option.some.inj found).symm
    · intro same
      obtain rfl : f = d := same
      exact ⟨i, region, nonempty, present, dir⟩
  refine ⟨?_, ?_, ?_⟩
  · rw [given]
    exact swept.pruned.trans root pruned
  · intro j inside
    by_cases same : j = i
    · subst same
      obtain ⟨T, here⟩ : ∃ T, m.tables r j = some T := ⟨_, by rw [Mem.tables, dir]; rfl⟩
      rw [tables_none.mpr gone, here, prune, if_pos]
      refine ⟨nonempty, fun s inside => ?_⟩
      exact (mem_tables here).mpr ⟨(mem_slotsOf.mp inside).2, present s inside⟩
    · have none : slotsOf lo hi j = ∅ := by
        refine Finset.eq_empty_of_forall_notMem fun s inside => ?_
        exact same ((slots_region low high j).mp inside).2
      rw [none, prune_empty]
      have apart : ∀ x, x ≠ i → Node.dir r x ≠ .dir r i := fun x other eq => other (Node.dir.inj eq).2
      refine tables_congr ?_ fun s slot => ?_
      · rw [others (.dir r j) inside root (apart j same) (fun eq => by cases eq)]
        exact dirs j inside
      · have within : s < top * 512 := by
          have limit : (j + 1) * 512 ≤ top * 512 := Nat.mul_le_mul_right 512 inside
          omega
        rw [others (.table r s) within root (fun eq => by cases eq) (apart (s / 512) (by rw [slot]; exact same))]
        refine swept.node (.table r s) within root ?_
        intro table
        obtain ⟨x, eq, lowX, highX, _⟩ := table
        obtain rfl := (Node.table.inj eq).2
        exact same (by omega)
  · intro j inside none
    have other : j ≠ i := by
      rintro rfl
      rw [none] at nonempty
      exact Finset.not_nonempty_empty nonempty
    rw [others (.dir r j) inside root (fun eq => other (Node.dir.inj eq).2) (fun eq => by cases eq)]
    exact dirs j inside

private theorem exitDir_spec (bound : hi = min ((i + 1) * 512) (lastSlot stop)) :
    ∃ m', m.exitDir r (i * pdSize) (lo * ptSize) stop = .ok m' ∧ Exited roots r lo hi m m' := by
  have high : hi ≤ (i + 1) * 512 := by omega
  have index : pdx1 (i * pdSize) = (Node.dir r i).index 512 := by
    unfold top at region
    show i * pdSize / 2 ^ 30 % 512 = i
    unfold pdSize ptSize pgSize
    omega
  have place : m.node (.dir r i) = entry (m.word r ((Node.dir r i).index 512)) := rfl
  rw [Mem.exitDir, index]
  dsimp only
  cases found : m.node (.dir r i) with
  | none =>
    rw [if_neg (entry_invalid (place.symm.trans found))]
    exact ⟨m, rfl, exited_nothing low high found⟩
  | some d =>
    obtain ⟨isValid, address⟩ := pde2page_table paged (.dir r i) region root trivial rfl found
    have enough : hi - lo ≤ 512 := by omega
    obtain ⟨flag, m₁, looped, swept, all⟩ := exitTables_spec paged root found region low more bound enough true
    rw [if_pos isValid, address, ok_bind, looped, ok_bind]
    dsimp only
    cases flag with
    | false =>
      rw [if_neg Bool.false_ne_true]
      refine ⟨m₁, rfl, swept.exited root region low high found fun every => ?_⟩
      exact Bool.false_ne_true (all.mpr ⟨rfl, every⟩)
    | true =>
      obtain ⟨m₂, freed, exited⟩ := swept.cut paged root region low more high found (all.mp rfl).2
      rw [if_pos rfl, freed]
      exact ⟨_, rfl, exited⟩

end Dirs

theorem Pruned.vacant (pruned : Pruned roots r freed m m') (root : r ∈ roots) (inside : s < top * 512)
    (there : m'.node (.table r s) ≠ none) : m'.Vacant r s ↔ m.Vacant r s := by
  refine forall₂_congr fun j low => ?_
  have slot : (s * 512 + j) / 512 = s := by omega
  have within : s * 512 + j < userPages := by
    unfold userPages
    omega
  have leaf := pruned.leaf r root (s * 512 + j) within (by rw [slot]; exact there)
  rw [Mem.target, leaf]
  rfl

theorem Exited.table (exited : Exited roots r lo hi m m') (root : r ∈ roots) (inside : s < top * 512)
    (away : slotsOf lo hi (s / 512) = ∅) : m'.node (.table r s) = m.node (.table r s) := by
  have region : s / 512 < top := Nat.div_lt_of_lt_mul (by rw [mul_comm]; exact inside)
  have same := exited.tables _ region
  rw [away, prune_empty] at same
  rcases exited.pruned.node (.table r s) inside root with stays | ⟨gone, _⟩
  · exact stays
  · rw [gone]
    cases here : m.tables r (s / 512) with
    | none => exact (table_missing (tables_none.mp here)).symm
    | some T =>
      by_contra there
      have member : s ∈ T := (mem_tables here).mpr ⟨rfl, fun missing => there missing.symm⟩
      exact ((mem_tables (same.trans here)).mp member).2 gone

theorem Exited.trans (root : r ∈ roots) (first : Exited roots r lo (i * 512) m m') (second : Exited roots r (i * 512) hi m' m'')
    (before : lo ≤ i * 512) (behind : i * 512 ≤ hi) (below : hi ≤ top * 512) : Exited roots r lo hi m m'' := by
  have early : ∀ j < i, slotsOf lo hi j = slotsOf lo (i * 512) j ∧ slotsOf (i * 512) hi j = ∅ := by
    intro j less
    constructor
    · ext s
      rw [mem_slotsOf, mem_slotsOf]
      omega
    · refine Finset.eq_empty_of_forall_notMem fun s inside => ?_
      rw [mem_slotsOf] at inside
      omega
  have late : ∀ j, i ≤ j → slotsOf lo hi j = slotsOf (i * 512) hi j ∧ slotsOf lo (i * 512) j = ∅ := by
    intro j more
    constructor
    · ext s
      rw [mem_slotsOf, mem_slotsOf]
      omega
    · refine Finset.eq_empty_of_forall_notMem fun s inside => ?_
      rw [mem_slotsOf] at inside
      omega
  have still : ∀ s, i * 512 ≤ s → s < hi → m'.node (.table r s) = m.node (.table r s) := by
    intro s low high
    exact first.table root (lt_of_lt_of_le high below) (late _ (by omega)).2
  have vacant : ∀ s, i * 512 ≤ s → s < hi → m.node (.table r s) ≠ none → (m'.Vacant r s ↔ m.Vacant r s) := by
    intro s low high there
    refine first.pruned.vacant root (lt_of_lt_of_le high below) ?_
    rw [still s low high]
    exact there
  have given : m.Returned r lo hi = m.Returned r lo (i * 512) ∪ m'.Returned r (i * 512) hi := by
    ext f
    constructor
    · intro inside
      rcases inside with ⟨s, low, high, empty, found⟩ | ⟨j, region, some, all, found⟩
      · by_cases less : s < i * 512
        · exact .inl (.inl ⟨s, low, less, empty, found⟩)
        · have more := not_lt.mp less
          have there : m.node (.table r s) ≠ none := by
            rw [found]
            exact Option.some_ne_none f
          exact .inr (.inl ⟨s, more, high, (vacant s more high there).mpr empty, (still s more high).trans found⟩)
      · by_cases less : j < i
        · rw [(early j less).1] at some all
          exact .inl (.inr ⟨j, region, some, all, found⟩)
        · have more := not_lt.mp less
          rw [(late j more).1] at some all
          refine .inr (.inr ⟨j, region, some, fun s member => ?_, (first.dirs j region (late j more).2).trans found⟩)
          have within := (mem_slotsOf.mp member).1
          rw [still s within.1 within.2]
          exact all s member
    · intro inside
      rcases inside with (⟨s, low, high, empty, found⟩ | ⟨j, region, some, all, found⟩) |
        (⟨s, low, high, empty, found⟩ | ⟨j, region, some, all, found⟩)
      · exact .inl ⟨s, low, lt_of_lt_of_le high behind, empty, found⟩
      · have less : j < i := by
          obtain ⟨s, member⟩ := some
          rw [mem_slotsOf] at member
          omega
        rw [← (early j less).1] at some all
        exact .inr ⟨j, region, some, all, found⟩
      · have found := (still s low high).symm.trans found
        have there : m.node (.table r s) ≠ none := by
          rw [found]
          exact Option.some_ne_none f
        exact .inl ⟨s, le_trans before low, high, (vacant s low high there).mp empty, found⟩
      · have more : i ≤ j := by
          obtain ⟨s, member⟩ := some
          rw [mem_slotsOf] at member
          omega
        rw [first.dirs j region (late j more).2] at found
        refine .inr ⟨j, region, ?_, ?_, found⟩
        · rw [(late j more).1]
          exact some
        · intro s member
          rw [(late j more).1] at member
          have within := (mem_slotsOf.mp member).1
          rw [← still s within.1 within.2]
          exact all s member
  refine ⟨?_, ?_, ?_⟩
  · rw [given]
    exact first.pruned.trans root second.pruned
  · intro j region
    have same : ∀ T ∈ m'.tables r j, ∀ s ∈ T, (m'.Vacant r s ↔ m.Vacant r s) := by
      intro T here s member
      obtain ⟨slot, there⟩ := (mem_tables here).mp member
      refine first.pruned.vacant root ?_ there
      have limit : (j + 1) * 512 ≤ top * 512 := Nat.mul_le_mul_right 512 region
      omega
    rw [second.tables j region, prune_congr same, first.tables j region]
    by_cases less : j < i
    · rw [(early j less).2, prune_empty, (early j less).1]
    · rw [(late j (not_lt.mp less)).2, prune_empty, (late j (not_lt.mp less)).1]
  · intro j region none
    by_cases less : j < i
    · rw [second.dirs j region (early j less).2]
      exact first.dirs j region ((early j less).1.symm.trans none)
    · rw [second.dirs j region ((late j (not_lt.mp less)).1.symm.trans none)]
      exact first.dirs j region (late j (not_lt.mp less)).2

section Range

variable (paged : Paged roots m) (root : r ∈ roots)
include paged root

private theorem exitDirs_spec (user : stop ≤ userTop) (region : i < top) (low : i * 512 ≤ lo) (high : lo < (i + 1) * 512)
    (more : lo < lastSlot stop) (enough : top - i < fuel) :
    ∃ m', m.exitDirs r stop fuel (i * pdSize) (lo * ptSize) = .ok m' ∧ Exited roots r lo (lastSlot stop) m m' := by
  have below : lastSlot stop ≤ top * 512 := by
    unfold userTop at user
    unfold lastSlot top ptSize pgSize
    omega
  induction fuel generalizing lo m i with
  | zero => exact absurd enough (Nat.not_lt_zero _)
  | succ fuel ih =>
    obtain ⟨m₁, round, exited⟩ := exitDir_spec paged root region low (lt_min high more) rfl
    rw [Mem.exitDirs, round, ok_bind]
    dsimp only
    rw [region_next region]
    have goes : ((i + 1) * pdSize ≠ 0 ∧ (i + 1) * pdSize < stop) ↔ (i + 1) * 512 < lastSlot stop := by
      unfold lastSlot pdSize ptSize pgSize
      omega
    by_cases again : (i + 1) * 512 < lastSlot stop
    · rw [if_pos (goes.mpr again)]
      rw [min_eq_left again.le] at exited
      have region' : i + 1 < top := lt_of_mul_lt_mul_right (lt_of_lt_of_le again below) (Nat.zero_le 512)
      obtain ⟨m', looped, exited'⟩ := ih (exited.pruned.paged paged) region' le_rfl (by omega) again (by omega)
      have place : (i + 1) * 512 * ptSize = (i + 1) * pdSize := by
        unfold pdSize
        ring
      rw [place] at looped
      exact ⟨m', looped, exited.trans root exited' high.le again.le below⟩
    · rw [if_neg fun loops => again (goes.mp loops)]
      rw [min_eq_right (not_lt.mp again)] at exited
      exact ⟨m₁, rfl, exited⟩

theorem exitRange_spec (passed : Mem.assertRange start stop = .ok ()) :
    ∃ m', m.exitRange r start stop = .ok m' ∧ Exited roots r (start / ptSize) (lastSlot stop) m m' := by
  obtain ⟨_, _, user⟩ := assertRange_ok passed
  have first : roundDown start pdSize = start / pdSize * pdSize := by
    unfold roundDown
    exact (Nat.div_mul_self_eq_mod_sub_self ..).symm
  have second : roundDown start ptSize = start / ptSize * ptSize := by
    unfold roundDown
    exact (Nat.div_mul_self_eq_mod_sub_self ..).symm
  obtain ⟨low, order, high⟩ := user
  have region : start / pdSize < top := by
    unfold userTop at high
    unfold pdSize ptSize pgSize top
    omega
  have fromSlot : start / pdSize * 512 ≤ start / ptSize ∧ start / ptSize < (start / pdSize + 1) * 512 := by
    unfold pdSize ptSize pgSize
    omega
  have more : start / ptSize < lastSlot stop := by
    unfold lastSlot ptSize pgSize
    omega
  have enough : top - start / pdSize < Mem.pageFuel stop := by
    unfold userBase at low
    unfold Mem.pageFuel pgSize top
    omega
  obtain ⟨m', looped, exited⟩ := exitDirs_spec paged root high region fromSlot.1 fromSlot.2 more enough
  refine ⟨m', ?_, exited⟩
  rw [Mem.exitRange, passed, ok_bind, first, second]
  exact looped

end Range

end Ucore
