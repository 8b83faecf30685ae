import Mathlib
import Ucore.AddressSpace
import Ucore.Proofs.ExitMmap

/-! `setup_pgdir` and `put_pgdir`: page directories come and go, and the books about the others are kept. -/

namespace Ucore
open Lib

variable {roots : Finset Frame} {held other : Set Frame} {m m' : Mem} {r page f boot : Frame} {mm mm' : MmStruct}

theorem Counted.nothing (free : ∀ f, f ∉ m.used → m.ref f = 0) : Counted ∅ ∅ {f | f ∈ m.used} m := by
  have tables : ∀ f, ¬ m.IsTable ∅ f := by
    rintro f ⟨n, _, owned, _⟩
    exact absurd owned (Finset.notMem_empty _)
  have mapped : ∀ f, ¬ m.Mapped ∅ f := by
    rintro f ⟨r, root, _⟩
    exact absurd root (Finset.notMem_empty r)
  constructor
  · exact ⟨fun _ _ _ _ owned => absurd owned (Finset.notMem_empty _), fun f table => absurd table (tables f)⟩
  · exact fun f inUse => .inr (.inr (.inr inUse))
  · exact fun f there => absurd there (mapped f)
  · exact fun f there => absurd there (mapped f)
  · exact fun f inHeld => absurd inHeld (Set.notMem_empty f)
  · exact fun f inUse => ⟨inUse, tables f⟩
  · exact free

theorem kmalloc_same {answer : Option Block} (asked : m.kmalloc = (answer, m')) :
    m' = { m with blocks := m'.blocks, kmallocs := m'.kmallocs } := by
  unfold Mem.kmalloc at asked
  split at asked
  · split at asked
    all_goals
      obtain ⟨_, rfl⟩ := Prod.mk.inj asked
      rfl
  · obtain ⟨_, rfl⟩ := Prod.mk.inj asked
    rfl

theorem kmalloc_some {block : Block} (asked : m.kmalloc = (some block, m')) : block ∉ m.blocks ∧ m'.blocks = block :: m.blocks := by
  unfold Mem.kmalloc at asked
  split at asked
  · split at asked
    next fresh =>
      obtain ⟨same, rfl⟩ := Prod.mk.inj asked
      obtain rfl := Option.some.inj same
      exact ⟨fresh, rfl⟩
    next => cases asked
  · cases asked

theorem kmalloc_none (asked : m.kmalloc = (none, m')) : m'.blocks = m.blocks := by
  unfold Mem.kmalloc at asked
  split at asked
  · split at asked
    · cases asked
    · obtain ⟨_, rfl⟩ := Prod.mk.inj asked
      rfl
  · obtain ⟨_, rfl⟩ := Prod.mk.inj asked
    rfl

theorem Counted.kmalloc {answer : Option Block} (counted : Counted roots held other m) (asked : m.kmalloc = (answer, m')) :
    Counted roots held other m' := by
  rw [kmalloc_same asked]
  exact ⟨⟨counted.paged.unique, counted.paged.sound⟩, counted.classes, counted.mapped, counted.count, counted.held, counted.other, counted.free⟩

theorem mappings_widen {wider : Finset Frame} (less : roots ⊆ wider)
    (bare : ∀ r ∈ wider, r ∉ roots → ∀ v < userPages, m.target (r, v) = none) : m.mappings wider f = m.mappings roots f := by
  refine pointers_widen (Finset.product_subset_product_left less) ?_
  intro place inside outside
  obtain ⟨root, within⟩ := Finset.mem_product.mp inside
  have strange : place.1 ∉ roots := fun mine => outside (Finset.mem_product.mpr ⟨mine, within⟩)
  rw [bare place.1 root strange place.2 (Finset.mem_range.mp within)]
  exact Option.some_ne_none f |>.symm

theorem mapped_widen {wider : Finset Frame} (less : roots ⊆ wider)
    (bare : ∀ r ∈ wider, r ∉ roots → ∀ v < userPages, m.target (r, v) = none) : m.Mapped wider f ↔ m.Mapped roots f := by
  rw [mapped_iff, mapped_iff, mappings_widen less bare]

/-- `setup_pgdir` took the page `r`. -/
structure Setup (roots : Finset Frame) (r : Frame) (m m' : Mem) : Prop where
  fresh : r ∉ m.used
  managed : nbase ≤ r ∧ r < m.npage
  used : m'.used = r :: m.used
  node : ∀ n : Node Frame, n.Inside top 512 → n.owner ∈ roots → m'.node n = m.node n
  leaf : ∀ r' ∈ roots, ∀ v < userPages, m'.leaf r' v = m.leaf r' v
  dir : ∀ i < top, m'.node (.dir r i) = none
  word : ∀ f, f ≠ r → m'.word f = m.word f
  ref : m'.ref = m.ref
  npage : m'.npage = m.npage
  heap : m'.blocks = m.blocks ∧ m'.kmallocs = m.kmallocs

section Setup

variable (setup : Setup roots r m m')
include setup

theorem Setup.table {s : Nat} (inside : s < top * 512) : m'.node (.table r s) = none :=
  table_missing (setup.dir _ (Nat.div_lt_of_lt_mul (by rw [mul_comm]; exact inside)))

theorem Setup.target {v : Nat} (inside : v < userPages) : m'.target (r, v) = none :=
  target_missing (setup.table (Radix.slot_inside (r := r) inside))

private theorem Setup.place {n : Node Frame} (inside : n.Inside top 512) (owned : n.owner ∈ insert r roots) (found : m'.node n = some f) :
    n = .root r ∧ f = r ∨ n.owner ∈ roots ∧ m.node n = some f := by
  rcases Finset.mem_insert.mp owned with own | owned
  · cases n with
    | root q =>
      obtain rfl : q = r := own
      exact .inl ⟨rfl, (Option.some.inj found).symm⟩
    | dir q i =>
      obtain rfl : q = r := own
      rw [setup.dir i inside] at found
      cases found
    | table q s =>
      obtain rfl : q = r := own
      rw [setup.table inside] at found
      cases found
  · rw [setup.node n inside owned] at found
    exact .inr ⟨owned, found⟩

theorem Setup.isTable : m'.IsTable (insert r roots) f ↔ f = r ∨ m.IsTable roots f := by
  constructor
  · rintro ⟨n, inside, owned, found⟩
    rcases setup.place inside owned found with ⟨_, same⟩ | ⟨owned, found⟩
    · exact .inl same
    · exact .inr ⟨n, inside, owned, found⟩
  · rintro (rfl | ⟨n, inside, owned, found⟩)
    · exact ⟨.root f, trivial, Finset.mem_insert_self f roots, rfl⟩
    · exact ⟨n, inside, Finset.mem_insert_of_mem owned, (setup.node n inside owned).trans found⟩

theorem Setup.counted (counted : Counted roots held other m) : Counted (insert r roots) held other m' := by
  have apart : ∀ f ∈ m.used, f ≠ r := by
    rintro f inUse rfl
    exact setup.fresh inUse
  have targets : ∀ r' ∈ roots, ∀ v < userPages, m'.target (r', v) = m.target (r', v) :=
    fun r' root v inside => congrArg entry (setup.leaf r' root v inside)
  have bare : ∀ r' ∈ insert r roots, r' ∉ roots → ∀ v < userPages, m'.target (r', v) = none := by
    intro r' root strange v inside
    obtain rfl := (Finset.mem_insert.mp root).resolve_right strange
    exact setup.target inside
  have less : roots ⊆ insert r roots := Finset.subset_insert r roots
  have number : ∀ f, m'.mappings (insert r roots) f = m.mappings roots f :=
    fun f => (mappings_widen less bare).trans (mappings_congr targets)
  have mapped : ∀ f, m'.Mapped (insert r roots) f ↔ m.Mapped roots f := by
    intro f
    rw [mapped_iff, mapped_iff, number]
  have inUse : ∀ f, f ∈ m'.used ↔ f = r ∨ f ∈ m.used := by
    intro f
    rw [setup.used]
    exact List.mem_cons
  refine ⟨⟨?_, ?_⟩, ?_, ?_, ?_, ?_, ?_, ?_⟩
  · intro n n' inside inside' owned owned' f found found'
    rcases setup.place inside owned found with ⟨rfl, rfl⟩ | ⟨mine, before⟩
    · rcases setup.place inside' owned' found' with ⟨rfl, _⟩ | ⟨mine', before'⟩
      · rfl
      · exact absurd (counted.paged.sound f ⟨n', inside', mine', before'⟩).1 setup.fresh
    · rcases setup.place inside' owned' found' with ⟨_, rfl⟩ | ⟨mine', before'⟩
      · exact absurd (counted.paged.sound f ⟨n, inside, mine, before⟩).1 setup.fresh
      · exact counted.paged.unique n n' inside inside' mine mine' f before before'
  · intro f table
    rw [inUse, setup.npage]
    rcases setup.isTable.mp table with rfl | before
    · exact ⟨.inl rfl, setup.managed⟩
    · exact ⟨.inr (counted.paged.sound f before).1, (counted.paged.sound f before).2⟩
  · intro f place
    rw [setup.isTable, mapped]
    rcases (inUse f).mp place with new | before
    · exact .inl (.inl new)
    · exact (counted.classes f before).imp_left .inr
  · intro f there
    obtain ⟨before, range, notTable, rest⟩ := counted.mapped f ((mapped f).mp there)
    rw [inUse, setup.isTable, setup.npage]
    exact ⟨.inr before, range, not_or.mpr ⟨apart f before, notTable⟩, rest⟩
  · intro f there
    rw [setup.ref, number]
    exact counted.count f ((mapped f).mp there)
  · intro f inHeld
    obtain ⟨before, range, notTable, rest⟩ := counted.held f inHeld
    rw [inUse, setup.isTable, setup.npage, setup.ref]
    exact ⟨.inr before, range, not_or.mpr ⟨apart f before, notTable⟩, rest⟩
  · intro f inOther
    obtain ⟨before, notTable⟩ := counted.other f inOther
    rw [inUse, setup.isTable]
    exact ⟨.inr before, not_or.mpr ⟨apart f before, notTable⟩⟩
  · intro f unused
    rw [setup.ref]
    exact counted.free f fun before => unused ((inUse f).mpr (.inr before))

end Setup

theorem setupPgdir_failed {ret : Int} (done : setupPgdir boot mm m = (ret, mm', m')) (failed : ret ≠ 0) : mm' = mm ∧ m.allocPage = (none, m') := by
  unfold setupPgdir at done
  split at done
  next asked =>
    obtain ⟨_, sames⟩ := Prod.mk.inj done
    obtain ⟨rfl, rfl⟩ := Prod.mk.inj sames
    exact ⟨rfl, asked⟩
  next => exact absurd (Prod.mk.inj done).1.symm failed

theorem setupPgdir_ok (paged : Paged roots m) (zero : ∀ i < top, m.word boot i = 0) (done : setupPgdir boot mm m = (0, mm', m')) :
    ∃ r, mm' = { mm with pgdir := some r } ∧ Setup roots r m m' := by
  unfold setupPgdir at done
  cases asked : m.allocPage with
  | mk answer m₁ =>
    rw [asked] at done
    cases answer with
    | none => cases done
    | some r =>
      obtain ⟨_, sames⟩ := Prod.mk.inj done
      obtain ⟨rfl, rfl⟩ := Prod.mk.inj sames
      obtain ⟨unused, low, high, grew⟩ := allocPage_some asked
      have words : m₁.word = m.word := by rw [grew]
      have same : ∀ f, m.IsTable roots f → (m₁.setFrame r (m₁.word boot)).word f = m.word f := by
        intro f table
        rw [← words]
        refine Function.update_of_ne ?_ _ _
        rintro rfl
        exact unused (paged.sound f table).1
      refine ⟨r, rfl, unused, ⟨low, high⟩, ?_, ?_, ?_, ?_, ?_, ?_, ?_, ?_⟩
      · rw [Mem.setFrame, grew]
      · exact fun n inside owned => Radix.nodeAt_frame inside owned same
      · exact fun r' root v inside => Radix.leafAt_frame inside root same
      · intro i region
        have written : (m₁.setFrame r (m₁.word boot)).word r = m.word boot := by
          rw [← words]
          exact Function.update_self ..
        have here : (m₁.setFrame r (m₁.word boot)).word r i = 0 := (congrFun written i).trans (zero i region)
        rw [Mem.node, Radix.nodeAt, here]
        exact entry_zero
      · intro f apart
        rw [← words]
        exact Function.update_of_ne apart _ _
      · rw [Mem.setFrame, grew]
      · rw [Mem.setFrame, grew]
      · rw [Mem.setFrame, grew]
        exact ⟨rfl, rfl⟩

/-- `put_pgdir`. The tables that are still below the page directory are not reached any more. -/
theorem Counted.putRoot (counted : Counted roots held other m) (root : r ∈ roots) (bare : ∀ v < userPages, m.target (r, v) = none) :
    ∃ m', m.freePage r = .ok m' ∧ m'.word = m.word ∧ m'.npage = m.npage ∧ (∀ f, f ∈ m'.used ↔ f ∈ m.used ∧ f ≠ r) ∧
      Counted (roots.erase r) held (other ∪ {f | m.IsTable {r} f ∧ f ≠ r}) m' := by
  have isRoot : m.IsTable {r} r := ⟨.root r, trivial, Finset.mem_singleton_self r, rfl⟩
  have inUse : r ∈ m.used := (counted.paged.sound r (IsTable.single root isRoot)).1
  have freed : m.freePage r = .ok { m with
      used := m.used.filter (· ∉ [r])
      ref := fun f => if f ∈ [r] then 0 else m.ref f } := by
    unfold Mem.freePage Mem.freePages
    rw [List.range'_one, if_pos (by simpa using inUse)]
  refine ⟨_, freed, rfl, rfl, ?_, ?_⟩
  · intro f
    simp
  have keeps : ∀ f ∈ m.used, f ≠ r → f ∈ m.used.filter (· ∉ [r]) := by
    intro f inUse other
    simpa using ⟨inUse, other⟩
  have ref : ∀ f, f ≠ r → (if f ∈ [r] then 0 else m.ref f) = m.ref f := by
    intro f other
    exact if_neg fun same => other (List.mem_singleton.mp same)
  have less : roots.erase r ⊆ roots := Finset.erase_subset r roots
  have alone : ∀ q ∈ roots, q ∉ roots.erase r → ∀ v < userPages, m.target (q, v) = none := by
    intro q root strange v inside
    obtain rfl : q = r := by
      by_contra other
      exact strange (Finset.mem_erase.mpr ⟨other, root⟩)
    exact bare v inside
  have number : ∀ f, m.mappings (roots.erase r) f = m.mappings roots f := fun f => (mappings_widen less alone).symm
  have mapped : ∀ f, m.Mapped (roots.erase r) f ↔ m.Mapped roots f := fun f => (mapped_widen less alone).symm
  have outer : ∀ f, m.IsTable (roots.erase r) f → m.IsTable roots f := by
    rintro f ⟨n, inside, owned, found⟩
    exact ⟨n, inside, less owned, found⟩
  -- The trees have no table in common.
  have apart : ∀ f, m.IsTable {r} f → ¬ m.IsTable (roots.erase r) f := by
    rintro f ⟨n, inside, owned, found⟩ ⟨n', inside', owned', found'⟩
    have own : n.owner = r := Finset.mem_singleton.mp owned
    obtain ⟨other, owned'⟩ := Finset.mem_erase.mp owned'
    have same := counted.paged.unique n n' inside inside' (by rw [own]; exact root) owned' f found found'
    rw [← same, own] at other
    exact other rfl
  have notRoot : ∀ f, ¬ m.IsTable roots f → f ≠ r := by
    rintro f notTable rfl
    exact notTable (IsTable.single root isRoot)
  constructor
  · constructor
    · exact fun n n' inside inside' owned owned' => counted.paged.unique n n' inside inside' (less owned) (less owned')
    · intro f table
      obtain ⟨inUse, range⟩ := counted.paged.sound f (outer f table)
      refine ⟨keeps f inUse ?_, range⟩
      rintro rfl
      exact apart f isRoot table
  · intro f place
    obtain ⟨inUse, other⟩ := List.mem_filter.mp place
    have other : f ≠ r := by simpa using other
    rcases counted.classes f inUse with table | rest
    · obtain ⟨n, inside, owned, found⟩ := table
      by_cases own : n.owner = r
      · exact .inr (.inr (.inr (.inr ⟨⟨n, inside, Finset.mem_singleton.mpr own, found⟩, other⟩)))
      · exact .inl ⟨n, inside, Finset.mem_erase.mpr ⟨own, owned⟩, found⟩
    · rcases rest with there | inHeld | inOther
      · exact .inr (.inl ((mapped f).mpr there))
      · exact .inr (.inr (.inl inHeld))
      · exact .inr (.inr (.inr (.inl inOther)))
  · intro f there
    obtain ⟨inUse, range, notTable, notHeld, notOther⟩ := counted.mapped f ((mapped f).mp there)
    refine ⟨keeps f inUse (notRoot f notTable), range, fun table => notTable (outer f table), notHeld, ?_⟩
    rintro (old | lost)
    · exact notOther old
    · exact notTable (IsTable.single root lost.1)
  · intro f there
    have there := (mapped f).mp there
    exact (ref f (notRoot f (counted.mapped f there).2.2.1)).trans ((counted.count f there).trans (number f).symm)
  · intro f inHeld
    obtain ⟨inUse, range, notTable, notOther, zero⟩ := counted.held f inHeld
    refine ⟨keeps f inUse (notRoot f notTable), range, fun table => notTable (outer f table), ?_, (ref f (notRoot f notTable)).trans zero⟩
    rintro (old | lost)
    · exact notOther old
    · exact notTable (IsTable.single root lost.1)
  · intro f place
    rcases place with old | lost
    · obtain ⟨inUse, notTable⟩ := counted.other f old
      exact ⟨keeps f inUse (notRoot f notTable), fun table => notTable (outer f table)⟩
    · exact ⟨keeps f (counted.paged.sound f (IsTable.single root lost.1)).1 lost.2, apart f lost.1⟩
  · intro f unused
    by_cases same : f = r
    · exact if_pos (List.mem_singleton.mpr same)
    · exact (ref f same).trans (counted.free f fun inUse => unused (keeps f inUse same))

end Ucore
