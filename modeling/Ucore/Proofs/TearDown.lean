import Mathlib
import Ucore.Proofs.PageDirs
import Ucore.Proofs.MmMap

/-! What `exit_mmap` and `put_pgdir` give back of an address space. A level 0 directory is given back
together with its page tables exactly if the first area for which `exit_range` gives it back touches
all tables that are left in it. -/

namespace Ucore
open Lib

/-- The directory of the region `i` and the page tables below it. -/
def Mem.region (m : Mem) (r : Frame) (i : Nat) : Set Frame :=
  {f | m.node (.dir r i) = some f ∨ ∃ s, s / 512 = i ∧ m.node (.table r s) = some f}

/-- `exit_range` for the areas gives back all of a region with the page tables `T`, none of which maps a page. -/
def clears (i : Nat) : List Vma → Finset Nat → Prop
  | [], _ => False
  | vma :: rest, T => if (vma.slots i).Nonempty ∧ vma.slots i ⊆ T then T ⊆ vma.slots i else clears i rest (T \ vma.slots i)

/-- The area touches in the region `i` only slots that are in `T` and that no area of `before` touches. -/
def Fills (T : Nat → Prop) (i : Nat) (before : List Vma) (vma : Vma) : Prop :=
  (vma.slots i).Nonempty ∧ ∀ s ∈ vma.slots i, T s ∧ ∀ earlier ∈ before, s ∉ earlier.slots i

/-- The first such area and those in front of it touch all slots of the region that are in `T`. -/
def GoesWhole (T : Nat → Prop) (i : Nat) (vmas : List Vma) : Prop :=
  ∃ before vma after, vmas = before ++ vma :: after ∧ Fills T i before vma ∧
    (∀ front area behind, before = front ++ area :: behind → ¬ Fills T i front area) ∧
    ∀ s, s / 512 = i → T s → ∃ area ∈ before ++ [vma], s ∈ area.slots i

variable {roots : Finset Frame} {held other : Set Frame} {freed : Set Frame} {m m' m₁ : Mem} {r f : Frame} {i s : Nat} {vmas : List Vma}
  {mm mm' : MmStruct} {vma : Vma} {T : Finset Nat}

section Region

theorem region_dir (here : m.tables r i = some T) : ∃ d, m.node (.dir r i) = some d := by
  obtain ⟨d, found, _⟩ := Option.map_eq_some_iff.mp here
  exact ⟨d, found⟩

private theorem region_table (low : i < top) (inside : f ∈ m.region r i) : m.IsTable {r} f := by
  rcases inside with dir | ⟨s, slot, table⟩
  · exact ⟨.dir r i, low, Finset.mem_singleton_self r, dir⟩
  · have within : s < top * 512 := by
      have limit : (i + 1) * 512 ≤ top * 512 := Nat.mul_le_mul_right 512 low
      omega
    exact ⟨.table r s, within, Finset.mem_singleton_self r, table⟩

private theorem Pruned.region (pruned : Pruned roots r freed m m₁) (root : r ∈ roots) (low : i < top) (inside : f ∈ m₁.region r i) :
    f ∈ m.region r i := by
  rcases inside with dir | ⟨s, slot, table⟩
  · rcases pruned.node (.dir r i) low root with same | gone
    · exact .inl (same.symm.trans dir)
    · rw [gone.1] at dir
      cases dir
  · have within : s < top * 512 := by
      have limit : (i + 1) * 512 ≤ top * 512 := Nat.mul_le_mul_right 512 low
      omega
    rcases pruned.node (.table r s) within root with same | gone
    · exact .inr ⟨s, slot, same.symm.trans table⟩
    · rw [gone.1] at table
      cases table

variable (root : r ∈ roots) (low : i < top) (here : m.tables r i = some T) (bare : ∀ s ∈ T, m.Vacant r s)
include root low here bare

private theorem clears_fires {lo hi : Nat} (paged : Paged roots m) (exited : Exited roots r lo hi m m₁) (below : hi ≤ top * 512)
    (some : (slotsOf lo hi i).Nonempty) (all : slotsOf lo hi i ⊆ T) (late : ∀ f ∈ freed, m₁.IsTable {r} f) :
    m.region r i ⊆ m.Returned r lo hi ∪ freed ↔ T ⊆ slotsOf lo hi i := by
  have limit : (i + 1) * 512 ≤ top * 512 := Nat.mul_le_mul_right 512 low
  have missing : m₁.node (.dir r i) = none := by
    refine tables_none.mp ?_
    rw [exited.tables i low, here, prune, if_pos ⟨some, all⟩]
  have gone : ∀ f ∈ m.region r i, f ∉ freed := by
    intro f inside isLate
    obtain ⟨n, within, owned, found⟩ := late f isLate
    have found : m₁.node n = .some f := found
    have owner : n.owner ∈ roots := by
      rw [Finset.mem_singleton.mp owned]
      exact root
    have before : m.node n = .some f := by
      rcases exited.pruned.node n within owner with same | gone
      · rw [← same, found]
      · rw [gone.1] at found
        cases found
    rcases inside with dir | ⟨s, slot, table⟩
    · obtain rfl := paged.unique n (.dir r i) within low owner root f before dir
      rw [missing] at found
      cases found
    · have inRange : s < top * 512 := by omega
      obtain rfl := paged.unique n (.table r s) within inRange owner root f before table
      rw [table_missing (by rw [slot]; exact missing)] at found
      cases found
  constructor
  · intro returned s inside
    obtain ⟨slot, there⟩ := (mem_tables here).mp inside
    obtain ⟨t, table⟩ := Option.ne_none_iff_exists'.mp there
    have mine : t ∈ m.region r i := .inr ⟨s, slot, table⟩
    have inRange : s < top * 512 := by omega
    rcases returned mine with early | isLate
    · rcases early with ⟨s', lo', hi', _, table'⟩ | ⟨j, region, _, _, dir⟩
      · have within : s' < top * 512 := lt_of_lt_of_le hi' below
        obtain ⟨_, rfl⟩ := Node.table.inj (paged.unique (.table r s) (.table r s') inRange within root root t table table')
        exact mem_slotsOf.mpr ⟨⟨lo', hi'⟩, slot⟩
      · cases paged.unique (.table r s) (.dir r j) inRange region root root t table dir
    · exact absurd isLate (gone t mine)
  · intro less f inside
    refine .inl ?_
    rcases inside with dir | ⟨s, slot, table⟩
    · refine .inr ⟨i, low, some, fun s own => ((mem_tables here).mp (all own)).2, dir⟩
    · have inT : s ∈ T := (mem_tables here).mpr ⟨slot, by rw [table]; exact Option.some_ne_none f⟩
      have place := mem_slotsOf.mp (less inT)
      exact .inl ⟨s, place.1.1, place.1.2, bare s inT, table⟩

private theorem clears_stays {lo hi : Nat} (exited : Exited roots r lo hi m m₁) (stays : ¬ ((slotsOf lo hi i).Nonempty ∧ slotsOf lo hi i ⊆ T)) :
    m₁.tables r i = some (T \ slotsOf lo hi i) ∧ (m.region r i ⊆ m.Returned r lo hi ∪ freed ↔ m₁.region r i ⊆ freed) := by
  have after : m₁.tables r i = some (T \ slotsOf lo hi i) := by
    rw [exited.tables i low, here, prune, if_neg stays]
    refine congrArg some (Finset.ext fun s => ?_)
    rw [Finset.mem_filter, Finset.mem_sdiff]
    exact and_congr_right fun inside => not_congr (and_iff_left (bare s inside))
  refine ⟨after, ?_⟩
  have limit : (i + 1) * 512 ≤ top * 512 := Nat.mul_le_mul_right 512 low
  constructor
  · intro returned f inside
    rcases returned (exited.pruned.region root low inside) with early | late
    · exact absurd (IsTable.single root (region_table low inside)) (exited.pruned.gone f early).2
    · exact late
  · intro rest f inside
    rcases inside with dir | ⟨s, slot, table⟩
    · rcases exited.pruned.node (.dir r i) low root with same | gone
      · exact .inr (rest (.inl (same.trans dir)))
      · rw [tables_none.mpr gone.1] at after
        cases after
    · have within : s < top * 512 := by omega
      rcases exited.pruned.node (.table r s) within root with same | gone
      · exact .inr (rest (.inr ⟨s, slot, same.trans table⟩))
      · have inT : s ∈ T := (mem_tables here).mpr ⟨slot, by rw [table]; exact Option.some_ne_none f⟩
        have own : s ∈ slotsOf lo hi i := by
          by_contra away
          exact ((mem_tables after).mp (Finset.mem_sdiff.mpr ⟨inT, away⟩)).2 gone.1
        have place := mem_slotsOf.mp own
        exact .inl (.inl ⟨s, place.1.1, place.1.2, bare s inT, table⟩)

end Region

private theorem below_root (paged : Paged {r} m) : m.IsTable {r} f ∧ f ≠ r ↔ ∃ i < top, m.node (.dir r i) ≠ none ∧ f ∈ m.region r i := by
  have root := Finset.mem_singleton_self r
  constructor
  · rintro ⟨⟨n, inside, owned, found⟩, below⟩
    have found : m.node n = some f := found
    cases n with
    | root q =>
      obtain rfl : q = r := Finset.mem_singleton.mp owned
      exact absurd (Option.some.inj found).symm below
    | dir q i =>
      obtain rfl : q = r := Finset.mem_singleton.mp owned
      refine ⟨i, inside, ?_, .inl found⟩
      rw [found]
      exact Option.some_ne_none f
    | table q s =>
      obtain rfl : q = r := Finset.mem_singleton.mp owned
      refine ⟨s / 512, Nat.div_lt_of_lt_mul (by rw [mul_comm]; exact inside), fun missing => ?_, .inr ⟨s, rfl, found⟩⟩
      rw [table_missing missing] at found
      cases found
  · rintro ⟨i, low, _, inside⟩
    refine ⟨region_table low inside, ?_⟩
    rintro rfl
    rcases inside with dir | ⟨s, slot, table⟩
    · cases paged.unique (.root f) (.dir f i) trivial low root root f rfl dir
    · have within : s < top * 512 := by
        have limit : (i + 1) * 512 ≤ top * 512 := Nat.mul_le_mul_right 512 low
        omega
      cases paged.unique (.root f) (.table f s) trivial within root root f rfl table

theorem lastSlot_user {stop : Nat} (user : stop ≤ userTop) : lastSlot stop ≤ top * 512 := by
  unfold userTop at user
  unfold lastSlot ptSize pgSize top
  omega

theorem exitVmas_bare (paged : Paged roots m) (root : r ∈ roots) (passes : RangesPass vmas) (bare : ∀ s < top * 512, m.Vacant r s) :
    ∃ m' freed, MmStruct.exitVmas (some r) vmas m = .ok m' ∧ Pruned roots r freed m m' ∧
      ∀ i < top, ∀ T, m.tables r i = some T → (m.region r i ⊆ freed ↔ clears i vmas T) := by
  induction vmas generalizing m with
  | nil =>
    refine ⟨m, ∅, rfl, .refl, ?_⟩
    intro i low T here
    obtain ⟨d, dir⟩ := region_dir here
    exact iff_of_false (fun none => absurd (none (.inl dir)) (Set.notMem_empty d)) id
  | cons vma rest ih =>
    have passed := passes vma List.mem_cons_self
    obtain ⟨m₁, exits, exited⟩ := exitRange_spec paged root passed
    have bare₁ : ∀ s < top * 512, m₁.Vacant r s := by
      intro s within
      by_cases there : m₁.node (.table r s) = none
      · intro j small
        refine target_missing ?_
        rw [show (s * 512 + j) / 512 = s by omega]
        exact there
      · exact (exited.pruned.vacant root within there).mpr (bare s within)
    obtain ⟨m', freed, others, pruned, regions⟩ := ih (exited.pruned.paged paged) (fun vma inside => passes vma (List.mem_cons_of_mem _ inside)) bare₁
    have done : MmStruct.exitVmas (some r) (vma :: rest) m = .ok m' := by
      rw [MmStruct.exitVmas, deref, ok_bind, exits, ok_bind]
      exact others
    refine ⟨m', _, done, exited.pruned.trans root pruned, ?_⟩
    intro i low T here
    have limit : (i + 1) * 512 ≤ top * 512 := Nat.mul_le_mul_right 512 low
    have empty : ∀ s ∈ T, m.Vacant r s := by
      intro s inside
      have slot := ((mem_tables here).mp inside).1
      exact bare s (by omega)
    rw [clears, Vma.slots]
    by_cases fires : (slotsOf (vma.vmStart / ptSize) (lastSlot vma.vmEnd) i).Nonempty ∧ slotsOf (vma.vmStart / ptSize) (lastSlot vma.vmEnd) i ⊆ T
    · rw [if_pos fires]
      exact clears_fires root low here empty paged exited (lastSlot_user (assertRange_ok passed).2.2.2.2) fires.1 fires.2
        fun f isLate => (pruned.gone f isLate).1
    · rw [if_neg fires]
      obtain ⟨after, same⟩ := clears_stays root low here empty exited fires
      exact same.trans (regions i low _ after)

theorem Fills.congr {T T' : Nat → Prop} {before : List Vma} (same : ∀ s, s / 512 = i → (T s ↔ T' s)) :
    Fills T i before vma ↔ Fills T' i before vma := by
  refine and_congr_right fun _ => forall₂_congr fun s own => ?_
  rw [same s (mem_slotsOf.mp own).2]

theorem GoesWhole.congr {T T' : Nat → Prop} (same : ∀ s, s / 512 = i → (T s ↔ T' s)) : GoesWhole T i vmas ↔ GoesWhole T' i vmas := by
  refine exists_congr fun before => exists_congr fun vma => exists_congr fun after => and_congr_right fun _ => ?_
  rw [Fills.congr same]
  refine and_congr_right fun _ => and_congr ?_ ?_
  · refine forall₃_congr fun front area behind => ?_
    rw [Fills.congr same]
  · refine forall₂_congr fun s slot => ?_
    rw [same s slot]

private theorem fills_cons {first : Vma} {before : List Vma} :
    Fills (· ∈ T) i (first :: before) vma ↔ Fills (· ∈ T \ first.slots i) i before vma := by
  refine and_congr_right fun _ => forall₂_congr fun s own => ?_
  dsimp only
  rw [List.forall_mem_cons, Finset.mem_sdiff, and_assoc]

theorem clears_iff (slots : ∀ s ∈ T, s / 512 = i) : clears i vmas T ↔ GoesWhole (· ∈ T) i vmas := by
  induction vmas generalizing T with
  | nil =>
    refine iff_of_false id ?_
    rintro ⟨before, vma, after, split, _⟩
    exact absurd (congrArg List.length split) (by simp)
  | cons first rest ih =>
    have here : Fills (· ∈ T) i [] first ↔ (first.slots i).Nonempty ∧ first.slots i ⊆ T := by
      refine and_congr_right fun _ => forall₂_congr fun s own => ?_
      exact and_iff_left fun earlier impossible => absurd impossible List.not_mem_nil
    rw [clears]
    by_cases fires : (first.slots i).Nonempty ∧ first.slots i ⊆ T
    · rw [if_pos fires]
      constructor
      · intro less
        refine ⟨[], first, rest, rfl, here.mpr fires, ?_, fun s _ inside => ⟨first, List.mem_cons_self, less inside⟩⟩
        intro front area behind split
        exact absurd (congrArg List.length split) (by simp)
      · rintro ⟨before, vma, after, split, fills, none, all⟩
        cases before with
        | nil =>
          obtain ⟨rfl, _⟩ := List.cons.inj split
          intro s inside
          obtain ⟨area, place, own⟩ := all s (slots s inside) inside
          rw [List.mem_singleton.mp place] at own
          exact own
        | cons second before =>
          obtain ⟨rfl, _⟩ := List.cons.inj split
          exact absurd (here.mpr fires) (none [] first before rfl)
    · rw [if_neg fires]
      refine (ih fun s inside => slots s (Finset.mem_sdiff.mp inside).1).trans ?_
      constructor
      · rintro ⟨before, vma, after, rfl, fills, none, all⟩
        refine ⟨first :: before, vma, after, rfl, fills_cons.mpr fills, ?_, ?_⟩
        · intro front area behind split
          cases front with
          | nil =>
            obtain ⟨rfl, _⟩ := List.cons.inj split
            exact fun fills => fires (here.mp fills)
          | cons second front =>
            obtain ⟨rfl, rfl⟩ := List.cons.inj split
            exact fun fills => none front area behind rfl (fills_cons.mp fills)
        · intro s slot inside
          by_cases own : s ∈ first.slots i
          · exact ⟨first, List.mem_cons_self, own⟩
          · obtain ⟨area, place, touched⟩ := all s slot (Finset.mem_sdiff.mpr ⟨inside, own⟩)
            exact ⟨area, List.mem_cons_of_mem _ place, touched⟩
      · rintro ⟨before, vma, after, split, fills, none, all⟩
        cases before with
        | nil =>
          obtain ⟨rfl, _⟩ := List.cons.inj split
          exact absurd (here.mp fills) fires
        | cons second before =>
          obtain ⟨rfl, rfl⟩ := List.cons.inj split
          refine ⟨before, vma, after, rfl, fills_cons.mp fills, ?_, ?_⟩
          · intro front area behind split
            exact fun fills => none (first :: front) area behind (congrArg (first :: ·) split) (fills_cons.mpr fills)
          · intro s slot inside
            obtain ⟨inT, away⟩ := Finset.mem_sdiff.mp inside
            obtain ⟨area, place, touched⟩ := all s slot inT
            rcases List.mem_cons.mp place with rfl | place
            · exact absurd touched away
            · exact ⟨area, place, touched⟩

/-- Every page that the page directory maps is in an area, and the areas are ranges that `exit_mmap` accepts. -/
structure Covered (mm : MmStruct) (r : Frame) (m : Mem) : Prop where
  place : mm.pgdir = some r
  passes : RangesPass mm.mmapList
  pages : ∀ v < userPages, m.target (r, v) ≠ none → ∃ vma ∈ mm.mmapList, vma.Covers v

/-- The address space that `exit_mmap` leaves: no page is mapped, and of the tables some are in use. -/
structure Emptied (roots : Finset Frame) (mm : MmStruct) (r : Frame) (m m' : Mem) : Prop where
  target : ∀ r' ∈ roots, ∀ v < userPages, m'.target (r', v) = if r' = r then none else m.target (r', v)
  table : ∀ f, m'.IsTable roots f → m.IsTable roots f
  npage : m'.npage = m.npage
  whole : ∀ i < top, m.node (.dir r i) ≠ none →
    ((∀ f ∈ m.region r i, f ∉ m'.used) ↔ GoesWhole (fun s => m.node (.table r s) ≠ none) i mm.mmapList)

/-- `exit_mmap` of an address space that nobody uses. -/
theorem Counted.exitCovered (counted : Counted roots held other m) (root : r ∈ roots) (covered : Covered mm r m) (idle : mm.mmCount = 0) :
    ∃ m', mm.exitMmap m = .ok m' ∧ Emptied roots mm r m m' ∧
      Counted roots held (other ∪ {f | m.IsTable roots f ∧ f ∈ m'.used ∧ ¬ m'.IsTable roots f}) m' := by
  obtain ⟨m₁, unmapped, counted₁, node, gone, kept⟩ := counted.unmapVmas root covered.passes
  have nothing : ∀ v < userPages, m₁.target (r, v) = none := by
    intro v inside
    by_cases here : ∃ vma ∈ mm.mmapList, vma.Covers v
    · exact gone r root v inside ⟨rfl, here⟩
    · rw [kept r root v inside fun both => here both.2]
      by_contra there
      exact here (covered.pages v inside there)
  have bare : ∀ s < top * 512, m₁.Vacant r s := by
    intro s within j small
    refine nothing _ ?_
    unfold userPages
    omega
  obtain ⟨m', freed, exits, pruned, regions⟩ := exitVmas_bare counted₁.paged root covered.passes bare
  have done : mm.exitMmap m = .ok m' := by
    rw [MmStruct.exitMmap, decide_eq_true idle, assert_true, ok_bind, covered.place, unmapped, ok_bind]
    exact exits
  have sameTables : ∀ f, m₁.IsTable roots f ↔ m.IsTable roots f :=
    fun f => exists_congr fun n => and_congr_right fun inside => and_congr_right fun owned => Eq.congr_left (node n inside owned)
  obtain ⟨targets, counted'⟩ := counted₁.pruned root pruned fun v inside _ => nothing v inside
  simp only [sameTables] at counted'
  refine ⟨m', done, ⟨?_, ?_, ?_, ?_⟩, counted'⟩
  · intro r' root' v inside
    rw [targets r' root' v inside]
    split
    next own =>
      rw [own]
      exact nothing v inside
    next away => exact kept r' root' v inside fun both => away both.1
  · exact fun f table => (sameTables f).mp (pruned.table subset_rfl table)
  · exact (exitMmap_shrunk covered.place done).npage
  · intro i low dir
    have limit : (i + 1) * 512 ≤ top * 512 := Nat.mul_le_mul_right 512 low
    have tableNode : ∀ s, s / 512 = i → m₁.node (.table r s) = m.node (.table r s) := by
      intro s slot
      have within : s < top * 512 := by omega
      exact node (.table r s) within root
    have dirNode : m₁.node (.dir r i) = m.node (.dir r i) := node (.dir r i) low root
    have region : ∀ f, f ∈ m.region r i ↔ f ∈ m₁.region r i := by
      intro f
      refine or_congr (by rw [dirNode]) (exists_congr fun s => and_congr_right fun slot => ?_)
      rw [tableNode s slot]
    cases here : m₁.tables r i with
    | none =>
      rw [tables_none, dirNode] at here
      exact absurd here dir
    | some T =>
      have inTables : ∀ s, s / 512 = i → (s ∈ T ↔ m.node (.table r s) ≠ none) := by
        intro s slot
        rw [mem_tables here, tableNode s slot]
        exact and_iff_right slot
      rw [← GoesWhole.congr inTables, ← clears_iff fun s inside => ((mem_tables here).mp inside).1, ← regions i low T here]
      refine forall_congr' fun f => ?_
      rw [region]
      refine forall_congr' fun inside => ?_
      have inUse := (counted₁.paged.sound f (IsTable.single root (region_table low inside))).1
      rw [pruned.used, not_and, not_not]
      exact ⟨fun gone => gone inUse, fun gone _ => gone⟩

/-- The address spaces that `setup_pgdir`, successful calls of `mm_map` and calls of `pgdir_alloc_page` for addresses
in areas make of the one of `mm_create`. -/
inductive Prepared (boot : Frame) (start : Mem) : MmStruct → Mem → Prop where
  | setupPgdir {mm : MmStruct} {m : Mem} (done : setupPgdir boot .fresh start = (0, mm, m)) : Prepared boot start mm m
  | mmMap {mm mm' : MmStruct} {m m' : Mem} {addr len : Nat} {vmFlags : BitVec 32} (prepared : Prepared boot start mm m)
      (mapped : mm.mmMap addr len vmFlags m = .ok (0, mm', m')) : Prepared boot start mm' m'
  | pgdirAllocPage {mm : MmStruct} {m m' : Mem} {vma : Vma} {la : Nat} {perm : BitVec 32} {pgdir : Frame} {page : Option Frame}
      (prepared : Prepared boot start mm m) (area : vma ∈ mm.mmapList) (inside : vma.vmStart ≤ la ∧ la < vma.vmEnd)
      (flags : perm.toNat < 2 ^ 10) (place : mm.pgdir = some pgdir) (allocated : m.pgdirAllocPage pgdir la perm = .ok (page, m')) :
      Prepared boot start mm m'

/-- `nr_free_pages` -/
def Mem.nrFreePages (m : Mem) : Nat := ((Finset.Ico nbase m.npage).filter (· ∉ m.used)).card

theorem assertRange_pass {start stop : Nat} (first : start % pgSize = 0) (last : stop % pgSize = 0) (user : UserAccess start stop) :
    Mem.assertRange start stop = .ok () := by
  rw [Mem.assertRange, decide_eq_true ⟨first, last⟩, decide_eq_true user, assert_true, assert_true]
  rfl

variable {boot : Frame} {start : Mem}

/-- What the functions that build an address space keep. -/
structure Laid (start : Mem) (r : Frame) (mm : MmStruct) (m : Mem) : Prop where
  kept : mm.Kept
  idle : mm.mmCount = 0
  npage : m.npage = start.npage
  covered : Covered mm r m
  counted : Counted {r} ∅ {f | f ∈ start.used} m

theorem Laid.setupPgdir (free : ∀ f, f ∉ start.used → start.ref f = 0) (zero : ∀ i < top, start.word boot i = 0)
    (done : setupPgdir boot .fresh start = (0, mm, m)) : ∃ r, Laid start r mm m := by
  have counted := Counted.nothing free
  obtain ⟨r, rfl, setup⟩ := setupPgdir_ok counted.paged zero done
  have counted' := setup.counted counted
  rw [insert_empty_eq] at counted'
  refine ⟨r, ⟨.nil, fun cache held => by cases held⟩, rfl, setup.npage, ⟨rfl, fun _ impossible => absurd impossible List.not_mem_nil, ?_⟩, counted'⟩
  exact fun v inside there => absurd (setup.target inside) there

theorem Laid.mmMap {addr len : Nat} {vmFlags : BitVec 32} (laid : Laid start r mm m)
    (mapped : mm.mmMap addr len vmFlags m = .ok (0, mm', m')) : Laid start r mm' m' := by
  obtain ⟨vma, ⟨first, last, user⟩, asked, kept', after⟩ := MmStruct.mmMap_ok laid.kept mapped
  have same := kmalloc_same asked
  have areas : ∀ area, area ∈ mm'.mmapList ↔ area = vma ∨ area ∈ mm.mmapList := by
    intro area
    rw [after]
    exact MmStruct.mem_withArea
  refine ⟨kept', ?_, ?_, ⟨?_, ?_, ?_⟩, laid.counted.kmalloc asked⟩
  · rw [after]
    exact laid.idle
  · rw [same]
    exact laid.npage
  · rw [after]
    exact laid.covered.place
  · intro area member
    rcases (areas area).mp member with rfl | old
    · exact assertRange_pass first last user
    · exact laid.covered.passes area old
  · intro v within there
    rw [same] at there
    obtain ⟨area, member, covers⟩ := laid.covered.pages v within there
    exact ⟨area, (areas area).mpr (.inr member), covers⟩

theorem Laid.pgdirAllocPage {la : Nat} {perm : BitVec 32} {page : Option Frame} (laid : Laid start r mm m) (area : vma ∈ mm.mmapList)
    (inside : vma.vmStart ≤ la ∧ la < vma.vmEnd) (flags : perm.toNat < 2 ^ 10) (allocated : m.pgdirAllocPage r la perm = .ok (page, m')) :
    Laid start r mm m' := by
  obtain ⟨_, last, user⟩ := assertRange_ok (laid.covered.passes vma area)
  have low : la < userTop := lt_of_lt_of_le inside.2 user.2.2
  obtain ⟨page', m₁, done, counted', npage, others⟩ := laid.counted.pgdirAllocPage (Finset.mem_singleton_self r) low flags
  obtain ⟨_, rfl⟩ := Prod.mk.inj (Except.ok.inj (done.symm.trans allocated))
  refine ⟨laid.kept, laid.idle, npage.trans laid.npage, ⟨laid.covered.place, laid.covered.passes, ?_⟩, counted'⟩
  intro v within there
  by_cases here : v = la / pgSize
  · refine ⟨vma, area, ?_⟩
    rw [here]
    unfold Vma.Covers pgSize
    unfold pgSize at last
    omega
  · rw [others r (Finset.mem_singleton_self r) v within fun both => here both.2] at there
    exact laid.covered.pages v within there

theorem Prepared.laid (free : ∀ f, f ∉ start.used → start.ref f = 0) (zero : ∀ i < top, start.word boot i = 0)
    (prepared : Prepared boot start mm m) : ∃ r, Laid start r mm m := by
  induction prepared with
  | setupPgdir done => exact Laid.setupPgdir free zero done
  | mmMap _ mapped ih =>
    obtain ⟨r, laid⟩ := ih
    exact ⟨r, laid.mmMap mapped⟩
  | pgdirAllocPage _ area inside flags place allocated ih =>
    obtain ⟨r, laid⟩ := ih
    obtain rfl := Option.some.inj (laid.covered.place.symm.trans place)
    exact ⟨r, laid.pgdirAllocPage area inside flags allocated⟩

/-- `exit_mmap` and `put_pgdir` return. They give back all pages that were allocated since `setup_pgdir` was called exactly if
in each region the directory goes with the last of its page tables. -/
theorem tear_down_iff (free : ∀ f, f ∉ start.used → start.ref f = 0) (zero : ∀ i < top, start.word boot i = 0)
    (prepared : Prepared boot start mm m) : ∃ r m', mm.pgdir = some r ∧ (mm.exitMmap m >>= putPgdir mm) = .ok m' ∧
      ((∀ f, f ∈ m'.used ↔ f ∈ start.used) ∧ m'.nrFreePages = start.nrFreePages ↔
        ∀ i < top, m.node (.dir r i) ≠ none → GoesWhole (fun s => m.node (.table r s) ≠ none) i mm.mmapList) := by
  obtain ⟨r, laid⟩ := prepared.laid free zero
  have root := Finset.mem_singleton_self r
  obtain ⟨m₁, exits, emptied, counted₁⟩ := laid.counted.exitCovered root laid.covered laid.idle
  have bare : ∀ v < userPages, m₁.target (r, v) = none := by
    intro v inside
    rw [emptied.target r root v inside, if_pos rfl]
  obtain ⟨m', put, _, npage, used, _⟩ := counted₁.putRoot root bare
  refine ⟨r, m', laid.covered.place, ?_, ?_⟩
  · rw [exits, ok_bind, putPgdir, laid.covered.place]
    exact put
  have kept : ∀ f ∈ start.used, f ∈ m'.used := by
    intro f inUse
    refine (used f).mpr ⟨(counted₁.other f (.inl inUse)).1, ?_⟩
    rintro rfl
    exact (laid.counted.other f inUse).2 ⟨.root f, trivial, root, rfl⟩
  have rest : ∀ f ∈ m'.used, f ∈ start.used ∨ m.IsTable {r} f ∧ f ≠ r := by
    intro f inUse
    obtain ⟨inUse, apart⟩ := (used f).mp inUse
    rcases counted₁.classes f inUse with table | mapped | inHeld | old | lost
    · exact .inr ⟨emptied.table f table, apart⟩
    · obtain ⟨q, own, v, inside, here⟩ := mapped
      obtain rfl := Finset.mem_singleton.mp own
      rw [bare v inside] at here
      cases here
    · exact absurd inHeld (Set.notMem_empty f)
    · exact .inl old
    · exact .inr ⟨lost.1, apart⟩
  have regions := fun f => below_root (f := f) laid.counted.paged
  constructor
  · intro restored i low dir
    refine (emptied.whole i low dir).mp fun f inside inUse => ?_
    have table := (regions f).mpr ⟨i, low, dir, inside⟩
    have back := (restored.1 f).mp ((used f).mpr ⟨inUse, table.2⟩)
    exact (laid.counted.other f back).2 table.1
  · intro whole
    have same : ∀ f, f ∈ m'.used ↔ f ∈ start.used := by
      refine fun f => ⟨fun inUse => ?_, kept f⟩
      refine (rest f inUse).resolve_right fun table => ?_
      obtain ⟨i, low, dir, inside⟩ := (regions f).mp table
      exact (emptied.whole i low dir).mpr (whole i low dir) f inside ((used f).mp inUse).1
    refine ⟨same, ?_⟩
    rw [Mem.nrFreePages, Mem.nrFreePages, npage, emptied.npage, laid.npage]
    refine congrArg Finset.card (Finset.filter_congr fun f _ => not_congr (same f))

/-- A new area with one page, which is mapped. -/
def placePage (la : Nat) (space : MmStruct × Mem) : Kern (MmStruct × Mem) := do
  let (ret, mm, m) ← space.1.mmMap la pgSize vmRead space.2
  if ret = 0 ∧ (mm.mmapList.find? (·.has la)).isSome then do
    let pgdir ← deref mm.pgdir
    let (_, m) ← m.pgdirAllocPage pgdir la 0x1F
    .ok (mm, m)
  else .error .fault

private theorem placePage_prepared {la : Nat} {space space' : MmStruct × Mem} (prepared : Prepared boot start space.1 space.2)
    (placed : placePage la space = .ok space') : Prepared boot start space'.1 space'.2 := by
  obtain ⟨⟨ret, mm, m⟩, mapped, placed⟩ := bind_ok placed
  dsimp only at placed
  split at placed
  next both =>
    obtain ⟨rfl, found⟩ := both
    obtain ⟨pgdir, place, placed⟩ := bind_ok placed
    obtain ⟨⟨page, m'⟩, allocated, done⟩ := bind_ok placed
    obtain rfl := Except.ok.inj done
    obtain ⟨vma, found⟩ := Option.isSome_iff_exists.mp found
    have has := List.find?_some found
    have area := List.mem_of_find?_eq_some found
    have place : mm.pgdir = some pgdir := by
      cases there : mm.pgdir with
      | none =>
        rw [there] at place
        cases place
      | some frame =>
        rw [there] at place
        exact congrArg some (Except.ok.inj place)
    refine .pgdirAllocPage (.mmMap prepared mapped) area ?_ (by decide) place allocated
    simpa [Vma.has] using has
  next => cases placed

/-- Eight pages, the first of which is the page directory to copy, and a heap. -/
def Mem.eightPagesHeap : Mem := { Mem.eightPages with kmallocs := some }

/-- The address space that `setup_pgdir` makes of them. -/
def emptySpace : MmStruct × Mem := (setupPgdir nbase .fresh Mem.eightPagesHeap).2

theorem emptySpace_prepared : Prepared nbase Mem.eightPagesHeap emptySpace.1 emptySpace.2 := .setupPgdir rfl

/-- One page in one area. -/
theorem tear_down_iff_one : ∃ space m', placePage 0x200000 emptySpace = .ok space ∧
    (space.1.exitMmap space.2 >>= putPgdir space.1) = .ok m' ∧ ∀ f, f ∈ m'.used ↔ f = nbase := by
  have facts : (placePage 0x200000 emptySpace).map (fun space => (space.1, space.2.node (.dir (nbase + 1) 1),
      decide (∀ s ∈ List.range 512, space.2.node (.table (nbase + 1) s) ≠ none ↔ s = 1))) =
      .ok (⟨[⟨0, 0x200000, 0x201000, vmRead⟩], none, some (nbase + 1), 1, 0, false⟩, none, true) := by
    decide +kernel
  cases placed : placePage 0x200000 emptySpace with
  | error halt =>
    rw [placed] at facts
    cases facts
  | ok space =>
    rw [placed] at facts
    simp only [Except.map, Except.ok.injEq, Prod.mk.injEq] at facts
    obtain ⟨fields, dir, tables⟩ := facts
    have tables : ∀ s, s < 512 → (space.2.node (.table (nbase + 1) s) ≠ none ↔ s = 1) :=
      fun s low => of_decide_eq_true tables s (List.mem_range.mpr low)
    obtain ⟨r, m', place, done, back⟩ := tear_down_iff (fun _ _ => rfl) (fun _ _ => rfl) (placePage_prepared emptySpace_prepared placed)
    rw [fields] at place back
    obtain rfl := Option.some.inj place
    refine ⟨space, m', rfl, done, fun f => ((back.mpr ?_).1 f).trans List.mem_singleton⟩
    intro i low there
    obtain rfl | rfl : i = 0 ∨ i = 1 := by
      unfold top at low
      omega
    · have first : 0x200000 / ptSize = 1 := by decide
      have last : lastSlot 0x201000 = 2 := by decide
      have slots : ∀ s, s ∈ (⟨0, 0x200000, 0x201000, vmRead⟩ : Vma).slots 0 ↔ s = 1 := by
        intro s
        rw [Vma.slots, first, last, mem_slotsOf]
        omega
      refine ⟨[], _, [], rfl, ⟨⟨1, (slots 1).mpr rfl⟩, ?_⟩, ?_, ?_⟩
      · intro s own
        obtain rfl := (slots s).mp own
        exact ⟨(tables 1 (by decide)).mpr rfl, fun _ impossible => absurd impossible List.not_mem_nil⟩
      · intro front area behind split
        exact absurd (congrArg List.length split) (by simp)
      · intro s region there
        exact ⟨_, List.mem_singleton_self _, (slots s).mpr ((tables s (by omega)).mp there)⟩
    · exact absurd dir there

/-- Two pages in areas of the same region: the page table of the second one is lost. -/
theorem tear_down_leaks : ¬ ∀ (boot : Frame) (start : Mem) (mm : MmStruct) (m : Mem), (∀ f, f ∉ start.used → start.ref f = 0) →
    (∀ i < top, start.word boot i = 0) → Prepared boot start mm m →
    ∃ m', (mm.exitMmap m >>= putPgdir mm) = .ok m' ∧ (∀ f, f ∈ m'.used ↔ f ∈ start.used) ∧ m'.nrFreePages = start.nrFreePages := by
  intro returns
  have leak : (placePage 0x200000 emptySpace >>= placePage 0x400000 >>= fun space => space.1.exitMmap space.2 >>= putPgdir space.1).map
      (fun m => decide (nbase + 6 ∈ m.used)) = .ok true := by
    decide +kernel
  cases first : placePage 0x200000 emptySpace with
  | error halt =>
    rw [first] at leak
    cases leak
  | ok space =>
    rw [first, ok_bind] at leak
    cases second : placePage 0x400000 space with
    | error halt =>
      rw [second] at leak
      cases leak
    | ok space' =>
      rw [second, ok_bind] at leak
      have prepared := placePage_prepared (placePage_prepared emptySpace_prepared first) second
      obtain ⟨m', done, same, _⟩ := returns nbase Mem.eightPagesHeap space'.1 space'.2 (fun _ _ => rfl) (fun _ _ => rfl) prepared
      rw [done] at leak
      have inUse : nbase + 6 ∈ m'.used := of_decide_eq_true (Except.ok.inj leak)
      exact absurd ((same _).mp inUse) (by decide)

end Ucore
