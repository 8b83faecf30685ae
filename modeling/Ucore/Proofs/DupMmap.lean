import Mathlib
import Ucore.Proofs.TearDown
import Ucore.Proofs.CopyRange
import Ucore.Proofs.RefRuns

/-! `dup_mmap`: the areas of an address space and the pages that are mapped in them are copied to
an address space that is empty. -/

namespace Ucore
open Lib

/-- The page numbers in the areas. -/
def covered (vmas : List Vma) : Set Nat := {x | ∃ vma ∈ vmas, vma.Covers x}

/-- What the fork of an area takes over. -/
def Vma.range (vma : Vma) : Nat × Nat × BitVec 32 := (vma.vmStart, vma.vmEnd, vma.vmFlags)

variable {roots : Finset Frame} {held other : Set Frame} {m m' : Mem} {p c f : Frame} {vma area : Vma} {vmas news : List Vma}
  {source target target' : MmStruct} {ret : Int}

theorem covered_nil : covered [] = ∅ := by
  refine Set.eq_empty_of_forall_notMem ?_
  rintro x ⟨vma, impossible, _⟩
  exact absurd impossible List.not_mem_nil

theorem covered_cons : covered (vma :: vmas) = Set.Ico (vma.vmStart / pgSize) (vma.vmEnd / pgSize) ∪ covered vmas := by
  ext x
  constructor
  · rintro ⟨area, place, covers⟩
    rcases List.mem_cons.mp place with rfl | place
    · exact .inl covers
    · exact .inr ⟨area, place, covers⟩
  · rintro (covers | ⟨area, place, covers⟩)
    · exact ⟨vma, List.mem_cons_self, covers⟩
    · exact ⟨area, List.mem_cons_of_mem _ place, covers⟩

theorem covered_append : covered (vmas ++ news) = covered vmas ∪ covered news := by
  ext x
  constructor
  · rintro ⟨area, place, covers⟩
    exact (List.mem_append.mp place).imp (fun place => ⟨area, place, covers⟩) fun place => ⟨area, place, covers⟩
  · rintro (⟨area, place, covers⟩ | ⟨area, place, covers⟩)
    · exact ⟨area, List.mem_append_left _ place, covers⟩
    · exact ⟨area, List.mem_append_right _ place, covers⟩

theorem covered_range (less : news.map Vma.range ⊆ vmas.map Vma.range) : covered news ⊆ covered vmas := by
  rintro x ⟨area, place, covers⟩
  obtain ⟨vma, there, same⟩ := List.mem_map.mp (less (List.mem_map_of_mem place))
  obtain ⟨first, rest⟩ := Prod.mk.inj same
  obtain ⟨last, _⟩ := Prod.mk.inj rest
  refine ⟨vma, there, ?_⟩
  rw [Vma.Covers, first, last]
  exact covers

theorem covers_user (passed : Mem.assertRange vma.vmStart vma.vmEnd = .ok ()) {x : Nat} (covers : vma.Covers x) : x < userPages := by
  obtain ⟨_, _, user⟩ := assertRange_ok passed
  have limit := user.2.2
  have high := covers.2
  unfold userTop at limit
  unfold pgSize at high
  unfold userPages top
  omega

theorem covered_user (passes : RangesPass vmas) {x : Nat} (inside : x ∈ covered vmas) : x < userPages := by
  obtain ⟨area, place, covers⟩ := inside
  exact covers_user (passes area place) covers

theorem withArea_front {areas : List Vma} (ahead : ∀ area ∈ areas, vma.vmStart < area.vmStart) :
    MmStruct.withArea vma areas = vma :: areas := by
  cases areas with
  | nil => rfl
  | cons first rest => exact List.orderedInsert_cons_of_le _ rest (ahead first List.mem_cons_self)

private theorem Copying.kmalloc {answer : Option Block} {m₁ : Mem} {D : Set Nat} (asked : m.kmalloc = (answer, m₁))
    (copying : Copying roots c D m₁ m') : Copying roots c D m m' := by
  have same := kmalloc_same asked
  rw [same] at copying
  exact ⟨copying.leaf, copying.word, copying.used, copying.ref, copying.tables, copying.npage⟩

private theorem Copied.kmalloc {answer : Option Block} {m₁ : Mem} {D : Set Nat} (asked : m.kmalloc = (answer, m₁))
    (copied : Copied roots c p D m₁ m') : Copied roots c p D m m' := by
  have same := kmalloc_same asked
  refine ⟨copied.toCopying.kmalloc asked, ?_, ?_⟩
  · rw [same] at copied
    exact copied.copied
  · rw [same] at copied
    exact copied.skipped

/-- What `dup_mmap` has made of the child: new areas in front of those it had. -/
structure Duplicated (roots : Finset Frame) (c : Frame) (news : List Vma) (m m' : Mem) (target target' : MmStruct) : Prop where
  kept : target'.Kept
  fields : target' = { target with mmapList := news ++ target.mmapList, mmapCache := target'.mmapCache, mapCount := target'.mapCount }
  blocks : m'.blocks = news.map Vma.block ++ m.blocks
  passes : RangesPass news
  copying : Copying roots c (covered news) m m'

section Area

variable (counted : Counted roots held other m) (child : c ∈ roots) (parent : p ∈ roots) (apart : p ≠ c)
  (place : target.pgdir = some c) (origin : source.pgdir = some p) (kept : target.Kept)
include counted child parent apart place origin kept

theorem Counted.dupVma (size : vma.vmStart < vma.vmEnd) (ahead : ∀ area ∈ target.mmapList, vma.vmEnd ≤ area.vmStart)
    (empty : ∀ x < userPages, vma.Covers x → m.target (c, x) = none) (dup : MmStruct.dupVma source vma target m = .ok (ret, target', m')) :
    Counted roots held other m' ∧ ∃ news, Duplicated roots c news m m' target target' ∧
      (ret = 0 ∧ news.map Vma.range = [vma.range] ∧ Copied roots c p (covered [vma]) m m' ∨ ret = -eNoMem) := by
  unfold MmStruct.dupVma vmaCreate at dup
  cases asked : m.kmalloc with
  | mk answer m₁ =>
    rw [asked] at dup
    have counted₁ := counted.kmalloc asked
    cases answer with
    | none =>
      obtain ⟨rfl, sames⟩ := Prod.mk.inj (Except.ok.inj dup)
      obtain ⟨rfl, rfl⟩ := Prod.mk.inj sames
      refine ⟨counted₁, [], ⟨kept, rfl, kmalloc_none asked, fun _ impossible => absurd impossible List.not_mem_nil, ?_⟩, .inr rfl⟩
      exact Copying.refl.kmalloc asked
    | some block =>
      obtain ⟨target₁, inserted, dup⟩ := bind_ok dup
      obtain ⟨kept₁, after⟩ := MmStruct.insertVmaStruct_spec kept inserted
      have front : MmStruct.withArea ⟨block, vma.vmStart, vma.vmEnd, vma.vmFlags⟩ target.mmapList =
          ⟨block, vma.vmStart, vma.vmEnd, vma.vmFlags⟩ :: target.mmapList :=
        withArea_front fun area there => lt_of_lt_of_le size (ahead area there)
      rw [front] at after
      have place₁ : target₁.pgdir = some c := by
        rw [after]
        exact place
      rw [place₁, origin, deref, deref, ok_bind, ok_bind] at dup
      obtain ⟨⟨code, m₂⟩, copied, result⟩ := bind_ok dup
      obtain ⟨rfl, sames⟩ := Prod.mk.inj (Except.ok.inj result)
      obtain ⟨rfl, rfl⟩ := Prod.mk.inj sames
      obtain ⟨⟨⟩, passed, _⟩ := bind_ok copied
      have bare : ∀ x, vma.vmStart / pgSize ≤ x → x < vma.vmEnd / pgSize → m₁.target (c, x) = none := by
        intro x low high
        rw [kmalloc_same asked]
        exact empty x (covers_user passed ⟨low, high⟩) ⟨low, high⟩
      obtain ⟨counted', codes, effect⟩ := counted₁.copyRange child parent copied
      obtain ⟨heap, copying, worked⟩ := effect apart bare
      have pages : covered [(⟨block, vma.vmStart, vma.vmEnd, vma.vmFlags⟩ : Vma)] = Set.Ico (vma.vmStart / pgSize) (vma.vmEnd / pgSize) := by
        rw [covered_cons, covered_nil, Set.union_empty]
      refine ⟨counted', [⟨block, vma.vmStart, vma.vmEnd, vma.vmFlags⟩], ⟨kept₁, ?_, ?_, ?_, ?_⟩, ?_⟩
      · rw [after]
        rfl
      · rw [heap.1, (kmalloc_some asked).2]
        rfl
      · intro area there
        rw [List.mem_singleton.mp there]
        exact passed
      · rw [pages]
        exact copying.kmalloc asked
      · rcases codes with rfl | rfl
        · refine .inl ⟨rfl, rfl, ?_⟩
          rw [covered_cons, covered_nil, Set.union_empty]
          exact (worked rfl).kmalloc asked
        · exact .inr rfl

end Area

theorem Duplicated.trans {m₁ : Mem} {target₁ : MmStruct} {news₁ : List Vma} (first : Duplicated roots c news₁ m m₁ target target₁)
    (second : Duplicated roots c news m₁ m' target₁ target') : Duplicated roots c (news ++ news₁) m m' target target' where
  kept := second.kept
  fields := by
    rw [second.fields, first.fields, List.append_assoc]
  blocks := by
    rw [second.blocks, first.blocks, List.map_append, List.append_assoc]
  passes vma there := (List.mem_append.mp there).elim (second.passes vma) (first.passes vma)
  copying := by
    rw [covered_append]
    exact (first.copying.mono Set.subset_union_right).trans (second.copying.mono Set.subset_union_left)

/-- The loop of `dup_mmap`, over areas whose addresses go down. -/
theorem Counted.dupVmas (counted : Counted roots held other m) (child : c ∈ roots) (parent : p ∈ roots) (apart : p ≠ c)
    (place : target.pgdir = some c) (origin : source.pgdir = some p) (kept : target.Kept)
    (sorted : vmas.Pairwise fun vma earlier => earlier.vmEnd ≤ vma.vmStart) (sizes : ∀ vma ∈ vmas, vma.vmStart < vma.vmEnd)
    (ahead : ∀ vma ∈ vmas, ∀ area ∈ target.mmapList, vma.vmEnd ≤ area.vmStart)
    (empty : ∀ x < userPages, x ∈ covered vmas → m.target (c, x) = none)
    (dup : MmStruct.dupVmas source vmas target m = .ok (ret, target', m')) :
    Counted roots held other m' ∧ ∃ news, Duplicated roots c news m m' target target' ∧
      (ret = 0 ∧ news.map Vma.range = (vmas.map Vma.range).reverse ∧ Copied roots c p (covered vmas) m m' ∨ ret = -eNoMem) := by
  induction vmas generalizing target m with
  | nil =>
    cases dup
    refine ⟨counted, [], ⟨kept, rfl, rfl, fun _ impossible => absurd impossible List.not_mem_nil, .refl⟩, .inl ⟨rfl, rfl, ?_⟩⟩
    exact .nothing fun x impossible => by
      rw [covered_nil] at impossible
      exact absurd impossible (Set.notMem_empty x)
  | cons vma rest ih =>
    obtain ⟨earlier, sorted⟩ := List.pairwise_cons.mp sorted
    have size := sizes vma List.mem_cons_self
    obtain ⟨⟨code, target₁, m₁⟩, one, dup⟩ := bind_ok dup
    have bare : ∀ x < userPages, vma.Covers x → m.target (c, x) = none :=
      fun x inside covers => empty x inside ⟨vma, List.mem_cons_self, covers⟩
    obtain ⟨counted₁, news₁, first, result⟩ := counted.dupVma child parent apart place origin kept size (ahead vma List.mem_cons_self) bare one
    rcases result with ⟨rfl, ranges, copied⟩ | rfl
    · dsimp only at dup
      rw [if_neg (not_not.mpr rfl)] at dup
      have place₁ : target₁.pgdir = some c := by
        rw [first.fields]
        exact place
      have list₁ : target₁.mmapList = news₁ ++ target.mmapList := by rw [first.fields]
      have ahead₁ : ∀ later ∈ rest, ∀ area ∈ target₁.mmapList, later.vmEnd ≤ area.vmStart := by
        intro later there area member
        have before := earlier later there
        rw [list₁] at member
        rcases List.mem_append.mp member with isNew | old
        · have same : area.range ∈ [vma.range] := by
            rw [← ranges]
            exact List.mem_map_of_mem isNew
          have start : area.vmStart = vma.vmStart := congrArg Prod.fst (List.mem_singleton.mp same)
          rw [start]
          exact before
        · exact before.trans (size.le.trans (ahead vma List.mem_cons_self area old))
      have separate : Disjoint (covered [vma]) (covered rest) := by
        refine Set.disjoint_left.mpr ?_
        rintro x ⟨area, member, low, _⟩ ⟨later, there, _, high⟩
        rw [List.mem_singleton.mp member] at low
        have order : later.vmEnd / pgSize ≤ vma.vmStart / pgSize := Nat.div_le_div_right (earlier later there)
        omega
      have less : covered news₁ ⊆ covered [vma] := covered_range (by rw [ranges]; exact List.Subset.refl _)
      have empty₁ : ∀ x < userPages, x ∈ covered rest → m₁.target (c, x) = none := by
        intro x inside covers
        rw [Mem.target, first.copying.leaf c child x inside fun both => Set.disjoint_left.mp separate (less both.2) covers]
        refine empty x inside ?_
        rw [covered_cons]
        exact .inr covers
      obtain ⟨counted', news, second, result⟩ := ih counted₁ place₁ first.kept sorted (fun vma there => sizes vma (List.mem_cons_of_mem _ there))
        ahead₁ empty₁ dup
      refine ⟨counted', _, first.trans second, result.imp ?_ id⟩
      rintro ⟨rfl, ranges', copied'⟩
      refine ⟨rfl, ?_, ?_⟩
      · rw [List.map_append, ranges', ranges, List.map_cons, List.reverse_cons]
      · have union : covered (vma :: rest) = covered [vma] ∪ covered rest := by
          rw [← covered_append, List.singleton_append]
        rw [union]
        refine copied.trans child parent apart counted counted₁ counted' copied' separate ?_
        rintro x (inFirst | inRest)
        · exact covered_user first.passes (covered_range (by rw [ranges]; exact List.Subset.refl _) inFirst)
        · exact covered_user second.passes (covered_range (by rw [ranges']; exact List.subset_reverse.mpr (List.Subset.refl _)) inRest)
    · dsimp only at dup
      rw [if_pos (by decide)] at dup
      cases dup
      exact ⟨counted₁, news₁, first, .inr rfl⟩

/-- What the page directories `roots` map is the same in both states, and so are the words and the `ref` of these pages. -/
def Untouched (roots : Finset Frame) (m m' : Mem) : Prop :=
  ∀ r ∈ roots, ∀ la < userTop, ∃ pte, m.translation r la = .ok pte ∧ m'.translation r la = .ok pte ∧
    (valid pte = true → m'.word (pteFrame pte) = m.word (pteFrame pte) ∧ m'.ref (pteFrame pte) = m.ref (pteFrame pte))

/-- The page directory `c` maps a page exactly if `p` maps it and an area covers it, with the same permissions, to a page with the same
words that has no other mapping. -/
def CopyOf (roots : Finset Frame) (vmas : List Vma) (p c : Frame) (m : Mem) : Prop :=
  ∀ la < userTop, ∃ pte pte', m.translation p la = .ok pte ∧ m.translation c la = .ok pte' ∧
    (valid pte' = true ↔ valid pte = true ∧ ∃ vma ∈ vmas, vma.has la = true) ∧
    (valid pte' = true → pte' &&& pteUser = pte &&& pteUser ∧ m.word (pteFrame pte') = m.word (pteFrame pte) ∧ m.ref (pteFrame pte') = 1 ∧
      ∀ r ∈ insert c roots, ∀ other < userTop, ∀ pte'', m.translation r other = .ok pte'' → valid pte'' = true →
        pteFrame pte'' = pteFrame pte' → r = c ∧ other / pgSize = la / pgSize)

private theorem covers_has (passed : Mem.assertRange vma.vmStart vma.vmEnd = .ok ()) (la : Nat) : vma.Covers (la / pgSize) ↔ vma.has la = true := by
  obtain ⟨first, last, _⟩ := assertRange_ok passed
  rw [Vma.has, Bool.and_eq_true, decide_eq_true_eq, decide_eq_true_eq]
  unfold Vma.Covers pgSize
  unfold pgSize at first last
  omega

section Fork

variable {m₁ : Mem} (counted : Counted roots held other m) (setup : Setup roots c m m₁) (counted' : Counted (insert c roots) held other m')
include counted setup counted'

private theorem Copying.untouched {D : Set Nat} (copying : Copying (insert c roots) c D m₁ m') : Untouched roots m m' := by
  intro r root la user
  have inside := page_of_user user
  have apart : r ≠ c := by
    rintro rfl
    exact setup.fresh (counted.paged.sound r ⟨.root r, trivial, root, rfl⟩).1
  have wide : r ∈ insert c roots := Finset.mem_insert_of_mem root
  have leaf : m'.leaf r (la / pgSize) = m.leaf r (la / pgSize) := by
    rw [copying.leaf r wide _ inside fun both => apart both.1, setup.leaf r root _ inside]
  refine ⟨m.leaf r (la / pgSize), translation_eq counted.paged.addressable root user, ?_, fun isValid => ?_⟩
  · rw [translation_eq counted'.paged.addressable wide user, leaf]
  · have mapped : m.Mapped roots (pteFrame (m.leaf r (la / pgSize))) := ⟨r, root, _, inside, target_some isValid⟩
    have mapped' : m'.Mapped (insert c roots) (pteFrame (m.leaf r (la / pgSize))) := by
      refine ⟨r, wide, _, inside, ?_⟩
      rw [Mem.target, leaf]
      exact target_some isValid
    have inUse := (counted.mapped _ mapped).1
    have inUse₁ : pteFrame (m.leaf r (la / pgSize)) ∈ m₁.used := by
      rw [setup.used]
      exact List.mem_cons_of_mem _ inUse
    have notTable : ¬ m'.IsTable {c} (pteFrame (m.leaf r (la / pgSize))) :=
      fun table => (counted'.mapped _ mapped').2.2.1 (IsTable.single (Finset.mem_insert_self c roots) table)
    have notRoot : pteFrame (m.leaf r (la / pgSize)) ≠ c := fun same => setup.fresh (same ▸ inUse)
    rw [copying.word _ inUse₁ notTable, copying.ref _ inUse₁, setup.word _ notRoot, setup.ref]
    exact ⟨rfl, rfl⟩

private theorem Copied.copyOf (root : p ∈ roots) (passes : RangesPass vmas) (copied : Copied (insert c roots) c p (covered vmas) m₁ m') :
    CopyOf roots vmas p c m' := by
  intro la user
  have inside := page_of_user user
  have child := Finset.mem_insert_self c roots
  have wide : p ∈ insert c roots := Finset.mem_insert_of_mem root
  have counted₁ := setup.counted counted
  have apart : p ≠ c := by
    rintro rfl
    exact setup.fresh (counted.paged.sound p ⟨.root p, trivial, root, rfl⟩).1
  have parent : m'.leaf p (la / pgSize) = m₁.leaf p (la / pgSize) := copied.leaf p wide _ inside fun both => apart both.1
  have place : (∃ vma ∈ vmas, vma.has la = true) ↔ la / pgSize ∈ covered vmas :=
    exists_congr fun vma => and_congr_right fun there => (covers_has (passes vma there) la).symm
  have bare : ¬ valid (m₁.leaf c (la / pgSize)) = true := entry_invalid (setup.target inside)
  refine ⟨m'.leaf p (la / pgSize), m'.leaf c (la / pgSize), translation_eq counted'.paged.addressable wide user,
    translation_eq counted'.paged.addressable child user, ?_, ?_⟩
  · rw [place, parent]
    by_cases inD : la / pgSize ∈ covered vmas
    · by_cases isValid : valid (m₁.leaf p (la / pgSize)) = true
      · obtain ⟨page, _, _, leaf, _⟩ := copied.copied _ inD isValid
        rw [leaf]
        exact iff_of_true (valid_pteCreate ..) ⟨isValid, inD⟩
      · rw [copied.skipped _ inD isValid]
        exact iff_of_false bare fun both => isValid both.1
    · rw [copied.leaf c child _ inside fun both => inD both.2]
      exact iff_of_false bare fun both => inD both.2
  · intro isValid'
    have inD : la / pgSize ∈ covered vmas := by
      by_contra away
      rw [copied.leaf c child _ inside fun both => away both.2] at isValid'
      exact bare isValid'
    have isValid : valid (m₁.leaf p (la / pgSize)) = true := by
      by_contra invalid
      rw [copied.skipped _ inD invalid] at isValid'
      exact bare isValid'
    obtain ⟨page, _, managed, leaf, copy, once⟩ := copied.copied _ inD isValid
    have frame : entry (m'.leaf c (la / pgSize)) = some page := by
      rw [leaf]
      exact entry_pteCreate (lt_of_lt_of_le managed.2 m₁.npage_le) (or_flags (copyPerm_flags _))
    have target : m'.target (c, la / pgSize) = some page := frame
    rw [(entry_valid frame).2, parent]
    refine ⟨?_, ?_, once, ?_⟩
    · rw [leaf]
      exact copyPerm_user page isValid
    · have mapped₁ : m₁.Mapped (insert c roots) (pteFrame (m₁.leaf p (la / pgSize))) := ⟨p, wide, _, inside, target_some isValid⟩
      have mapped' : m'.Mapped (insert c roots) (pteFrame (m₁.leaf p (la / pgSize))) := by
        refine ⟨p, wide, _, inside, ?_⟩
        rw [Mem.target, parent]
        exact target_some isValid
      rw [copy, copied.word _ (counted₁.mapped _ mapped₁).1
        fun table => (counted'.mapped _ mapped').2.2.1 (IsTable.single child table)]
    · intro r own other low pte'' found isValid'' same
      rw [translation_eq counted'.paged.addressable own low] at found
      obtain rfl := Except.ok.inj found
      have there : m'.target (r, other / pgSize) = some page := by
        rw [← same]
        exact target_some isValid''
      have count := counted'.count page ⟨c, child, _, inside, target⟩
      rw [once] at count
      have same := pointers_single count.symm (Finset.mem_product.mpr ⟨child, Finset.mem_range.mpr inside⟩) target
        (Finset.mem_product.mpr ⟨own, Finset.mem_range.mpr (page_of_user low)⟩) there
      exact ⟨congrArg Prod.fst same, congrArg Prod.snd same⟩

end Fork

section Forked

variable {boot : Frame} {start s : UserPages} (blank : Blank roots start) (run : TidyRun roots start s) (built : source.Built) (root : p ∈ roots)
  (origin : source.pgdir = some p) (zero : ∀ i < top, s.mem.word boot i = 0) (setup : setupPgdir boot .fresh s.mem = (0, target, m))
  (dup : target.dupMmap source m = .ok (ret, target', m'))
include blank run built root origin zero setup dup

private theorem forked : ∃ c held other, Counted roots held other s.mem ∧ Setup roots c s.mem m ∧ Counted (insert c roots) held other m' ∧
    target'.pgdir = some c ∧ c ∉ roots ∧ (∃ D, Copying (insert c roots) c D m m') ∧
    (ret = 0 ∧ target'.mmapList.map Vma.range = source.mmapList.map Vma.range ∧ RangesPass source.mmapList ∧
      Copied (insert c roots) c p (covered source.mmapList) m m' ∨ ret = -eNoMem) := by
  obtain ⟨other, books⟩ := blank.books.run run
  have counted := books.counted
  obtain ⟨c, rfl, taken⟩ := setupPgdir_ok counted.paged zero setup
  have strange : c ∉ roots := fun mine => taken.fresh (counted.paged.sound c ⟨.root c, trivial, mine, rfl⟩).1
  have apart : p ≠ c := by
    rintro rfl
    exact strange root
  have spans := built.kept.spans
  have kept : MmStruct.Kept { MmStruct.fresh with pgdir := some c } := ⟨.nil, fun cache held => by cases held⟩
  obtain ⟨counted', news, duplicated, result⟩ := (taken.counted counted).dupVmas (Finset.mem_insert_self c roots)
    (Finset.mem_insert_of_mem root) apart rfl origin kept (List.pairwise_reverse.mpr spans.apart)
    (fun vma there => spans.nonempty vma (List.mem_reverse.mp there)) (fun _ _ area impossible => absurd impossible List.not_mem_nil)
    (fun x inside _ => taken.target inside) dup
  have list : target'.mmapList = news := by
    rw [duplicated.fields]
    exact List.append_nil news
  refine ⟨c, _, _, counted, taken, counted', ?_, strange, ⟨_, duplicated.copying⟩, result.imp ?_ id⟩
  · rw [duplicated.fields]
  · rintro ⟨rfl, ranges, copied⟩
    rw [List.map_reverse, List.reverse_reverse] at ranges
    have pages : covered source.mmapList.reverse = covered source.mmapList := by
      refine Set.Subset.antisymm (covered_range ?_) (covered_range ?_)
      · exact List.map_subset _ (List.reverse_subset.mpr (List.Subset.refl _))
      · exact List.map_subset _ (List.subset_reverse.mpr (List.Subset.refl _))
    have passes : RangesPass source.mmapList := by
      intro vma there
      have member : vma.range ∈ news.map Vma.range := by
        rw [ranges]
        exact List.mem_map_of_mem there
      obtain ⟨area, isNew, same⟩ := List.mem_map.mp member
      obtain ⟨first, rest⟩ := Prod.mk.inj same
      obtain ⟨last, _⟩ := Prod.mk.inj rest
      rw [← first, ← last]
      exact duplicated.passes area isNew
    rw [pages] at copied
    exact ⟨rfl, by rw [list, ranges], passes, copied⟩

end Forked

/-- Whatever `dup_mmap` returns, no page directory loses or shares a page. If it returns zero, the child has the areas of the parent and
copies of the pages in them. -/
theorem dup_mmap_isolates {boot : Frame} {start s : UserPages} (blank : Blank roots start) (run : TidyRun roots start s)
    (built : source.Built) (root : p ∈ roots) (origin : source.pgdir = some p) (zero : ∀ i < top, s.mem.word boot i = 0)
    (setup : setupPgdir boot .fresh s.mem = (0, target, m)) (dup : target.dupMmap source m = .ok (ret, target', m')) :
    ∃ c, target'.pgdir = some c ∧ c ∉ roots ∧ Untouched roots s.mem m' ∧
      (ret = 0 ∧ target'.mmapList.map Vma.range = source.mmapList.map Vma.range ∧ CopyOf roots source.mmapList p c m' ∨ ret = -eNoMem) := by
  obtain ⟨c, _, _, counted, taken, counted', place, strange, ⟨_, copying⟩, result⟩ := forked blank run built root origin zero setup dup
  refine ⟨c, place, strange, copying.untouched counted taken counted', result.imp ?_ id⟩
  rintro ⟨zero, ranges, passes, copied⟩
  exact ⟨zero, ranges, copied.copyOf counted taken counted' root passes⟩

/-- Nothing else maps the page that the entry at `la` of `c` shows. -/
def Mem.Alone (roots : Finset Frame) (c : Frame) (la : Nat) (pte : BitVec 64) (m : Mem) : Prop :=
  ∀ r ∈ roots, ∀ other < userTop, ∀ pte', m.translation r other = .ok pte' → valid pte' = true → pteFrame pte' = pteFrame pte →
    r = c ∧ other / pgSize = la / pgSize

/-- In the areas the child `c` maps what the parent `p` maps, each page to one of its own with the same words, and outside of them nothing. -/
structure ForkOf (roots : Finset Frame) (vmas : List Vma) (p c : Frame) (m m' : Mem) : Prop where
  inside : ∀ vma ∈ vmas, ∀ la, vma.has la = true → ∃ pte pte', m.translation p la = .ok pte ∧ m'.translation c la = .ok pte' ∧
    (valid pte' = true ↔ valid pte = true) ∧ (valid pte' = true → pte' &&& pteUser = pte &&& pteUser ∧
      m'.word (pteFrame pte') = m.word (pteFrame pte) ∧ m'.ref (pteFrame pte') = 1 ∧ m'.Alone (insert c roots) c la pte')
  outside : ∀ la < userTop, (∀ vma ∈ vmas, vma.has la = false) → ∃ pte', m'.translation c la = .ok pte' ∧ valid pte' = false

private theorem CopyOf.forkOf (copyOf : CopyOf roots vmas p c m') (untouched : Untouched roots m m') (root : p ∈ roots)
    (passes : RangesPass vmas) : ForkOf roots vmas p c m m' := by
  constructor
  · intro vma there la has
    obtain ⟨_, below⟩ := Bool.and_eq_true_iff.mp has
    obtain ⟨_, _, user⟩ := assertRange_ok (passes vma there)
    have user : la < userTop := lt_of_lt_of_le (of_decide_eq_true below) user.2.2
    obtain ⟨pte, pte', here, copied, same, kept⟩ := copyOf la user
    obtain ⟨before, found, after, words⟩ := untouched p root la user
    obtain rfl := Except.ok.inj (here.symm.trans after)
    refine ⟨pte, pte', found, copied, ⟨fun isValid => (same.mp isValid).1, fun isValid => same.mpr ⟨isValid, vma, there, has⟩⟩, ?_⟩
    intro isValid
    obtain ⟨perm, copy, once, alone⟩ := kept isValid
    exact ⟨perm, copy.trans (words (same.mp isValid).1).1, once, alone⟩
  · intro la user outside
    obtain ⟨_, pte', _, copied, same, _⟩ := copyOf la user
    refine ⟨pte', copied, Bool.eq_false_iff.mpr fun isValid => ?_⟩
    obtain ⟨_, vma, there, has⟩ := same.mp isValid
    rw [outside vma there] at has
    cases has

/-- A fork that returns zero gives the child the areas of the parent and pages of its own in them, and leaves the parent as it is. -/
theorem fork_isolation {boot : Frame} {start s : UserPages} (blank : Blank roots start) (run : TidyRun roots start s)
    (built : source.Built) (root : p ∈ roots) (origin : source.pgdir = some p) (zero : ∀ i < top, s.mem.word boot i = 0)
    (setup : setupPgdir boot .fresh s.mem = (0, target, m)) (dup : target.dupMmap source m = .ok (0, target', m')) :
    ∃ c, target'.pgdir = some c ∧ target'.mmapList.map Vma.range = source.mmapList.map Vma.range ∧
      ForkOf roots source.mmapList p c s.mem m' ∧ Untouched roots s.mem m' := by
  obtain ⟨c, _, _, counted, taken, counted', place, _, ⟨_, copying⟩, ⟨_, ranges, passes, copied⟩ | failed⟩ :=
    forked blank run built root origin zero setup dup
  · have untouched := copying.untouched counted taken counted'
    exact ⟨c, place, ranges, (copied.copyOf counted taken counted' root passes).forkOf untouched root passes, untouched⟩
  · cases failed

/-- An address space with one page, and its fork. -/
private structure OnePageFork (start m : Mem) (user : Set Frame) (target' : MmStruct) (m' : Mem) : Prop where
  allocated : Mem.eightPagesHeap.pgdirAllocPage nbase 0x400000 0x1F = .ok (some (nbase + 1), start)
  setup : setupPgdir 0 .fresh start = (0, ⟨[], none, some (nbase + 4), 0, 0, false⟩, m)
  dup : MmStruct.dupMmap ⟨[], none, some (nbase + 4), 0, 0, false⟩ (oneArea 0x400000 0x401000) m = .ok (0, target', m')
  child : target'.pgdir = some (nbase + 4)
  blank : Blank {nbase} ⟨Mem.eightPagesHeap, ∅⟩
  run : TidyRun {nbase} ⟨Mem.eightPagesHeap, ∅⟩ ⟨start, user⟩
  built : MmStruct.Built (oneArea 0x400000 0x401000)
  zero : ∀ i < top, start.word 0 i = 0

private theorem onePageFork : ∃ start m user target' m', OnePageFork start m user target' m' := by
  have facts : (Mem.eightPagesHeap.pgdirAllocPage nbase 0x400000 0x1F).map (fun answer => (answer.1, decide (answer.2.word 0 0 = 0 ∧
      answer.2.word 0 1 = 0 ∧ (setupPgdir 0 .fresh answer.2).1 = 0 ∧
      (setupPgdir 0 .fresh answer.2).2.1 = ⟨[], none, some (nbase + 4), 0, 0, false⟩))) = .ok (some (nbase + 1), true) := by
    decide +kernel
  have forks : (Mem.eightPagesHeap.pgdirAllocPage nbase 0x400000 0x1F).map (fun answer => ((MmStruct.dupMmap ⟨[], none, some (nbase + 4), 0, 0, false⟩
      (oneArea 0x400000 0x401000) (setupPgdir 0 .fresh answer.2).2.2).map (fun result => (result.1, result.2.1.pgdir))).toOption) =
      .ok (some (0, some (nbase + 4))) := by
    decide +kernel
  cases allocated : Mem.eightPagesHeap.pgdirAllocPage nbase 0x400000 0x1F with
  | error halt =>
    rw [allocated] at facts
    cases facts
  | ok answer =>
    obtain ⟨page, start⟩ := answer
    rw [allocated] at facts forks
    simp only [Except.map, Except.ok.injEq, Prod.mk.injEq, decide_eq_true_eq] at facts
    obtain ⟨rfl, first, second, code, space⟩ := facts
    have setup : setupPgdir 0 .fresh start = (0, ⟨[], none, some (nbase + 4), 0, 0, false⟩, (setupPgdir 0 .fresh start).2.2) :=
      Prod.ext code (Prod.ext space rfl)
    have returned := Except.ok.inj forks
    dsimp only at returned
    cases dup : MmStruct.dupMmap ⟨[], none, some (nbase + 4), 0, 0, false⟩ (oneArea 0x400000 0x401000) (setupPgdir 0 .fresh start).2.2 with
    | error halt =>
      rw [dup] at returned
      cases returned
    | ok result =>
      obtain ⟨ret, target', m'⟩ := result
      rw [dup] at returned
      obtain ⟨rfl, child⟩ := Prod.mk.inj (Option.some.inj returned)
      have blank : Blank {nbase} ⟨Mem.eightPagesHeap, ∅⟩ := ⟨by decide, by decide, fun _ _ _ _ => rfl, fun _ _ => rfl, rfl⟩
      have call : (PageCall.pgdirAllocPage nbase 0x400000 0x1F).Runs {nbase} ⟨Mem.eightPagesHeap, ∅⟩ ⟨start, (PageCall.pgdirAllocPage nbase
          0x400000 0x1F).userAfter {nbase} ⟨Mem.eightPagesHeap, ∅⟩ start⟩ := by
        refine ⟨⟨Finset.mem_singleton_self nbase, by decide, by decide⟩, ?_, rfl⟩
        rw [PageCall.run, allocated]
        rfl
      have run : TidyRun {nbase} ⟨Mem.eightPagesHeap, ∅⟩ ⟨start, _⟩ := .single ⟨_, call, fun mm impossible => by cases impossible⟩
      have built : MmStruct.Built (oneArea 0x400000 0x401000) := by
        have mapped : (⟨[], none, some nbase, 0, 0, false⟩ : MmStruct).mmMap 0x400000 0x1000 vmRead Mem.eightPagesHeap =
            .ok (0, oneArea 0x400000 0x401000, _) := rfl
        exact .mapped (.created (some nbase) 0 false) (by decide) (by decide) mapped
      have zero : ∀ i < top, start.word 0 i = 0 := by
        intro i low
        obtain rfl | rfl : i = 0 ∨ i = 1 := by
          unfold top at low
          omega
        · exact first
        · exact second
      exact ⟨start, _, _, target', m', ⟨allocated, setup, dup, child, blank, run, built, zero⟩⟩

/-- The fork of an address space with one page. -/
theorem dup_mmap_isolates_one : ∃ start m target' m', (Mem.eightPagesHeap.pgdirAllocPage nbase 0x400000 0x1F) = .ok (some (nbase + 1), start) ∧
    setupPgdir 0 .fresh start = (0, ⟨[], none, some (nbase + 4), 0, 0, false⟩, m) ∧
    MmStruct.dupMmap ⟨[], none, some (nbase + 4), 0, 0, false⟩ (oneArea 0x400000 0x401000) m = .ok (0, target', m') ∧
    CopyOf {nbase} (oneArea 0x400000 0x401000).mmapList nbase (nbase + 4) m' := by
  obtain ⟨start, m, user, target', m', fork⟩ := onePageFork
  obtain ⟨c, place, _, _, ⟨_, _, copyOf⟩ | failed⟩ :=
    dup_mmap_isolates fork.blank fork.run fork.built (Finset.mem_singleton_self nbase) rfl fork.zero fork.setup fork.dup
  · obtain rfl := Option.some.inj (place.symm.trans fork.child)
    exact ⟨start, m, target', m', fork.allocated, fork.setup, fork.dup, copyOf⟩
  · cases failed

/-- The child of an address space with one page. -/
theorem fork_isolation_one : ∃ (start m m' : Mem) (target' : MmStruct),
    Mem.eightPagesHeap.pgdirAllocPage nbase 0x400000 0x1F = .ok (some (nbase + 1), start) ∧
    MmStruct.dupMmap ⟨[], none, some (nbase + 4), 0, 0, false⟩ (oneArea 0x400000 0x401000) m = .ok (0, target', m') ∧
    target'.mmapList.map Vma.range = (oneArea 0x400000 0x401000).mmapList.map Vma.range ∧
    ForkOf {nbase} (oneArea 0x400000 0x401000).mmapList nbase (nbase + 4) start m' ∧ Untouched {nbase} start m' := by
  obtain ⟨start, m, user, target', m', fork⟩ := onePageFork
  obtain ⟨c, place, ranges, forkOf, untouched⟩ :=
    fork_isolation fork.blank fork.run fork.built (Finset.mem_singleton_self nbase) rfl fork.zero fork.setup fork.dup
  obtain rfl := Option.some.inj (place.symm.trans fork.child)
  exact ⟨start, m, m', target', fork.allocated, fork.dup, ranges, forkOf, untouched⟩

end Ucore
