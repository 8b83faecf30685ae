import Mathlib
import Ucore.Proofs.UnmapRange

/-! `copy_range`: each page of the source that is mapped is copied to a new page, which the
target maps with the same permissions. -/

namespace Ucore
open Lib

/-- The permissions that `copy_range` takes over from an entry. -/
def copyPerm (pte : BitVec 64) : BitVec 32 := (pte &&& pteUser).setWidth 32

/-- `kmalloc` and `kfree` were not called. -/
def SameHeap (m m' : Mem) : Prop := m'.blocks = m.blocks ∧ m'.kmallocs = m.kmallocs

/-- The page `v` of `src`, whose entry is `pte`, was copied to `page`, which nothing used before. -/
structure CopiedPage (roots : Finset Frame) (dst v page : Nat) (pte : BitVec 64) (m m' : Mem) : Prop where
  fresh : page ∉ m.used
  managed : nbase ≤ page ∧ page < m.npage
  leaf : ∀ r ∈ roots, ∀ x < userPages, m'.leaf r x = if r = dst ∧ x = v then pteCreate page (1 ||| copyPerm pte) else m.leaf r x
  copy : m'.word page = m.word (pteFrame pte)
  word : ∀ f ∈ m.used, ¬ m'.IsTable {dst} f → m'.word f = m.word f
  used : ∀ f ∈ m.used, f ∈ m'.used
  ref : ∀ f ∈ m.used, m'.ref f = m.ref f
  once : m'.ref page = 1
  tables : ∀ f, m.IsTable {dst} f → m'.IsTable {dst} f
  npage : m'.npage = m.npage
  heap : SameHeap m m'

variable {roots : Finset Frame} {held other : Set Frame} {m m' m'' : Mem} {dst src r page t f : Frame} {v lo hi la start stop fuel : Nat}
  {pte : BitVec 64} {code : Int}

theorem copyPerm_flags (pte : BitVec 64) : (copyPerm pte).toNat < 2 ^ 10 := by
  have bound : (pte &&& pteUser).toNat < 2 ^ 5 := by
    rw [BitVec.toNat_and]
    exact lt_of_le_of_lt Nat.and_le_right (by decide)
  rw [copyPerm, BitVec.toNat_setWidth]
  exact lt_of_le_of_lt (Nat.mod_le _ _) (lt_trans bound (by decide))

private theorem valid_bit {pte : BitVec 64} (isValid : valid pte = true) : pte &&& pteV = pteV := by
  have present : pte &&& pteV ≠ 0 := of_decide_eq_true isValid
  have bit : (pte &&& pteV).toNat = pte.toNat % 2 := by
    rw [BitVec.toNat_and]
    exact Nat.and_one_is_mod _
  apply BitVec.eq_of_toNat_eq
  rw [bit]
  have nonzero : (pte &&& pteV).toNat ≠ 0 := fun zero => present (BitVec.eq_of_toNat_eq zero)
  rw [bit] at nonzero
  exact Nat.mod_two_ne_zero.mp nonzero

private theorem copyPerm_width (pte : BitVec 64) : (copyPerm pte).setWidth 64 = pte &&& pteUser := by
  have bound : (pte &&& pteUser).toNat < 2 ^ 5 := by
    rw [BitVec.toNat_and]
    exact lt_of_le_of_lt Nat.and_le_right (by decide)
  apply BitVec.eq_of_toNat_eq
  rw [copyPerm, BitVec.toNat_setWidth, BitVec.toNat_setWidth]
  omega

theorem copyPerm_user {pte : BitVec 64} (page : Frame) (isValid : valid pte = true) :
    pteCreate page (1 ||| copyPerm pte) &&& pteUser = pte &&& pteUser := by
  have within : (0x3FF : BitVec 64) &&& pteUser = pteUser := by decide
  calc pteCreate page (1 ||| copyPerm pte) &&& pteUser
      = (pteCreate page (1 ||| copyPerm pte) &&& 0x3FF) &&& pteUser := by rw [BitVec.and_assoc, within]
    _ = (pteV ||| pte &&& pteUser) &&& pteUser := by rw [pteCreate_low page (copyPerm_flags pte), copyPerm_width]
    _ = ((pte ||| pteV) &&& pteUser) := by
      apply BitVec.eq_of_getLsbD_eq
      intro i _
      simp only [BitVec.getLsbD_and, BitVec.getLsbD_or]
      cases pte.getLsbD i <;> cases pteV.getLsbD i <;> cases pteUser.getLsbD i <;> rfl
    _ = pte &&& pteUser := by
      refine congrArg (· &&& pteUser) ?_
      rw [← valid_bit isValid]
      apply BitVec.eq_of_getLsbD_eq
      intro i _
      simp only [BitVec.getLsbD_and, BitVec.getLsbD_or]
      cases pte.getLsbD i <;> cases pteV.getLsbD i <;> rfl
/-- A page that is not mapped can be mapped without giving back another one. -/
theorem pageInsert_empty {perm : BitVec 32} (paged : Paged roots m) (root : dst ∈ roots) (user : la < userTop)
    (empty : m.target (dst, la / pgSize) = none) (inserted : m.pageInsert dst page la perm = .ok (0, m')) :
    ∃ m₁ t, Grown roots dst m m₁ ∧ Wrote dst (la / pgSize) (pteCreate page (1 ||| perm)) m₁ m' t ∧ m'.used = m₁.used ∧
      m'.ref = Function.update m₁.ref page (m₁.ref page + 1) := by
  obtain ⟨m₁, grown, ⟨failed, _⟩ | ⟨_, t, wrote, used, ref⟩⟩ := pageInsert_ok paged root user inserted
  · cases failed
  · have invalid : ¬ valid (m.leaf dst (la / pgSize)) = true := entry_invalid empty
    rw [Mem.swapped, if_neg invalid] at used ref
    exact ⟨m₁, t, grown, wrote, used, ref⟩

private theorem copied_page {m₁ m₂ : Mem} (counted₁ : Counted roots held other m₁) (root : dst ∈ roots) (user : la < userTop)
    (grown : Grown roots dst m m₁) (asked : m₁.allocPage = (some page, m₂))
    (backed : pteFrame pte ∈ m₁.used ∧ ¬ m₁.IsTable roots (pteFrame pte)) (empty : m.target (dst, la / pgSize) = none)
    (inserted : (m₂.setFrame page (m₂.word (pteFrame pte))).pageInsert dst page la (copyPerm pte) = .ok (0, m'))
    (once : m'.ref page = 1) : CopiedPage roots dst (la / pgSize) page pte m m' := by
  obtain ⟨unused, low, high, grew⟩ := allocPage_some asked
  have counted₂ := counted₁.alloc asked
  have mine : page ∈ insert page held := Set.mem_insert page held
  have counted₃ := counted₂.setFrame (counted₂.held page mine).2.2.1 (m₂.word (pteFrame pte))
  have inside := page_of_user user
  have notTable := (counted₂.held page mine).2.2.1
  have words₂ : m₂.word = m₁.word := by rw [grew]
  have used₂ : m₂.used = page :: m₁.used := by rw [grew]
  have leaf₃ : ∀ r ∈ roots, ∀ x < userPages, (m₂.setFrame page (m₂.word (pteFrame pte))).leaf r x = m.leaf r x := by
    intro r root x inside
    rw [setFrame_leaf notTable _ root inside, ← grown.leaf r root x inside, Mem.leaf, Mem.leaf, words₂]
  have empty₃ : (m₂.setFrame page (m₂.word (pteFrame pte))).target (dst, la / pgSize) = none := by
    rw [Mem.target, leaf₃ dst root _ inside]
    exact empty
  obtain ⟨m₅, t₅, grown₅, wrote, used₅, ref₅⟩ := pageInsert_empty counted₃.paged root user empty₃ inserted
  have counted₅ := counted₃.grown root grown₅
  obtain ⟨new, used₁, _⟩ := grown.used
  obtain ⟨new₅, grew₅, _⟩ := grown₅.used
  have keeps : ∀ f ∈ m.used, f ∈ m₁.used := fun f inUse => by
    rw [used₁]
    exact List.mem_append_right _ inUse
  have keeps₅ : ∀ f ∈ m₂.used, f ∈ m₅.used := fun f inUse => by
    rw [grew₅]
    exact List.mem_append_right _ inUse
  have apart : ∀ f ∈ m.used, f ≠ page := by
    rintro f inUse rfl
    exact unused (keeps f inUse)
  have table₅ : m₅.IsTable {dst} t₅ := ⟨_, Radix.slot_inside inside, Finset.mem_singleton_self _, wrote.table⟩
  have sorted : ∀ f, m₅.IsTable {dst} f → m'.IsTable {dst} f := by
    intro f table
    obtain ⟨n, within, owned, found⟩ := table
    refine ⟨n, within, owned, ?_⟩
    rw [← found]
    refine wrote.node counted₅.paged.unique root inside n within ?_
    rw [Finset.mem_singleton.mp owned]
    exact root
  have later : ∀ f, m₁.IsTable {dst} f → m₅.IsTable {dst} f := by
    intro f table
    obtain ⟨n, within, owned, found⟩ := table
    have own : n.owner ∈ roots := by
      rw [Finset.mem_singleton.mp owned]
      exact root
    refine ⟨n, within, owned, grown₅.node n within own f ?_⟩
    rw [setFrame_node notTable _ n within own, Mem.node, words₂]
    exact found
  have word : ∀ f ∈ m.used, ¬ m'.IsTable {dst} f → m'.word f = m.word f := by
    intro f inUse outside
    have outside₅ : ¬ m₅.IsTable {dst} f := fun table => outside (sorted f table)
    have other : f ≠ t₅ := by
      rintro rfl
      exact outside₅ table₅
    rw [wrote.same f other, grown₅.word f outside₅, ← grown.word f fun table => outside₅ (later f table), ← words₂]
    exact Function.update_of_ne (apart f inUse) _ _
  have pageTable : ¬ m₅.IsTable {dst} page := fun table => (counted₅.held page mine).2.2.1 (IsTable.single root table)
  have copy : m'.word page = m.word (pteFrame pte) := by
    have other : page ≠ t₅ := by
      rintro rfl
      exact pageTable table₅
    rw [wrote.same page other, grown₅.word page pageTable, ← grown.word _ fun table => backed.2 (IsTable.single root table), ← words₂]
    exact Function.update_self ..
  constructor
  · exact fun inUse => unused (keeps page inUse)
  · rw [← grown.npage]
    exact ⟨low, high⟩
  · intro r root' x within
    rw [wrote.leaf counted₅.paged.unique root inside within root', grown₅.leaf r root' x within, leaf₃ r root' x within]
  · exact copy
  · exact word
  · intro f inUse
    rw [used₅]
    refine keeps₅ f ?_
    rw [used₂]
    exact List.mem_cons_of_mem _ (keeps f inUse)
  · intro f inUse
    have ref₂ : m₂.ref = m₁.ref := by rw [grew]
    have inUse₂ : f ∈ m₂.used := by
      rw [used₂]
      exact List.mem_cons_of_mem _ (keeps f inUse)
    rw [ref₅, Function.update_of_ne (apart f inUse), grown₅.ref f fun fresh => fresh.2 inUse₂]
    show m₂.ref f = m.ref f
    rw [ref₂]
    exact grown.ref f fun fresh => fresh.2 inUse
  · exact once
  · exact fun f table => sorted f (later f (grown.table root table))
  · rw [wrote.npage, grown₅.npage, ← grown.npage]
    show m₂.npage = m₁.npage
    rw [grew]
  · rw [SameHeap, wrote.heap.1, wrote.heap.2, grown₅.heap.1, grown₅.heap.2, ← grown.heap.1, ← grown.heap.2]
    show m₂.blocks = m₁.blocks ∧ m₂.kmallocs = m₁.kmallocs
    rw [grew]
    exact ⟨rfl, rfl⟩

/-- Pages of `D` were mapped in `dst`, and nothing else that was in use has changed. -/
structure Copying (roots : Finset Frame) (dst : Frame) (D : Set Nat) (m m' : Mem) : Prop where
  leaf : ∀ r ∈ roots, ∀ x < userPages, ¬ (r = dst ∧ x ∈ D) → m'.leaf r x = m.leaf r x
  word : ∀ f ∈ m.used, ¬ m'.IsTable {dst} f → m'.word f = m.word f
  used : ∀ f ∈ m.used, f ∈ m'.used
  ref : ∀ f ∈ m.used, m'.ref f = m.ref f
  tables : ∀ f, m.IsTable {dst} f → m'.IsTable {dst} f
  npage : m'.npage = m.npage

/-- The pages of `D` that `src` maps were copied to pages that nothing used before. -/
structure Copied (roots : Finset Frame) (dst src : Frame) (D : Set Nat) (m m' : Mem) : Prop extends Copying roots dst D m m' where
  copied : ∀ x ∈ D, valid (m.leaf src x) = true → ∃ page, page ∉ m.used ∧ (nbase ≤ page ∧ page < m.npage) ∧
    m'.leaf dst x = pteCreate page (1 ||| copyPerm (m.leaf src x)) ∧ m'.word page = m.word (pteFrame (m.leaf src x)) ∧ m'.ref page = 1
  skipped : ∀ x ∈ D, ¬ valid (m.leaf src x) = true → m'.leaf dst x = m.leaf dst x

variable {D E : Set Nat} {held' other' held'' other'' : Set Frame}

theorem Copying.refl : Copying roots dst D m m :=
  ⟨fun _ _ _ _ _ => rfl, fun _ _ _ => rfl, fun _ inUse => inUse, fun _ _ => rfl, fun _ table => table, rfl⟩

theorem Copying.mono (copying : Copying roots dst D m m') (less : D ⊆ E) : Copying roots dst E m m' :=
  { copying with leaf := fun r root x inside away => copying.leaf r root x inside fun both => away ⟨both.1, less both.2⟩ }

theorem Copying.trans (first : Copying roots dst D m m') (second : Copying roots dst D m' m'') : Copying roots dst D m m'' where
  leaf r root x inside away := by rw [second.leaf r root x inside away, first.leaf r root x inside away]
  word f inUse notTable := by
    rw [second.word f (first.used f inUse) notTable, first.word f inUse fun table => notTable (second.tables f table)]
  used f inUse := second.used f (first.used f inUse)
  ref f inUse := by rw [second.ref f (first.used f inUse), first.ref f inUse]
  tables f table := second.tables f (first.tables f table)
  npage := second.npage.trans first.npage

theorem Grown.copying (grown : Grown roots dst m m') (root : dst ∈ roots) : Copying roots dst D m m' where
  leaf r root' x inside _ := grown.leaf r root' x inside
  word f _ notTable := grown.word f notTable
  used f inUse := by
    obtain ⟨new, used, _⟩ := grown.used
    rw [used]
    exact List.mem_append_right _ inUse
  ref f inUse := grown.ref f fun fresh => fresh.2 inUse
  tables f table := grown.table root table
  npage := grown.npage

theorem CopiedPage.copying (page : CopiedPage roots dst v f pte m m') (inside : v ∈ D) : Copying roots dst D m m' where
  leaf r root x within away := by
    rw [page.leaf r root x within, if_neg]
    rintro ⟨rfl, rfl⟩
    exact away ⟨rfl, inside⟩
  word := page.word
  used := page.used
  ref := page.ref
  tables := page.tables
  npage := page.npage

/-- `copy_range` for one page that is mapped. -/
theorem Counted.copyMapped (counted : Counted roots held other m) (root : dst ∈ roots) (source : src ∈ roots) (user : la < userTop)
    (found : m.node (tableOf src la) = some t) (isValid : valid (m.leaf src (la / pgSize)) = true)
    (copied : m.copyMapped dst la (t, ptx la) = .ok (code, m')) :
    Counted roots held other m' ∧ (code = 0 ∧ (m.target (dst, la / pgSize) = none →
        ∃ page, CopiedPage roots dst (la / pgSize) page (m.leaf src (la / pgSize)) m m') ∨
      code = -eNoMem ∧ (m.target (dst, la / pgSize) = none → Grown roots dst m m')) := by
  obtain ⟨m₁, looked, grown⟩ := getPte_spec counted.paged root user true
  have counted₁ := counted.grown root grown
  rw [Mem.copyMapped, looked, ok_bind] at copied
  cases place : m₁.node (tableOf dst la) with
  | none =>
    rw [place] at copied
    cases copied
    exact ⟨counted₁, .inr ⟨rfl, fun _ => grown⟩⟩
  | some t' =>
    rw [place] at copied
    have here : m₁.pte (t, ptx la) = m.leaf src (la / pgSize) := by
      rw [← grown.leaf src source _ (page_of_user user)]
      exact (Radix.leafAt_some (grown.node _ (tableOf_inside user) source t found)).symm
    simp only [Option.map_some, here] at copied
    have mapped : m₁.Mapped roots (pteFrame (m.leaf src (la / pgSize))) := by
      refine ⟨src, source, _, page_of_user user, ?_⟩
      rw [Mem.target, grown.leaf src source _ (page_of_user user)]
      exact target_some isValid
    generalize m.leaf src (la / pgSize) = pte at isValid here mapped copied ⊢
    obtain ⟨old, address, copied⟩ := bind_ok copied
    obtain ⟨_, _, _, rfl⟩ := pte2page_ok address
    cases asked : m₁.allocPage with
    | mk answer m₂ =>
      rw [asked] at copied
      cases answer with
      | none => cases copied
      | some page =>
        obtain ⟨unused, low, high, grew⟩ := allocPage_some asked
        have counted₂ := counted₁.alloc asked
        have mine : page ∈ insert page held := Set.mem_insert page held
        have notHeld : page ∉ held := fun inHeld => unused (counted₁.held page inHeld).1
        have counted₃ := counted₂.setFrame (counted₂.held page mine).2.2.1 (m₂.word (pteFrame pte))
        obtain ⟨⟨ret, m₄⟩, inserted, copied⟩ := bind_ok copied
        obtain ⟨m₅, freed, result⟩ := bind_ok copied
        cases result
        have there : (m₂.setFrame page (m₂.word (pteFrame pte))).node (tableOf dst la) = some t' := by
          rw [setFrame_node (counted₂.held page mine).2.2.1 _ _ (tableOf_inside user) root, Mem.node, grew]
          exact place
        obtain ⟨m₆, grown₆, ⟨_, _, _, missing⟩ | ⟨rfl, counted₄, once, _⟩⟩ := counted₃.pageInsert root user (copyPerm_flags pte) (.inl mine) inserted
        · -- The page table is there already.
          rw [grown₆.node _ (tableOf_inside user) root t' there] at missing
          cases missing
        · have same : onlyIf ((0 : Int) ≠ 0) (Mem.freePage page) m₄ = .ok m₄ := by
            rw [onlyIf, if_neg (by decide)]
          obtain rfl : m' = m₄ := Except.ok.inj (freed.symm.trans same)
          rw [Set.insert_sdiff_self_of_notMem notHeld] at counted₄
          refine ⟨counted₄, .inl ⟨rfl, fun empty => ⟨page, ?_⟩⟩⟩
          have backed := counted₁.mapped _ mapped
          exact copied_page counted₁ root user grown asked ⟨backed.1, backed.2.2.1⟩ empty inserted (once mine)

theorem Copied.nothing (empty : ∀ x ∈ D, ¬ valid (m.leaf src x) = true) : Copied roots dst src D m m :=
  ⟨.refl, fun x inside isValid => absurd isValid (empty x inside), fun _ _ _ => rfl⟩

theorem CopiedPage.copied (root : dst ∈ roots) (inside : v < userPages) (isValid : valid (m.leaf src v) = true)
    (page : CopiedPage roots dst v f (m.leaf src v) m m') : Copied roots dst src {v} m m' := by
  refine ⟨page.copying rfl, ?_, ?_⟩
  · rintro x rfl _
    refine ⟨f, page.fresh, page.managed, ?_, page.copy, page.once⟩
    rw [page.leaf dst root x inside, if_pos ⟨rfl, rfl⟩]
  · rintro x rfl invalid
    exact absurd isValid invalid

/-- Two steps that copy different pages. -/
theorem Copied.trans (root : dst ∈ roots) (source : src ∈ roots) (apart : src ≠ dst) (counted : Counted roots held other m)
    (counted' : Counted roots held' other' m') (counted'' : Counted roots held'' other'' m'') (first : Copied roots dst src D m m')
    (second : Copied roots dst src E m' m'') (disjoint : Disjoint D E) (below : ∀ x, x ∈ D ∨ x ∈ E → x < userPages) :
    Copied roots dst src (D ∪ E) m m'' := by
  have same : ∀ x < userPages, m'.leaf src x = m.leaf src x :=
    fun x inside => first.leaf src source x inside fun both => apart both.1
  have early : ∀ x ∈ D, m''.leaf dst x = m'.leaf dst x :=
    fun x inD => second.leaf dst root x (below x (.inl inD)) fun both => Set.disjoint_left.mp disjoint inD both.2
  have late : ∀ x ∈ E, m'.leaf dst x = m.leaf dst x :=
    fun x inE => first.leaf dst root x (below x (.inr inE)) fun both => Set.disjoint_left.mp disjoint both.2 inE
  refine ⟨(first.toCopying.mono Set.subset_union_left).trans (second.toCopying.mono Set.subset_union_right), ?_, ?_⟩
  · intro x inside isValid
    have within := below x inside
    by_cases inD : x ∈ D
    · obtain ⟨page, fresh, managed, leaf, copy, once⟩ := first.copied x inD isValid
      have created : entry (pteCreate page (1 ||| copyPerm (m.leaf src x))) = some page :=
        entry_pteCreate (lt_of_lt_of_le managed.2 m.npage_le) (or_flags (copyPerm_flags _))
      have here : m'.Mapped roots page := ⟨dst, root, x, within, by rw [Mem.target, leaf]; exact created⟩
      have here'' : m''.Mapped roots page := ⟨dst, root, x, within, by rw [Mem.target, early x inD, leaf]; exact created⟩
      have inUse := (counted'.mapped page here).1
      have notTable : ¬ m''.IsTable {dst} page := fun table => (counted''.mapped page here'').2.2.1 (IsTable.single root table)
      refine ⟨page, fresh, managed, (early x inD).trans leaf, ?_, ?_⟩
      · rw [second.word page inUse notTable, copy]
      · rw [second.ref page inUse, once]
    · have inE : x ∈ E := inside.resolve_left inD
      rw [← same x within] at isValid
      obtain ⟨page, fresh, managed, leaf, copy, once⟩ := second.copied x inE isValid
      rw [same x within] at leaf copy isValid
      have mapped : m.Mapped roots (pteFrame (m.leaf src x)) := ⟨src, source, x, within, target_some isValid⟩
      have mapped' : m'.Mapped roots (pteFrame (m.leaf src x)) := by
        refine ⟨src, source, x, within, ?_⟩
        rw [Mem.target, same x within]
        exact target_some isValid
      have notTable : ¬ m'.IsTable {dst} (pteFrame (m.leaf src x)) :=
        fun table => (counted'.mapped _ mapped').2.2.1 (IsTable.single root table)
      rw [first.npage] at managed
      refine ⟨page, fun inUse => fresh (first.used page inUse), managed, leaf, ?_, once⟩
      rw [copy, first.word _ (counted.mapped _ mapped).1 notTable]
  · intro x inside invalid
    have within := below x inside
    by_cases inD : x ∈ D
    · rw [early x inD, first.skipped x inD invalid]
    · have inE : x ∈ E := inside.resolve_left inD
      rw [← same x within] at invalid
      rw [second.skipped x inE invalid, late x inE]

/-- What the loop of `copy_range` did from the page `v` on. If it returns zero, the pages that are mapped are copied. -/
private def Copies (roots : Finset Frame) (held other : Set Frame) (dst src v hi : Nat) (m : Mem) (code : Int) (m' : Mem) : Prop :=
  Counted roots held other m' ∧ (code = 0 ∨ code = -eNoMem) ∧
    (src ≠ dst → (∀ x, v ≤ x → x < hi → m.target (dst, x) = none) →
      SameHeap m m' ∧ Copying roots dst (Set.Ico v hi) m m' ∧ (code = 0 → Copied roots dst src (Set.Ico v hi) m m'))

private theorem Copies.round {m₁ : Mem} {next : Nat} (root : dst ∈ roots) (source : src ∈ roots) (below : hi ≤ userPages)
    (counted : Counted roots held other m) (counted₁ : Counted roots held other m₁) (ahead : v < next)
    (first : src ≠ dst → (∀ x, v ≤ x → x < hi → m.target (dst, x) = none) →
      SameHeap m m₁ ∧ Copied roots dst src (Set.Ico v (min next hi)) m m₁)
    (later : next < hi → m₁.copyLoop dst src (hi * pgSize) fuel (next * pgSize) = .ok (code, m') →
      Copies roots held other dst src next hi m₁ code m')
    (copied : (if next * pgSize ≠ 0 ∧ next * pgSize < hi * pgSize then m₁.copyLoop dst src (hi * pgSize) fuel (next * pgSize)
      else .ok (0, m₁)) = .ok (code, m')) : Copies roots held other dst src v hi m code m' := by
  by_cases again : next < hi
  · have goes : next * pgSize ≠ 0 ∧ next * pgSize < hi * pgSize := by
      unfold pgSize
      omega
    rw [if_pos goes] at copied
    obtain ⟨counted', codes, others⟩ := later again copied
    refine ⟨counted', codes, fun apart empty => ?_⟩
    obtain ⟨heap, first⟩ := first apart empty
    rw [Nat.min_eq_left again.le] at first
    have still : ∀ x, next ≤ x → x < hi → m₁.target (dst, x) = none := by
      intro x low high
      have same := first.leaf dst root x (lt_of_lt_of_le high below) fun both => absurd both.2.2 (not_lt.mpr low)
      rw [Mem.target, same]
      exact empty x (le_trans ahead.le low) high
    obtain ⟨heap', copying, rest⟩ := others apart still
    have union : Set.Ico v next ∪ Set.Ico next hi = Set.Ico v hi := Set.Ico_union_Ico_eq_Ico ahead.le again.le
    rw [← union]
    refine ⟨⟨heap'.1.trans heap.1, heap'.2.trans heap.2⟩,
      (first.toCopying.mono Set.subset_union_left).trans (copying.mono Set.subset_union_right), fun worked => ?_⟩
    refine first.trans root source apart counted counted₁ counted' (rest worked) (Set.Ico_disjoint_Ico_same) ?_
    rintro x (⟨_, high⟩ | ⟨_, high⟩)
    · exact lt_of_lt_of_le high (again.le.trans below)
    · exact lt_of_lt_of_le high below
  · have ends : ¬ (next * pgSize ≠ 0 ∧ next * pgSize < hi * pgSize) := by
      unfold pgSize
      omega
    rw [if_neg ends] at copied
    cases copied
    refine ⟨counted₁, .inl rfl, fun apart empty => ?_⟩
    obtain ⟨heap, first⟩ := first apart empty
    rw [Nat.min_eq_right (not_lt.mp again)] at first
    exact ⟨heap, first.toCopying, fun _ => first⟩

private theorem Counted.copyRounds (counted : Counted roots held other m) (root : dst ∈ roots) (source : src ∈ roots)
    (below : hi ≤ userPages) (more : v < hi) (copied : m.copyLoop dst src (hi * pgSize) fuel (v * pgSize) = .ok (code, m')) :
    Copies roots held other dst src v hi m code m' := by
  induction fuel generalizing v m with
  | zero => cases copied
  | succ fuel ih =>
    have inside : v < userPages := lt_of_lt_of_le more below
    have looked := getPte_find counted.paged.addressable source (page_user inside)
    rw [tableOf_page, ptx_page] at looked
    rw [Mem.copyLoop, Mem.copyPage, looked, ok_bind] at copied
    cases found : m.node (.table src (v / 512)) with
    | none =>
      rw [found, Option.map_none] at copied
      dsimp only at copied
      rw [ok_bind] at copied
      dsimp only at copied
      rw [table_next inside, if_neg (not_not.mpr rfl)] at copied
      refine Copies.round root source below counted counted (by omega) ?_ (fun again looped => ih counted again looped) copied
      refine fun _ _ => ⟨⟨rfl, rfl⟩, .nothing fun x place => ?_⟩
      obtain ⟨low, high⟩ := place
      have missing : m.target (src, x) = none := by
        refine target_missing ?_
        rw [show x / 512 = v / 512 by omega]
        exact found
      exact entry_invalid missing
    | some t =>
      have here : m.pte (t, v % 512) = m.leaf src v := (Radix.leafAt_some found).symm
      rw [found, Option.map_some] at copied
      dsimp only at copied
      rw [here] at copied
      have single : Set.Ico v (min (v + 1) hi) = {v} := by
        rw [Nat.min_eq_left more]
        exact Set.Ico_add_one_right_eq_Icc v v |>.trans (Set.Icc_self v)
      by_cases isValid : valid (m.leaf src v) = true
      · rw [if_pos isValid] at copied
        obtain ⟨⟨ret, next, m₁⟩, round, copied⟩ := bind_ok copied
        obtain ⟨⟨ret', m₂⟩, mapped, done⟩ := bind_ok round
        simp only [Except.ok.injEq, Prod.mk.injEq] at done
        obtain ⟨rfl, rfl, rfl⟩ := done
        rw [page_next inside] at copied
        rw [← ptx_page v] at mapped
        have table : m.node (tableOf src (v * pgSize)) = some t := by
          rw [tableOf_page]
          exact found
        have valid' : valid (m.leaf src (v * pgSize / pgSize)) = true := by
          rw [page_of]
          exact isValid
        obtain ⟨counted₁, result⟩ := counted.copyMapped root source (page_user inside) table valid' mapped
        rw [page_of] at result
        dsimp only at copied
        rcases result with ⟨rfl, page⟩ | ⟨rfl, grown⟩
        · rw [if_neg (not_not.mpr rfl)] at copied
          refine Copies.round root source below counted counted₁ (Nat.lt_succ_self v) ?_ (fun again looped => ih counted₁ again looped) copied
          intro apart empty
          obtain ⟨page, one⟩ := page (empty v le_rfl more)
          rw [single]
          exact ⟨one.heap, one.copied root inside isValid⟩
        · rw [if_pos (by decide)] at copied
          cases copied
          refine ⟨counted₁, .inr rfl, fun apart empty => ?_⟩
          have grown := grown (empty v le_rfl more)
          exact ⟨grown.heap, grown.copying root, fun impossible => by cases impossible⟩
      · rw [if_neg isValid, ok_bind] at copied
        dsimp only at copied
        rw [page_next inside, if_neg (not_not.mpr rfl)] at copied
        refine Copies.round root source below counted counted (Nat.lt_succ_self v) ?_ (fun again looped => ih counted again looped) copied
        refine fun _ _ => ⟨⟨rfl, rfl⟩, .nothing fun x place => ?_⟩
        rw [single] at place
        rw [Set.mem_singleton_iff.mp place]
        exact isValid

/-- `copy_range` keeps the books. If it returns zero, the pages of the range that were mapped are copied. -/
theorem Counted.copyRange (counted : Counted roots held other m) (root : dst ∈ roots) (source : src ∈ roots)
    (copied : m.copyRange dst src start stop = .ok (code, m')) :
    Counted roots held other m' ∧ (code = 0 ∨ code = -eNoMem) ∧
      (src ≠ dst → (∀ x, start / pgSize ≤ x → x < stop / pgSize → m.target (dst, x) = none) →
        SameHeap m m' ∧ Copying roots dst (Set.Ico (start / pgSize) (stop / pgSize)) m m' ∧
          (code = 0 → Copied roots dst src (Set.Ico (start / pgSize) (stop / pgSize)) m m')) := by
  obtain ⟨⟨⟩, passed, copied⟩ := bind_ok copied
  obtain ⟨low, high, user⟩ := assertRange_ok passed
  have first : start = start / pgSize * pgSize := (Nat.div_mul_cancel (Nat.dvd_of_mod_eq_zero low)).symm
  have last : stop = stop / pgSize * pgSize := (Nat.div_mul_cancel (Nat.dvd_of_mod_eq_zero high)).symm
  have below : stop / pgSize ≤ userPages := by
    have limit := user.2.2
    unfold userTop at limit
    unfold userPages top pgSize
    omega
  have more : start / pgSize < stop / pgSize := by
    have order := user.2.1
    unfold pgSize at first last ⊢
    omega
  rw [first, last] at copied
  exact counted.copyRounds root source below more copied

end Ucore
