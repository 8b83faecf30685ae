import Mathlib
import Ucore.Spaces
import Ucore.Proofs.DupMmap
import Ucore.Proofs.Disposal

/-! Memory as the property of address spaces. Each frame is mapped at one place at most, so what
happens in one address space is not seen in another one. An address space that is being built stands beside
those in use until it becomes one of them or is given back. -/

namespace Ucore
open Lib

/-- Each frame is mapped at one place at most. -/
def Unshared (roots : Finset Frame) (m : Mem) : Prop :=
  ∀ r ∈ roots, ∀ v < userPages, ∀ r' ∈ roots, ∀ v' < userPages, ∀ f, m.target (r, v) = some f → m.target (r', v') = some f → r' = r ∧ v' = v

/-- What the page directories `roots` map and what the frames in `other` hold is the same in both states. -/
structure Spares (roots : Finset Frame) (other : Set Frame) (m m' : Mem) : Prop where
  spared : Spared roots m m'
  words : ∀ f ∈ other, m'.word f = m.word f

/-- What `c` maps in `m'` is a copy of what `r` maps in `m`, page by page. -/
def Mirrors (r c : Frame) (m m' : Mem) : Prop :=
  ∀ v < userPages, (m.target (r, v) = none → m'.target (c, v) = none) ∧ ∀ f, m.target (r, v) = some f →
    ∃ page, m'.target (c, v) = some page ∧ m'.word page = m.word f ∧ m'.leaf c v &&& pteUser = m.leaf r v &&& pteUser

variable {roots fewer : Finset Frame} {held other more : Set Frame} {m m₀ m₁ m' m'' : Mem} {r c f page boot : Frame} {v la : Nat} {perm : BitVec 32}
  {found : Option Frame} {mm mm' source : MmStruct} {vma : Vma} {block old : Block} {beside rest : List Block} {ret : Int}

theorem Spares.refl : Spares roots other m m := ⟨.refl, fun _ _ => rfl⟩

theorem Spares.trans (first : Spares roots other m m') (second : Spares roots other m' m'') : Spares roots other m m'' :=
  ⟨first.spared.trans second.spared, fun f inOther => (second.words f inOther).trans (first.words f inOther)⟩

theorem Spares.mono (spares : Spares roots more m m') (less : fewer ⊆ roots) (part : other ⊆ more) : Spares fewer other m m' :=
  ⟨spares.spared.mono less, fun f inOther => spares.words f (part inOther)⟩

theorem Spares.heapOnly (only : HeapOnly m m') : Spares roots other m m' := by
  refine ⟨.heapOnly only, fun f _ => ?_⟩
  rw [only]

theorem Spares.target (spares : Spares roots other m m') (root : r ∈ roots) (inside : v < userPages) : m'.target (r, v) = m.target (r, v) :=
  congrArg entry (spares.spared r root v inside).1

theorem Setup.spares (setup : Setup roots c m m') (counted : Counted roots held other m) : Spares roots other m m' := by
  have fresh : ∀ f ∈ m.used, f ≠ c := by
    rintro f inUse rfl
    exact setup.fresh inUse
  refine ⟨fun r root v inside => ⟨setup.leaf r root v inside, fun f here => ?_⟩, fun f inOther => ?_⟩
  · exact setup.word f (fresh f (counted.mapped f ⟨r, root, v, inside, here⟩).1)
  · exact setup.word f (fresh f (counted.other f inOther).1)

theorem Copying.spares {D : Set Nat} (copying : Copying (insert c roots) c D m m') (strange : c ∉ roots)
    (counted : Counted (insert c roots) held other m) (counted' : Counted (insert c roots) held other m') : Spares roots other m m' := by
  have child := Finset.mem_insert_self c roots
  have leaf : ∀ r ∈ roots, ∀ v < userPages, m'.leaf r v = m.leaf r v := by
    intro r root v inside
    refine copying.leaf r (Finset.mem_insert_of_mem root) v inside fun both => strange ?_
    rw [← both.1]
    exact root
  refine ⟨fun r root v inside => ⟨leaf r root v inside, fun f here => ?_⟩, fun f inOther => ?_⟩
  · have wide : r ∈ insert c roots := Finset.mem_insert_of_mem root
    have there : m'.target (r, v) = some f := (congrArg entry (leaf r root v inside)).trans here
    exact copying.word f (counted.mapped f ⟨r, wide, v, inside, here⟩).1
      fun table => (counted'.mapped f ⟨r, wide, v, inside, there⟩).2.2.1 (IsTable.single child table)
  · exact copying.word f (counted.other f inOther).1 fun table => (counted'.other f inOther).2 (IsTable.single child table)

theorem Counted.unshared (counted : Counted roots held other m) (once : ∀ f, m.Mapped roots f → m.ref f = 1) : Unshared roots m := by
  intro r root v inside r' root' v' inside' f here there
  have mapped : m.Mapped roots f := ⟨r, root, v, inside, here⟩
  have count := counted.count f mapped
  rw [once f mapped] at count
  have same := pointers_single count.symm (Finset.mem_product.mpr ⟨root, Finset.mem_range.mpr inside⟩) here
    (Finset.mem_product.mpr ⟨root', Finset.mem_range.mpr inside'⟩) there
  exact ⟨congrArg Prod.fst same, congrArg Prod.snd same⟩

theorem Unshared.once (unshared : Unshared roots m) (counted : Counted roots held other m) (mapped : m.Mapped roots f) : m.ref f = 1 := by
  rw [counted.count f mapped]
  obtain ⟨r, root, v, inside, here⟩ := mapped
  refine pointers_one (Finset.mem_product.mpr ⟨root, Finset.mem_range.mpr inside⟩) here ?_
  intro place member there
  obtain ⟨root', inside'⟩ := Finset.mem_product.mp member
  obtain ⟨same, also⟩ := unshared r root v inside place.1 root' place.2 (Finset.mem_range.mp inside') f here there
  exact Prod.ext same also

theorem Unshared.less (unshared : Unshared roots m) (less : ∀ r ∈ fewer, ∀ v < userPages, ∀ f, m'.target (r, v) = some f → r ∈ roots ∧ m.target (r, v) = some f) :
    Unshared fewer m' := by
  intro r root v inside r' root' v' inside' f here there
  obtain ⟨own, here⟩ := less r root v inside f here
  obtain ⟨own', there⟩ := less r' root' v' inside' f there
  exact unshared r own v inside r' own' v' inside' f here there

theorem Unshared.spares (unshared : Unshared roots m) (spares : Spares fewer other m m') (less : fewer ⊆ roots) : Unshared fewer m' := by
  refine unshared.less ?_
  intro r root v inside f here
  rw [spares.target root inside] at here
  exact ⟨less root, here⟩

/-- A page that was not mapped comes to one place. -/
theorem Unshared.fresh (unshared : Unshared roots m) (strange : ¬ m.Mapped roots page)
    (others : ∀ r' ∈ roots, ∀ v' < userPages, ¬ (r' = r ∧ v' = v) → m'.target (r', v') = m.target (r', v'))
    (here : m'.target (r, v) = some page) : Unshared roots m' := by
  have before : ∀ q ∈ roots, ∀ w < userPages, ∀ f, m'.target (q, w) = some f → (q = r ∧ w = v) ∧ f = page ∨ m.target (q, w) = some f ∧ f ≠ page := by
    intro q root w inside f found
    by_cases own : q = r ∧ w = v
    · rw [own.1, own.2, here] at found
      exact .inl ⟨own, (Option.some.inj found).symm⟩
    · rw [others q root w inside own] at found
      refine .inr ⟨found, ?_⟩
      rintro rfl
      exact strange ⟨q, root, w, inside, found⟩
  intro q root w inside q' root' w' inside' f found found'
  rcases before q root w inside f found with ⟨⟨rfl, rfl⟩, rfl⟩ | ⟨old, away⟩
  · rcases before q' root' w' inside' f found' with ⟨own, _⟩ | ⟨_, away⟩
    · exact own
    · exact absurd rfl away
  · rcases before q' root' w' inside' f found' with ⟨_, same⟩ | ⟨old', _⟩
    · exact absurd same away
    · exact unshared q root w inside q' root' w' inside' f old old'

theorem Mirrors.behind (mirrors : Mirrors r c m m') (spares : Spares roots other m₀ m) (root : r ∈ roots) : Mirrors r c m₀ m' := by
  intro v inside
  obtain ⟨leaf, words⟩ := spares.spared r root v inside
  obtain ⟨skipped, copied⟩ := mirrors v inside
  rw [spares.target root inside] at skipped
  refine ⟨skipped, fun f here => ?_⟩
  obtain ⟨page, there, copy, perm⟩ := copied f (by rw [spares.target root inside, here])
  exact ⟨page, there, copy.trans (words f here), by rw [perm, leaf]⟩

theorem setFrame_target (outside : ¬ m.IsTable roots page) (words : Nat → BitVec 64) (root : r ∈ roots) (inside : v < userPages) :
    (m.setFrame page words).target (r, v) = m.target (r, v) :=
  congrArg entry (setFrame_leaf outside words root inside)

theorem Unshared.write (unshared : Unshared roots m) (counted : Counted roots held other m) (root : r ∈ roots) (inside : v < userPages)
    (here : m.target (r, v) = some page) (words : Nat → BitVec 64) : Spares (roots.erase r) other m (m.setFrame page words) := by
  obtain ⟨_, _, outside, _, apart⟩ := counted.mapped page ⟨r, root, v, inside, here⟩
  have other : ∀ f, f ≠ page → (m.setFrame page words).word f = m.word f := fun f away => Function.update_of_ne away _ _
  refine ⟨fun r' root' v' inside' => ?_, fun f inOther => other f ?_⟩
  · obtain ⟨away, root'⟩ := Finset.mem_erase.mp root'
    refine ⟨setFrame_leaf outside words root' inside', fun f there => other f ?_⟩
    rintro rfl
    exact away (unshared r root v inside r' root' v' inside' f here there).1
  · rintro rfl
    exact apart inOther

/-- Of the pages that the page directories map only that at `v` of `r` has come to be another one, and no page or frame of the kernel that
was in use has other words. -/
structure Remapped (roots : Finset Frame) (r : Frame) (v : Nat) (pte : BitVec 64) (m m' : Mem) : Prop where
  leaf : ∀ q ∈ roots, ∀ w < userPages, m'.leaf q w = if q = r ∧ w = v then pte else m.leaf q w
  word : ∀ f ∈ m.used, ¬ m.IsTable roots f → m'.word f = m.word f
  heap : SameHeap m m'

/-- `pgdir_alloc_page` maps a page that was not in use, or nothing. -/
theorem Counted.pgdirAllocPage_remapped (counted : Counted roots held other m) (root : r ∈ roots) (user : la < userTop) (flags : perm.toNat < 2 ^ 10)
    (allocated : m.pgdirAllocPage r la perm = .ok (found, m')) :
    (found = none → Remapped roots r (la / pgSize) (m.leaf r (la / pgSize)) m m') ∧
      ∀ page, found = some page → page ∉ m.used ∧ page < 2 ^ 52 ∧ Remapped roots r (la / pgSize) (pteCreate page (1 ||| perm)) m m' := by
  have inside := page_of_user user
  have nothing : ∀ {m' : Mem}, (∀ q ∈ roots, ∀ w < userPages, m'.leaf q w = m.leaf q w) → (∀ f ∈ m.used, ¬ m.IsTable roots f → m'.word f = m.word f) →
      SameHeap m m' → Remapped roots r (la / pgSize) (m.leaf r (la / pgSize)) m m' := by
    intro m' leaf word heap
    refine ⟨fun q own w within => ?_, word, heap⟩
    rw [leaf q own w within]
    split
    next both => rw [both.1, both.2]
    next => rfl
  unfold Mem.pgdirAllocPage at allocated
  cases asked : m.allocPage with
  | mk answer m₁ =>
    rw [asked] at allocated
    cases answer with
    | none =>
      obtain ⟨rfl, rfl⟩ := Prod.mk.inj (Except.ok.inj allocated)
      obtain rfl := allocPage_none asked
      exact ⟨fun _ => nothing (fun _ _ _ _ => rfl) (fun _ _ _ => rfl) ⟨rfl, rfl⟩, fun page impossible => by cases impossible⟩
    | some page =>
      obtain ⟨unused, _, high, grew⟩ := allocPage_some asked
      have words : m₁.word = m.word := by rw [grew]
      have heap : SameHeap m m₁ := by
        rw [grew]
        exact ⟨rfl, rfl⟩
      have counted₁ := counted.alloc asked
      have mine : page ∈ insert page held := Set.mem_insert page held
      obtain ⟨⟨code, m₂⟩, inserted, allocated⟩ := bind_ok allocated
      obtain ⟨m₃, grown, done⟩ := counted₁.pageInsert root user flags (.inl mine) inserted
      -- What was in use and is no table does not become one.
      have kept : ∀ f ∈ m.used, ¬ m.IsTable roots f → ¬ m₃.IsTable {r} f := by
        intro f inUse outside table
        rcases grown.fresh f (IsTable.single root table) with before | fresh
        · rw [Mem.IsTable, words] at before
          exact outside before
        · rw [grew] at fresh
          exact fresh (List.mem_cons_of_mem _ inUse)
      have grownWord : ∀ f ∈ m.used, ¬ m.IsTable roots f → m₃.word f = m.word f := by
        intro f inUse outside
        rw [grown.word f (kept f inUse outside), words]
      have grownLeaf : ∀ q ∈ roots, ∀ w < userPages, m₃.leaf q w = m.leaf q w := by
        intro q own w within
        rw [grown.leaf q own w within, Mem.leaf, words]
        rfl
      rcases done with ⟨rfl, rfl, counted₂, _⟩ | ⟨rfl, counted₂, single, t, wrote⟩
      · obtain ⟨m₄, freed, same, _⟩ := counted₂.freePage mine
        dsimp only at allocated
        rw [if_pos (by decide), freed, ok_bind] at allocated
        obtain ⟨rfl, rfl⟩ := Prod.mk.inj (Except.ok.inj allocated)
        have leaf : ∀ q ∈ roots, ∀ w < userPages, m₄.leaf q w = m.leaf q w := by
          intro q own w within
          rw [← grownLeaf q own w within, Mem.leaf, same]
          rfl
        exact ⟨fun _ => nothing leaf (fun f inUse outside => by rw [same, grownWord f inUse outside])
          (heap.trans (SameHeap.trans grown.heap (freePages_heap freed))), fun page impossible => by cases impossible⟩
      · dsimp only at allocated
        rw [if_neg (by decide), single mine] at allocated
        obtain ⟨rfl, rfl⟩ := Prod.mk.inj (Except.ok.inj allocated)
        refine ⟨fun impossible => absurd impossible (Option.some_ne_none page), fun own same => ?_⟩
        obtain rfl := Option.some.inj same
        refine ⟨unused, lt_of_lt_of_le high m.npage_le, ?_, ?_, heap.trans (SameHeap.trans grown.heap wrote.heap)⟩
        · intro q own w within
          rw [wrote.leaf grown.paged.unique root inside within own, grownLeaf q own w within]
        · intro f inUse outside
          have apart : f ≠ t := by
            rintro rfl
            exact kept f inUse outside ⟨_, Radix.slot_inside inside, Finset.mem_singleton_self _, wrote.table⟩
          rw [wrote.same f apart, grownWord f inUse outside]

/-- What `pgdir_alloc_page` does to the address space is not seen in another one. -/
theorem Counted.pgdirAllocPage_spares (counted : Counted roots held other m) (root : r ∈ roots) (user : la < userTop) (flags : perm.toNat < 2 ^ 10)
    (allocated : m.pgdirAllocPage r la perm = .ok (found, m')) :
    Spares (roots.erase r) other m m' ∧ SameHeap m m' ∧
      (found = none → ∀ v < userPages, m'.target (r, v) = m.target (r, v)) ∧
      ∀ page, found = some page → page ∉ m.used ∧ m'.target (r, la / pgSize) = some page := by
  have inside := page_of_user user
  have spares : ∀ {pte : BitVec 64}, Remapped roots r (la / pgSize) pte m m' → Spares (roots.erase r) other m m' := by
    intro pte remapped
    refine ⟨fun q own w within => ⟨?_, fun f here => ?_⟩, fun f inOther => ?_⟩
    · obtain ⟨away, own⟩ := Finset.mem_erase.mp own
      rw [remapped.leaf q own w within, if_neg fun both => away both.1]
    · obtain ⟨inUse, _, outside, _⟩ := counted.mapped f ⟨q, Finset.mem_of_mem_erase own, w, within, here⟩
      exact remapped.word f inUse outside
    · exact remapped.word f (counted.other f inOther).1 (counted.other f inOther).2
  obtain ⟨nothing, something⟩ := counted.pgdirAllocPage_remapped root user flags allocated
  cases found with
  | none =>
    have remapped := nothing rfl
    refine ⟨spares remapped, remapped.heap, fun _ v within => ?_, fun page impossible => by cases impossible⟩
    rw [Mem.target, Mem.target, remapped.leaf r root v within]
    split
    next both => rw [both.2]
    next => rfl
  | some page =>
    obtain ⟨unused, small, remapped⟩ := something page rfl
    refine ⟨spares remapped, remapped.heap, fun impossible => absurd impossible (Option.some_ne_none page), fun own same => ?_⟩
    obtain rfl := Option.some.inj same
    refine ⟨unused, ?_⟩
    rw [Mem.target, remapped.leaf r root _ inside, if_pos ⟨rfl, rfl⟩]
    exact entry_pteCreate small (or_flags flags)

section Kernel

variable {n : Nat}

theorem Spares.sameWord (same : m'.word = m.word) : Spares roots other m m' := by
  refine ⟨fun r _ v _ => ⟨?_, fun f _ => by rw [same]⟩, fun f _ => by rw [same]⟩
  rw [Mem.leaf, same]
  rfl

private theorem Counted.sameWord (counted : Counted roots held other m) (word : m'.word = m.word) (npage : m'.npage = m.npage)
    (keeps : ∀ f, m.IsTable roots f ∨ m.Mapped roots f ∨ f ∈ held → f ∈ m'.used ∧ m'.ref f = m.ref f)
    (classes : ∀ f ∈ m'.used, m.IsTable roots f ∨ m.Mapped roots f ∨ f ∈ held ∨ f ∈ more)
    (strange : ∀ f ∈ more, f ∈ m'.used ∧ ¬ m.IsTable roots f ∧ ¬ m.Mapped roots f ∧ f ∉ held) (free : ∀ f, f ∉ m'.used → m'.ref f = 0) :
    Counted roots held more m' := by
  have table : ∀ f, m'.IsTable roots f ↔ m.IsTable roots f := by
    intro f
    rw [Mem.IsTable, word]
    rfl
  have targets : ∀ r ∈ roots, ∀ v < userPages, m'.target (r, v) = m.target (r, v) := by
    intro r _ v _
    rw [Mem.target, Mem.leaf, word]
    rfl
  have mapped : ∀ f, m'.Mapped roots f ↔ m.Mapped roots f := fun f => mapped_congr targets
  refine ⟨⟨?_, fun f place => ?_⟩, fun f inUse => ?_, fun f place => ?_, fun f place => ?_, fun f inHeld => ?_, fun f inMore => ?_, free⟩
  · rw [word]
    exact counted.paged.unique
  · have place := (table f).mp place
    rw [npage]
    exact ⟨(keeps f (.inl place)).1, (counted.paged.sound f place).2⟩
  · rw [table, mapped]
    exact classes f inUse
  · have place := (mapped f).mp place
    obtain ⟨_, range, notTable, notHeld, _⟩ := counted.mapped f place
    rw [table, npage]
    exact ⟨(keeps f (.inr (.inl place))).1, range, notTable, notHeld, fun inMore => (strange f inMore).2.2.1 place⟩
  · have place := (mapped f).mp place
    rw [(keeps f (.inr (.inl place))).2, mappings_congr targets]
    exact counted.count f place
  · obtain ⟨_, range, notTable, _, zero⟩ := counted.held f inHeld
    obtain ⟨inUse, ref⟩ := keeps f (.inr (.inr inHeld))
    rw [table, npage, ref]
    exact ⟨inUse, range, notTable, fun inMore => (strange f inMore).2.2.2 inHeld, zero⟩
  · rw [table]
    exact ⟨(strange f inMore).1, (strange f inMore).2.1⟩

theorem Counted.asksPages (counted : Counted roots held other m) (asked : m.allocPages n = (none, m')) : Counted roots held other m' ∧ m'.word = m.word ∧ SameHeap m m' := by
  have same : m' = { m with pages := m'.pages } := by
    unfold Mem.allocPages at asked
    split at asked
    · split at asked
      · cases asked
      · cases asked
        rfl
    · cases asked
      rfl
  rw [same]
  exact ⟨⟨⟨counted.paged.unique, counted.paged.sound⟩, counted.classes, counted.mapped, counted.count, counted.held, counted.other, counted.free⟩,
    rfl, rfl, rfl⟩

theorem Counted.allocPages (counted : Counted roots held other m) (asked : m.allocPages n = (some page, m')) :
    Counted roots held (other ∪ {f | f ∈ List.range' page n}) m' ∧ (∀ f ∈ List.range' page n, f ∉ m.used) ∧ m'.word = m.word ∧ SameHeap m m' := by
  obtain ⟨free, grew⟩ : m.Free page n ∧ m' = { m with used := List.range' page n ++ m.used, pages := fun call => m.pages (call + 1) } := by
    unfold Mem.allocPages at asked
    split at asked
    · split at asked
      next free =>
        obtain ⟨same, rfl⟩ := Prod.mk.inj asked
        obtain rfl := Option.some.inj same
        exact ⟨free, rfl⟩
      next => cases asked
    · cases asked
  have unused := free.2.2
  have word : m'.word = m.word := by rw [grew]
  have used : m'.used = List.range' page n ++ m.used := by rw [grew]
  have ref : m'.ref = m.ref := by rw [grew]
  have heap : SameHeap m m' := by
    rw [grew]
    exact ⟨rfl, rfl⟩
  refine ⟨counted.sameWord word (by rw [grew]) ?_ ?_ ?_ ?_, unused, word, heap⟩
  · intro f place
    rw [used, ref]
    refine ⟨List.mem_append_right _ ?_, rfl⟩
    rcases place with table | mapped | inHeld
    · exact (counted.paged.sound f table).1
    · exact (counted.mapped f mapped).1
    · exact (counted.held f inHeld).1
  · intro f inUse
    rw [used] at inUse
    rcases List.mem_append.mp inUse with new | inUse
    · exact .inr (.inr (.inr (.inr new)))
    · exact (counted.classes f inUse).imp_right (.imp_right (.imp_right .inl))
  · rintro f (old | new)
    · obtain ⟨inUse, notTable⟩ := counted.other f old
      rw [used]
      exact ⟨List.mem_append_right _ inUse, notTable, fun mapped => (counted.mapped f mapped).2.2.2.2 old,
        fun inHeld => (counted.held f inHeld).2.2.2.1 old⟩
    · rw [used]
      exact ⟨List.mem_append_left _ new, fun table => unused f new (counted.paged.sound f table).1,
        fun mapped => unused f new (counted.mapped f mapped).1, fun inHeld => unused f new (counted.held f inHeld).1⟩
  · intro f outside
    rw [used] at outside
    rw [ref]
    exact counted.free f fun inUse => outside (List.mem_append_right _ inUse)

theorem Counted.freePages (counted : Counted roots held other m) (mine : ∀ f ∈ List.range' page n, f ∈ other) :
    ∃ m', m.freePages page n = .ok m' ∧ Counted roots held (other \ {f | f ∈ List.range' page n}) m' ∧ m'.word = m.word ∧ SameHeap m m' := by
  have freed : m.freePages page n = .ok { m with
      used := m.used.filter (· ∉ List.range' page n)
      ref := fun f => if f ∈ List.range' page n then 0 else m.ref f } := if_pos fun f inside => (counted.other f (mine f inside)).1
  have used : ∀ f, f ∈ m.used.filter (· ∉ List.range' page n) ↔ f ∈ m.used ∧ f ∉ List.range' page n := by
    intro f
    rw [List.mem_filter, decide_eq_true_eq]
  have outside : ∀ f, m.IsTable roots f ∨ m.Mapped roots f ∨ f ∈ held → f ∈ m.used ∧ f ∉ List.range' page n := by
    rintro f (table | mapped | inHeld)
    · exact ⟨(counted.paged.sound f table).1, fun inside => (counted.other f (mine f inside)).2 table⟩
    · exact ⟨(counted.mapped f mapped).1, fun inside => (counted.mapped f mapped).2.2.2.2 (mine f inside)⟩
    · exact ⟨(counted.held f inHeld).1, fun inside => (counted.held f inHeld).2.2.2.1 (mine f inside)⟩
  refine ⟨_, freed, counted.sameWord rfl rfl ?_ ?_ ?_ ?_, rfl, rfl, rfl⟩
  · intro f place
    exact ⟨(used f).mpr (outside f place), if_neg (outside f place).2⟩
  · intro f inUse
    obtain ⟨inUse, away⟩ := (used f).mp inUse
    exact (counted.classes f inUse).imp_right (.imp_right (.imp_right fun inOther => ⟨inOther, away⟩))
  · rintro f ⟨inOther, away⟩
    obtain ⟨inUse, notTable⟩ := counted.other f inOther
    exact ⟨(used f).mpr ⟨inUse, away⟩, notTable, fun mapped => (counted.mapped f mapped).2.2.2.2 inOther,
      fun inHeld => (counted.held f inHeld).2.2.2.1 inOther⟩
  · intro f unused
    dsimp only at unused ⊢
    rw [used, not_and, not_not] at unused
    split
    next => rfl
    next away => exact counted.free f fun inUse => away (unused inUse)

end Kernel

/-- An address space beside those of `roots`, which nobody uses yet: its `mm_struct` is at `block` and its page directory is `c`. The memory
was `m₀` before it was begun, and `beside` are the other blocks of the heap. -/
structure Annexed (roots : Finset Frame) (other : Set Frame) (beside : List Block) (block : Block) (mm : MmStruct) (c : Frame) (m₀ m : Mem) : Prop where
  counted : Counted (insert c roots) ∅ other m
  covered : Covered mm c m
  kept : mm.Kept
  idle : mm.mmCount = 0
  unlocked : mm.mmLock = false
  strange : c ∉ roots
  spares : Spares roots other m₀ m
  blocks : m.blocks.Perm (mm.heap block ++ beside)

theorem Counted.annex (counted : Counted roots ∅ other m) (blocks : m.blocks.Perm beside) (zero : ∀ i < top, m.word boot i = 0)
    (created : m.kmalloc = (some block, m₁)) (setup : setupPgdir boot .fresh m₁ = (0, mm, m')) :
    ∃ c, mm = { MmStruct.fresh with pgdir := some c } ∧ Annexed roots other beside block mm c m m' ∧ ∀ v < userPages, m'.target (c, v) = none := by
  have only : HeapOnly m m₁ := kmalloc_same created
  have counted₁ := counted.kmalloc created
  have zero₁ : ∀ i < top, m₁.word boot i = 0 := by
    rw [only]
    exact zero
  obtain ⟨c, rfl, taken⟩ := setupPgdir_ok counted₁.paged zero₁ setup
  have bare : ∀ v < userPages, m'.target (c, v) = none := fun v inside => taken.target inside
  refine ⟨c, rfl, ⟨taken.counted counted₁, ⟨rfl, ?_, ?_⟩, ?_, rfl, rfl, ?_, ?_, ?_⟩, bare⟩
  · exact fun _ impossible => absurd impossible List.not_mem_nil
  · exact fun v inside there => absurd (bare v inside) there
  · exact ⟨.nil, fun cache held => by cases held⟩
  · exact fun mine => taken.fresh (counted₁.paged.sound c ⟨.root c, trivial, mine, rfl⟩).1
  · exact (Spares.heapOnly only).trans (taken.spares counted₁)
  · rw [taken.heap.1, (kmalloc_some created).2]
    exact blocks.cons block

section Annexed

variable (annexed : Annexed roots other beside block mm c m₀ m)
include annexed

theorem Annexed.mmMap {addr len : Nat} {vmFlags : BitVec 32} (mapped : mm.mmMap addr len vmFlags m = .ok (ret, mm', m')) :
    Annexed roots other beside block mm' c m₀ m' ∧ HeapOnly m m' ∧ (ret = 0 → ∃ vma ∈ mm'.mmapList, vma.vmStart = roundDown addr pgSize ∧
      vma.vmEnd = roundUp (wrap (addr + len)) pgSize ∧ UserAccess vma.vmStart vma.vmEnd) := by
  obtain ⟨kept, result⟩ := MmStruct.mmMap_done annexed.kept mapped
  rcases result with ⟨failed, same, heap⟩ | ⟨rfl, place, asked, user, after⟩
  · have only : HeapOnly m m' := by
      rcases heap with rfl | asked
      · rfl
      · exact kmalloc_same asked
    have blocks : m'.blocks = m.blocks := by
      rcases heap with rfl | asked
      · rfl
      · exact kmalloc_none asked
    have list := same.list
    refine ⟨⟨annexed.counted.heapOnly only, ⟨?_, ?_, ?_⟩, kept, ?_, ?_, annexed.strange, annexed.spares.trans (.heapOnly only), ?_⟩, only,
      fun worked => absurd worked failed⟩
    · rw [same]
      exact annexed.covered.place
    · rw [list]
      exact annexed.covered.passes
    · rw [list, only]
      exact annexed.covered.pages
    · rw [same]
      exact annexed.idle
    · rw [same]
      exact annexed.unlocked
    · rw [blocks, MmStruct.heap, list]
      exact annexed.blocks
  · have only : HeapOnly m m' := kmalloc_same asked
    have area : ∀ area, area ∈ mm'.mmapList ↔ area = ⟨place, roundDown addr pgSize, roundUp (wrap (addr + len)) pgSize, vmFlags⟩ ∨
        area ∈ mm.mmapList := by
      intro area
      rw [after]
      exact MmStruct.mem_withArea
    refine ⟨⟨annexed.counted.heapOnly only, ⟨?_, ?_, ?_⟩, kept, ?_, ?_, annexed.strange, annexed.spares.trans (.heapOnly only), ?_⟩, only, fun _ => ?_⟩
    · rw [after]
      exact annexed.covered.place
    · intro vma member
      rcases (area vma).mp member with rfl | old
      · refine assertRange_pass ?_ ?_ user
        · unfold roundDown pgSize
          dsimp only
          omega
        · unfold roundUp roundDown pgSize
          dsimp only
          omega
      · exact annexed.covered.passes vma old
    · intro v inside there
      rw [only] at there
      obtain ⟨vma, member, covers⟩ := annexed.covered.pages v inside there
      exact ⟨vma, (area vma).mpr (.inr member), covers⟩
    · rw [after]
      exact annexed.idle
    · rw [after]
      exact annexed.unlocked
    · have inserted : (mm'.mmapList.map Vma.block).Perm (place :: mm.mmapList.map Vma.block) := by
        rw [after]
        exact (List.perm_orderedInsert _ _ _).map Vma.block
      rw [(kmalloc_some asked).2]
      refine (annexed.blocks.cons place).trans ?_
      refine (List.Perm.swap block place _).trans ?_
      exact (inserted.symm.append_right beside).cons block
    · exact ⟨_, (area _).mpr (.inl rfl), rfl, rfl, user⟩

theorem Annexed.pgdirAllocPage (area : vma ∈ mm.mmapList) (inside : vma.vmStart ≤ la ∧ la < vma.vmEnd) (flags : perm.toNat < 2 ^ 10)
    (unshared : Unshared (insert c roots) m) (allocated : m.pgdirAllocPage c la perm = .ok (found, m')) :
    Annexed roots other beside block mm c m₀ m' ∧ Unshared (insert c roots) m' ∧ ∀ page, found = some page → m'.target (c, la / pgSize) = some page := by
  have root := Finset.mem_insert_self c roots
  obtain ⟨_, last, user⟩ := assertRange_ok (annexed.covered.passes vma area)
  have low : la < userTop := lt_of_lt_of_le inside.2 user.2.2
  obtain ⟨found', m₁, done, counted', npage, others⟩ := annexed.counted.pgdirAllocPage root low flags
  obtain ⟨rfl, rfl⟩ := Prod.mk.inj (Except.ok.inj (done.symm.trans allocated))
  obtain ⟨spares, heap, nothing, something⟩ := annexed.counted.pgdirAllocPage_spares root low flags allocated
  rw [Finset.erase_insert annexed.strange] at spares
  refine ⟨⟨counted', ⟨annexed.covered.place, annexed.covered.passes, ?_⟩, annexed.kept, annexed.idle, annexed.unlocked, annexed.strange,
    annexed.spares.trans spares, ?_⟩, ?_, fun page same => (something page same).2⟩
  · intro v within there
    by_cases here : v = la / pgSize
    · refine ⟨vma, area, ?_⟩
      rw [here]
      unfold Vma.Covers pgSize
      unfold pgSize at last
      omega
    · rw [others c root v within fun both => here both.2] at there
      exact annexed.covered.pages v within there
  · rw [heap.1]
    exact annexed.blocks
  · cases found' with
    | none =>
      refine unshared.less ?_
      intro q own v within f here
      by_cases same : q = c ∧ v = la / pgSize
      · rw [same.1] at here own ⊢
        rw [nothing rfl v within] at here
        exact ⟨own, here⟩
      · rw [others q own v within same] at here
        exact ⟨own, here⟩
    | some page =>
      obtain ⟨unused, here⟩ := something page rfl
      exact unshared.fresh (fun mapped => unused (annexed.counted.mapped page mapped).1) others here

theorem Annexed.write (unshared : Unshared (insert c roots) m) (inside : v < userPages) (here : m.target (c, v) = some page) (words : Nat → BitVec 64) :
    Annexed roots other beside block mm c m₀ (m.setFrame page words) ∧ Unshared (insert c roots) (m.setFrame page words) := by
  have root := Finset.mem_insert_self c roots
  have outside := (annexed.counted.mapped page ⟨c, root, v, inside, here⟩).2.2.1
  have spares := unshared.write annexed.counted root inside here words
  rw [Finset.erase_insert annexed.strange] at spares
  have targets : ∀ q ∈ insert c roots, ∀ w < userPages, (m.setFrame page words).target (q, w) = m.target (q, w) :=
    fun q own w within => setFrame_target outside words own within
  refine ⟨⟨annexed.counted.setFrame outside words, ⟨annexed.covered.place, annexed.covered.passes, ?_⟩, annexed.kept, annexed.idle, annexed.unlocked,
    annexed.strange, annexed.spares.trans spares, annexed.blocks⟩, ?_⟩
  · intro w within there
    rw [targets c root w within] at there
    exact annexed.covered.pages w within there
  · refine unshared.less ?_
    intro q own w within f there
    rw [targets q own w within] at there
    exact ⟨own, there⟩

theorem Annexed.tearDown : ∃ m' more, tearDown block mm m = .ok m' ∧ Counted roots ∅ more m' ∧ other ⊆ more ∧ m'.blocks.Perm beside ∧
    Spares roots other m₀ m' := by
  have root := Finset.mem_insert_self c roots
  obtain ⟨m', more, done, counted, wider, blocks, spared, words, _⟩ := annexed.counted.tearDown root annexed.covered annexed.idle annexed.blocks
  rw [Finset.erase_insert annexed.strange] at counted spared
  exact ⟨m', more, done, counted, wider, blocks, annexed.spares.trans ⟨spared, words⟩⟩

theorem Annexed.unshared (bare : ∀ v < userPages, m.target (c, v) = none) (unshared : Unshared roots m₀) : Unshared (insert c roots) m := by
  refine unshared.less ?_
  intro q own v inside f here
  rcases Finset.mem_insert.mp own with rfl | own
  · rw [bare v inside] at here
    cases here
  · rw [annexed.spares.target own inside] at here
    exact ⟨own, here⟩

omit annexed in
private theorem Copied.mirrors {D : Set Nat} (copied : Copied roots c r D m m') (bare : ∀ v < userPages, m.target (c, v) = none)
    (within : ∀ v < userPages, m.target (r, v) ≠ none → v ∈ D) (child : c ∈ roots) : Mirrors r c m m' := by
  intro v inside
  by_cases isValid : valid (m.leaf r v) = true
  · have here : m.target (r, v) = some (pteFrame (m.leaf r v)) := target_some isValid
    have covers : v ∈ D := within v inside (by rw [here]; exact Option.some_ne_none _)
    obtain ⟨page, _, managed, leaf, copy, _⟩ := copied.copied v covers isValid
    have there : m'.target (c, v) = some page := by
      rw [Mem.target, leaf, entry_pteCreate (lt_of_lt_of_le managed.2 m.npage_le) (or_flags (copyPerm_flags _))]
    refine ⟨fun impossible => absurd (here.symm.trans impossible) (Option.some_ne_none _), fun f mapped => ?_⟩
    obtain rfl := Option.some.inj (here.symm.trans mapped)
    refine ⟨page, there, copy, ?_⟩
    rw [leaf]
    exact copyPerm_user page isValid
  · have here : m.target (r, v) = none := by
      rw [Mem.target, entry, if_neg isValid]
    have there : m'.target (c, v) = none := by
      by_cases covers : v ∈ D
      · rw [Mem.target, copied.skipped v covers isValid]
        exact bare v inside
      · rw [Mem.target, copied.leaf c child v inside fun both => covers both.2]
        exact bare v inside
    exact ⟨fun _ => there, fun f impossible => absurd (here.symm.trans impossible) (Option.some_ne_none f).symm⟩

/-- The copy of an address space. -/
theorem Annexed.dupMmap {p : Frame} (list : mm.mmapList = []) (bare : ∀ v < userPages, m.target (c, v) = none) (unshared : Unshared (insert c roots) m)
    (parent : p ∈ roots) (within : Covered source p m) (kept : source.Kept) (dup : mm.dupMmap source m = .ok (ret, mm', m')) :
    Annexed roots other beside block mm' c m₀ m' ∧
      (ret = 0 → Unshared (insert c roots) m' ∧ mm'.mmapList.map Vma.range = source.mmapList.map Vma.range ∧ Mirrors p c m m') := by
  have origin := within.place
  have child := Finset.mem_insert_self c roots
  have wide : p ∈ insert c roots := Finset.mem_insert_of_mem parent
  have apart : p ≠ c := by
    rintro rfl
    exact annexed.strange parent
  have spans := kept.spans
  have ahead : ∀ vma ∈ source.mmapList.reverse, ∀ area ∈ mm.mmapList, vma.vmEnd ≤ area.vmStart := by
    rw [list]
    exact fun _ _ area impossible => absurd impossible List.not_mem_nil
  obtain ⟨counted', news, duplicated, result⟩ := annexed.counted.dupVmas child wide apart annexed.covered.place origin annexed.kept
    (List.pairwise_reverse.mpr spans.apart) (fun vma there => spans.nonempty vma (List.mem_reverse.mp there)) ahead (fun x inside _ => bare x inside) dup
  have news' : mm'.mmapList = news := by
    rw [duplicated.fields, list]
    exact List.append_nil news
  refine ⟨⟨counted', ⟨?_, ?_, ?_⟩, duplicated.kept, ?_, ?_, annexed.strange, ?_, ?_⟩, ?_⟩
  · rw [duplicated.fields]
    exact annexed.covered.place
  · rw [news']
    exact duplicated.passes
  · intro v inside there
    rw [news']
    by_contra away
    rw [Mem.target, duplicated.copying.leaf c child v inside fun both => away both.2] at there
    exact there (bare v inside)
  · rw [duplicated.fields]
    exact annexed.idle
  · rw [duplicated.fields]
    exact annexed.unlocked
  · exact annexed.spares.trans (duplicated.copying.spares annexed.strange annexed.counted counted')
  · have blocks := annexed.blocks
    rw [MmStruct.heap, list] at blocks
    rw [duplicated.blocks, MmStruct.heap, news']
    exact (blocks.append_left (news.map Vma.block)).trans List.perm_middle
  · rintro rfl
    obtain ⟨_, ranges, copied⟩ := result.resolve_right (by decide)
    refine ⟨counted'.unshared ?_, ?_, copied.mirrors bare ?_ child⟩
    rotate_left
    · rw [news', ranges, List.map_reverse, List.reverse_reverse]
    · intro v inside there
      obtain ⟨vma, area, covers⟩ := within.pages v inside there
      exact ⟨vma, List.mem_reverse.mpr area, covers⟩
    rintro f ⟨q, own, v, inside, here⟩
    rcases Finset.mem_insert.mp own with rfl | root
    · by_cases covers : v ∈ Ucore.covered source.mmapList.reverse
      · by_cases isValid : valid (m.leaf p v) = true
        · obtain ⟨page, _, managed, leaf, _, once⟩ := copied.copied v covers isValid
          rw [Mem.target, leaf, entry_pteCreate (lt_of_lt_of_le managed.2 m.npage_le) (or_flags (copyPerm_flags _))] at here
          rw [← Option.some.inj here]
          exact once
        · rw [Mem.target, copied.skipped v covers isValid] at here
          cases (bare v inside).symm.trans here
      · rw [Mem.target, copied.leaf q child v inside fun both => covers both.2] at here
        cases (bare v inside).symm.trans here
    · rw [Mem.target, copied.leaf q own v inside ?_] at here
      · have mapped : m.Mapped (insert c roots) f := ⟨q, own, v, inside, here⟩
        rw [copied.ref f (annexed.counted.mapped f mapped).1]
        exact unshared.once annexed.counted mapped
      · rintro ⟨rfl, _⟩
        exact annexed.strange root

end Annexed

/-- The address spaces in use are those at `spaces`. Each has a page directory of its own, all pages that it maps are in its areas, and no page is
mapped twice. The heap has their blocks and `rest`. -/
structure Housed (mms : Block → MmStruct) (spaces : List Block) (roots : Finset Frame) (other : Set Frame) (rest : List Block) (m : Mem) : Prop where
  counted : Counted roots ∅ other m
  unshared : Unshared roots m
  covered : ∀ b ∈ spaces, ∃ r ∈ roots, Covered (mms b) r m
  owned : ∀ r ∈ roots, ∃ b ∈ spaces, (mms b).pgdir = some r
  apart : ∀ b ∈ spaces, ∀ b' ∈ spaces, (mms b').pgdir = (mms b).pgdir → b' = b
  kept : ∀ b ∈ spaces, (mms b).Kept
  unlocked : ∀ b ∈ spaces, (mms b).mmLock = false
  distinct : spaces.Nodup
  blocks : m.blocks.Perm ((spaces.flatMap fun b => (mms b).heap b) ++ rest)

variable {mms mms' : Block → MmStruct} {spaces : List Block} {b : Block}

section Housed

variable (housed : Housed mms spaces roots other rest m)
include housed

theorem Housed.root (inside : b ∈ spaces) : ∃ r ∈ roots, (mms b).pgdir = some r ∧ Covered (mms b) r m := by
  obtain ⟨r, root, covered⟩ := housed.covered b inside
  exact ⟨r, root, covered.place, covered⟩

theorem Housed.space_mem (inside : b ∈ spaces) : b ∈ m.blocks :=
  housed.blocks.mem_iff.mpr (List.mem_append_left rest (List.mem_flatMap.mpr ⟨b, inside, List.mem_cons_self⟩))

theorem Housed.rest_mem (inside : block ∈ rest) : block ∈ m.blocks :=
  housed.blocks.mem_iff.mpr (List.mem_append_right _ inside)

/-- The memory changes, and no page directory sees it. -/
theorem Housed.keep {rest' : List Block} (counted : Counted roots ∅ more m') (spares : Spares roots other m m')
    (blocks : m'.blocks.Perm ((spaces.flatMap fun b => (mms b).heap b) ++ rest')) : Housed mms spaces roots more rest' m' where
  counted := counted
  unshared := housed.unshared.spares spares subset_rfl
  covered b inside := by
    obtain ⟨r, root, place, passes, pages⟩ := housed.covered b inside
    refine ⟨r, root, place, passes, fun v within there => pages v within ?_⟩
    rw [← spares.target root within]
    exact there
  owned := housed.owned
  apart := housed.apart
  kept := housed.kept
  unlocked := housed.unlocked
  distinct := housed.distinct
  blocks := blocks

/-- The counts and the caches of the address spaces play no part. -/
theorem Housed.alike (list : ∀ b ∈ spaces, (mms' b).mmapList = (mms b).mmapList) (place : ∀ b ∈ spaces, (mms' b).pgdir = (mms b).pgdir)
    (kept : ∀ b ∈ spaces, (mms' b).Kept) (unlocked : ∀ b ∈ spaces, (mms' b).mmLock = false) : Housed mms' spaces roots other rest m where
  counted := housed.counted
  unshared := housed.unshared
  covered b inside := by
    obtain ⟨r, root, covered⟩ := housed.covered b inside
    refine ⟨r, root, (place b inside).trans covered.place, ?_, ?_⟩
    · rw [list b inside]
      exact covered.passes
    · rw [list b inside]
      exact covered.pages
  owned r root := by
    obtain ⟨b, inside, here⟩ := housed.owned r root
    exact ⟨b, inside, (place b inside).trans here⟩
  apart b inside b' inside' same := by
    rw [place b inside, place b' inside'] at same
    exact housed.apart b inside b' inside' same
  kept := kept
  unlocked := unlocked
  distinct := housed.distinct
  blocks := by
    have same : (spaces.flatMap fun b => (mms' b).heap b) = spaces.flatMap fun b => (mms b).heap b := by
      refine List.flatMap_congr fun b inside => ?_
      rw [MmStruct.heap, MmStruct.heap, list b inside]
    rw [same]
    exact housed.blocks

/-- One of the `mm_struct`s changes in its other fields. -/
theorem Housed.setMm {mm : MmStruct} (list : mm.mmapList = (mms block).mmapList) (place : mm.pgdir = (mms block).pgdir)
    (kept : block ∈ spaces → mm.Kept) (unlocked : block ∈ spaces → mm.mmLock = false) :
    Housed (Function.update mms block mm) spaces roots other rest m := by
  have others : ∀ b, b ≠ block → Function.update mms block mm b = mms b := fun b away => Function.update_of_ne away _ _
  have own : Function.update mms block mm block = mm := Function.update_self ..
  refine housed.alike ?_ ?_ ?_ ?_
  all_goals
    intro b inside
    by_cases same : b = block
  · rw [same, own, list]
  · rw [others b same]
  · rw [same, own, place]
  · rw [others b same]
  · rw [same, own]
    exact kept (same ▸ inside)
  · rw [others b same]
    exact housed.kept b inside
  · rw [same, own]
    exact unlocked (same ▸ inside)
  · rw [others b same]
    exact housed.unlocked b inside

theorem Housed.kmalloc (asked : m.kmalloc = (some block, m')) : Housed mms spaces roots other (block :: rest) m' ∧ block ∉ m.blocks ∧ HeapOnly m m' := by
  have only : HeapOnly m m' := kmalloc_same asked
  obtain ⟨fresh, blocks⟩ := kmalloc_some asked
  refine ⟨housed.keep (housed.counted.heapOnly only) (.heapOnly only) ?_, fresh, only⟩
  rw [blocks]
  exact (housed.blocks.cons block).trans List.perm_middle.symm

theorem Housed.asks (asked : m.kmalloc = (none, m')) : Housed mms spaces roots other rest m' ∧ HeapOnly m m' := by
  have only : HeapOnly m m' := kmalloc_same asked
  refine ⟨housed.keep (housed.counted.heapOnly only) (.heapOnly only) ?_, only⟩
  rw [kmalloc_none asked]
  exact housed.blocks

theorem Housed.kfree (inside : block ∈ rest) : ∃ m', m.kfree block = .ok m' ∧ Housed mms spaces roots other (rest.erase block) m' ∧ HeapOnly m m' := by
  have front : m.blocks.Perm (block :: ((spaces.flatMap fun b => (mms b).heap b) ++ rest.erase block)) := by
    refine housed.blocks.trans (List.Perm.trans ?_ List.perm_middle)
    exact (List.perm_cons_erase inside).append_left _
  obtain ⟨m', freed, only, blocks⟩ := kfree_perm front
  exact ⟨m', freed, housed.keep (housed.counted.heapOnly only) (.heapOnly only) blocks, only⟩

/-- A new address space comes into use. -/
theorem Housed.adopt {mm : MmStruct} (annexed : Annexed roots other ((spaces.flatMap fun b => (mms b).heap b) ++ rest) block mm c m m')
    (strange : block ∉ spaces) (unshared : Unshared (insert c roots) m') (same : ∀ b ∈ spaces, mms' b = mms b)
    (list : (mms' block).mmapList = mm.mmapList) (place : (mms' block).pgdir = mm.pgdir) (kept : (mms' block).Kept) (unlocked : (mms' block).mmLock = false) :
    Housed mms' (block :: spaces) (insert c roots) other rest m' where
  counted := annexed.counted
  unshared := unshared
  covered b inside := by
    rcases List.mem_cons.mp inside with rfl | inside
    · refine ⟨c, Finset.mem_insert_self c roots, place.trans annexed.covered.place, ?_, ?_⟩
      · rw [list]
        exact annexed.covered.passes
      · rw [list]
        exact annexed.covered.pages
    · obtain ⟨r, root, covered⟩ := housed.covered b inside
      rw [same b inside]
      refine ⟨r, Finset.mem_insert_of_mem root, covered.place, covered.passes, fun v within there => covered.pages v within ?_⟩
      rw [← annexed.spares.target root within]
      exact there
  owned r root := by
    rcases Finset.mem_insert.mp root with rfl | root
    · exact ⟨block, List.mem_cons_self, place.trans annexed.covered.place⟩
    · obtain ⟨b, inside, here⟩ := housed.owned r root
      refine ⟨b, List.mem_cons_of_mem _ inside, ?_⟩
      rw [same b inside]
      exact here
  apart b inside b' inside' together := by
    have own : ∀ b ∈ spaces, (mms' b).pgdir ≠ (mms' block).pgdir := by
      intro b inside together
      obtain ⟨r, root, here, _⟩ := housed.root inside
      rw [same b inside, place, here, annexed.covered.place] at together
      exact annexed.strange (Option.some.inj together ▸ root)
    rcases List.mem_cons.mp inside with rfl | old
    · rcases List.mem_cons.mp inside' with rfl | old'
      · rfl
      · exact absurd together (own b' old')
    · rcases List.mem_cons.mp inside' with rfl | old'
      · exact absurd together.symm (own b old)
      · rw [same b old, same b' old'] at together
        exact housed.apart b old b' old' together
  kept b inside := by
    rcases List.mem_cons.mp inside with rfl | inside
    · exact kept
    · rw [same b inside]
      exact housed.kept b inside
  unlocked b inside := by
    rcases List.mem_cons.mp inside with rfl | inside
    · exact unlocked
    · rw [same b inside]
      exact housed.unlocked b inside
  distinct := List.nodup_cons.mpr ⟨strange, housed.distinct⟩
  blocks := by
    have others : (spaces.flatMap fun b => (mms' b).heap b) = spaces.flatMap fun b => (mms b).heap b :=
      List.flatMap_congr fun b inside => by rw [same b inside]
    rw [List.flatMap_cons, others, MmStruct.heap, list, List.append_assoc]
    exact annexed.blocks

/-- The last user of an address space leaves it. -/
theorem Housed.drop {mm : MmStruct} (inside : b ∈ spaces) (idle : mm.mmCount = 0) (list : mm.mmapList = (mms b).mmapList) (place : mm.pgdir = (mms b).pgdir) :
    ∃ r m' more, (mms b).pgdir = some r ∧ r ∈ roots ∧ tearDown b mm m = .ok m' ∧ Housed mms (spaces.erase b) (roots.erase r) more rest m' ∧
      other ⊆ more ∧ Spares (roots.erase r) other m m' ∧ r ∉ m'.used ∧ (∀ v < userPages, ∀ f, m.target (r, v) = some f → f ∉ m'.used) ∧
      m.blocks.Perm ((mms b).heap b ++ m'.blocks) := by
  obtain ⟨r, root, here, covered⟩ := housed.root inside
  have covers : Covered mm r m := by
    refine ⟨place.trans here, ?_, ?_⟩
    · rw [list]
      exact covered.passes
    · rw [list]
      exact covered.pages
  have front : m.blocks.Perm (mm.heap b ++ (((spaces.erase b).flatMap fun b => (mms b).heap b) ++ rest)) := by
    have first := (List.perm_cons_erase inside).flatMap_right fun b => (mms b).heap b
    rw [List.flatMap_cons] at first
    rw [← List.append_assoc, MmStruct.heap, list]
    exact housed.blocks.trans (first.append_right rest)
  obtain ⟨m', more, done, counted, wider, blocks, spared, words, unused, freed⟩ := housed.counted.tearDown root covers idle front
  have spares : Spares (roots.erase r) other m m' := ⟨spared, words⟩
  have less : ∀ b' ∈ spaces.erase b, b' ∈ spaces := fun b' => List.mem_of_mem_erase
  have gone : b ∉ spaces.erase b := housed.distinct.not_mem_erase
  refine ⟨r, m', more, here, root, done, ⟨counted, housed.unshared.spares spares (Finset.erase_subset r roots), ?_, ?_,
    fun b' there b'' there' => housed.apart b' (less b' there) b'' (less b'' there'), fun b' there => housed.kept b' (less b' there),
    fun b' there => housed.unlocked b' (less b' there), housed.distinct.erase b, blocks⟩, wider, spares, unused, ?_, ?_⟩
  · intro b' there
    obtain ⟨q, own, here', covered'⟩ := housed.root (less b' there)
    have away : q ≠ r := by
      rintro rfl
      obtain rfl := housed.apart b inside b' (less b' there) (here'.trans here.symm)
      exact gone there
    have stays : q ∈ roots.erase r := Finset.mem_erase.mpr ⟨away, own⟩
    refine ⟨q, stays, covered'.place, covered'.passes, fun v within mapped => covered'.pages v within ?_⟩
    rw [← spares.target stays within]
    exact mapped
  · intro q stays
    obtain ⟨away, own⟩ := Finset.mem_erase.mp stays
    obtain ⟨b', there, here'⟩ := housed.owned q own
    refine ⟨b', (List.mem_erase_of_ne ?_).mpr there, here'⟩
    rintro rfl
    exact away (Option.some.inj (here'.symm.trans here))
  · intro v inside f mapped
    refine freed f ⟨r, root, v, inside, mapped⟩ ?_
    rintro ⟨q, stays, w, within, also⟩
    obtain ⟨away, own⟩ := Finset.mem_erase.mp stays
    exact away (housed.unshared r root v inside q own w within f mapped also).1
  · rw [MmStruct.heap, ← list]
    exact front.trans (blocks.symm.append_left _)

end Housed

end Ucore
