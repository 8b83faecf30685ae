import Mathlib
import Ucore.Proofs.Loading

/-! The processes as users of the address spaces. `mm_count` is the number of the processes that use an address space, and
what a process does with its own memory is not seen by those that use another one. -/

namespace Ucore
open Lib

/-- How many of the processes use the address space at `b`. -/
def users (procs : List Ptr) (mm : Ptr → Option Block) (b : Block) : Nat := procs.countP fun proc => mm proc = some b

/-- The frames of the kernel stack. -/
def Vm.stack (vm : Vm) (proc : Ptr) : Set Frame := {f | f ∈ List.range' (vm.kstack proc) kstackPage}

/-- What the memory is used for: the address spaces, their page directories, the frames of the kernel, and the other blocks of the heap. -/
structure Holdings where
  spaces : List Block
  roots : Finset Frame
  other : Set Frame
  rest : List Block

/-- The holdings describes the memory of the processes. -/
structure Holdings.Fits (l : Holdings) (procs : List Ptr) (idle : Ptr) (vm : Vm) : Prop where
  housed : Housed vm.mms l.spaces l.roots l.other (procs ++ l.rest) vm.mem
  distinct : procs.Nodup
  count : ∀ b ∈ l.spaces, (vm.mms b).mmCount = users procs vm.mm b
  used : ∀ b ∈ l.spaces, 0 < users procs vm.mm b
  mine : ∀ p ∈ procs, ∀ b, vm.mm p = some b → b ∈ l.spaces ∧ (vm.mms b).pgdir = some (vm.pgdir p)
  boot : vm.bootPgdir ∈ l.other
  zero : ∀ i < 511, vm.mem.word vm.bootPgdir i = 0
  stack : ∀ p ∈ procs, p ≠ idle → vm.stack p ⊆ l.other ∧ vm.bootPgdir ∉ vm.stack p
  separate : ∀ p ∈ procs, ∀ q ∈ procs, p ≠ idle → q ≠ idle → p ≠ q → Disjoint (vm.stack p) (vm.stack q)

/-- The process keeps its address space with its areas, and what is mapped in it is the same with the same words. -/
structure Vm.Intact (p : Ptr) (vm vm' : Vm) : Prop where
  mm : vm'.mm p = vm.mm p
  pgdir : vm'.pgdir p = vm.pgdir p
  areas : ∀ b, vm.mm p = some b → (vm'.mms b).mmapList = (vm.mms b).mmapList
  spared : Spared {vm.pgdir p} vm.mem vm'.mem

/-- The process has no address space as before, or keeps its address space with its areas, and what is mapped in it is the same. -/
structure Vm.Stays (p : Ptr) (vm vm' : Vm) : Prop where
  mm : vm'.mm p = vm.mm p
  space : ∀ b, vm.mm p = some b → vm'.pgdir p = vm.pgdir p ∧ (vm'.mms b).mmapList = (vm.mms b).mmapList ∧
    ∀ v < userPages, vm'.mem.leaf (vm.pgdir p) v = vm.mem.leaf (vm.pgdir p) v

/-- The address space at the same block differs in its cache. -/
structure SameSpace (mm mm' : MmStruct) : Prop where
  list : mm'.mmapList = mm.mmapList
  pgdir : mm'.pgdir = mm.pgdir
  count : mm'.mmCount = mm.mmCount
  lock : mm'.mmLock = mm.mmLock
  kept : mm.Kept → mm'.Kept

variable {l : Holdings} {procs : List Ptr} {idle p q proc : Ptr} {vm vm' vm'' : Vm} {mm : Ptr → Option Block} {b block old : Block} {value : Option Block}
  {mem m m' : Mem} {r page : Frame} {addr len : Nat} {ret : Int}

theorem users_congr {mm' : Ptr → Option Block} (same : ∀ p ∈ procs, mm' p = mm p) : users procs mm' b = users procs mm b := by
  refine List.countP_congr fun p member => ?_
  rw [same p member]

/-- One process comes to another address space. -/
theorem users_update (distinct : procs.Nodup) (member : proc ∈ procs) :
    users procs (Function.update mm proc value) b + (if mm proc = some b then 1 else 0) =
      users procs mm b + if value = some b then 1 else 0 := by
  induction procs with
  | nil => exact absurd member List.not_mem_nil
  | cons first procs ih =>
    obtain ⟨strange, distinct⟩ := List.nodup_cons.mp distinct
    have split : ∀ mm : Ptr → Option Block, users (first :: procs) mm b = users procs mm b + if mm first = some b then 1 else 0 := by
      intro mm
      rw [users, List.countP_cons]
      simp only [decide_eq_true_eq]
      rfl
    rw [split, split]
    rcases List.mem_cons.mp member with rfl | member
    · have others : users procs (Function.update mm proc value) b = users procs mm b := by
        refine users_congr fun p inside => Function.update_of_ne ?_ _ _
        rintro rfl
        exact strange inside
      rw [others, Function.update_self]
      omega
    · have apart : first ≠ proc := by
        rintro rfl
        exact strange member
      rw [Function.update_of_ne apart, Nat.add_right_comm, ih distinct member]
      omega

theorem users_erase (member : p ∈ procs) (bare : mm p = none) : users (procs.erase p) mm b = users procs mm b := by
  have front : users procs mm b = users (p :: procs.erase p) mm b := (List.perm_cons_erase member).countP_eq _
  rw [front, users, users, List.countP_cons, bare]
  rfl

theorem users_pos (member : p ∈ procs) (uses : mm p = some b) : 0 < users procs mm b :=
  List.countP_pos_iff.mpr ⟨p, member, decide_eq_true uses⟩

theorem users_two (member : p ∈ procs) (member' : q ∈ procs) (apart : p ≠ q) (uses : mm p = some b) (uses' : mm q = some b) : users procs mm b ≠ 1 := by
  have front : users procs mm b = users (p :: procs.erase p) mm b := (List.perm_cons_erase member).countP_eq _
  have rest : 0 < users (procs.erase p) mm b := users_pos ((List.mem_erase_of_ne apart.symm).mpr member') uses'
  rw [front, users, List.countP_cons, if_pos (decide_eq_true uses)]
  unfold users at rest
  omega

/-- Only the fields of `proc` differ, and no area of the address spaces. -/
structure Vm.Elsewhere (spaces : List Block) (proc : Ptr) (vm vm' : Vm) : Prop where
  current : vm'.current = vm.current
  boot : vm'.bootPgdir = vm.bootPgdir
  mm : ∀ p, p ≠ proc → vm'.mm p = vm.mm p
  pgdir : ∀ p, p ≠ proc → vm'.pgdir p = vm.pgdir p
  areas : ∀ b ∈ spaces, (vm'.mms b).mmapList = (vm.mms b).mmapList

theorem Vm.Intact.refl : Vm.Intact p vm vm := ⟨rfl, rfl, fun _ _ => rfl, .refl⟩

theorem Vm.Intact.trans (first : Vm.Intact p vm vm') (second : Vm.Intact p vm' vm'') : Vm.Intact p vm vm'' := by
  refine ⟨second.mm.trans first.mm, second.pgdir.trans first.pgdir, fun b uses => ?_, first.spared.trans ?_⟩
  · exact (second.areas b (first.mm.trans uses)).trans (first.areas b uses)
  · rw [← first.pgdir]
    exact second.spared

theorem Vm.Stays.intact (mm : vm'.mm p = vm.mm p) (intact : ∀ b, vm.mm p = some b → Vm.Intact p vm vm') : Vm.Stays p vm vm' := by
  refine ⟨mm, fun b uses => ⟨(intact b uses).pgdir, (intact b uses).areas b uses, fun v inside => ?_⟩⟩
  exact ((intact b uses).spared _ (Finset.mem_singleton_self _) v inside).1

theorem Vm.Elsewhere.refl {spaces : List Block} : Vm.Elsewhere spaces proc vm vm := ⟨rfl, rfl, fun _ _ => rfl, fun _ _ => rfl, fun _ _ => rfl⟩

theorem Vm.Elsewhere.trans {spaces : List Block} (first : Vm.Elsewhere spaces proc vm vm') (second : Vm.Elsewhere spaces proc vm' vm'') :
    Vm.Elsewhere spaces proc vm vm'' :=
  ⟨second.current.trans first.current, second.boot.trans first.boot, fun p apart => (second.mm p apart).trans (first.mm p apart),
    fun p apart => (second.pgdir p apart).trans (first.pgdir p apart), fun b inside => (second.areas b inside).trans (first.areas b inside)⟩

theorem SameSpace.refl {mm : MmStruct} : SameSpace mm mm := ⟨rfl, rfl, rfl, rfl, id⟩

theorem Vm.Elsewhere.forget {spaces : List Block} (elsewhere : Vm.Elsewhere spaces proc vm vm') : Vm.Elsewhere [] proc vm vm' :=
  ⟨elsewhere.current, elsewhere.boot, elsewhere.mm, elsewhere.pgdir, fun _ impossible => absurd impossible List.not_mem_nil⟩

section Fits

variable (fits : l.Fits procs idle vm)
include fits

theorem Holdings.Fits.root (member : p ∈ procs) (uses : vm.mm p = some b) : vm.pgdir p ∈ l.roots := by
  obtain ⟨inside, place⟩ := fits.mine p member b uses
  obtain ⟨r, root, here, _⟩ := fits.housed.root inside
  rw [place] at here
  rw [Option.some.inj here]
  exact root

theorem Holdings.Fits.apart (member : p ∈ procs) (uses : vm.mm p = some b) (member' : q ∈ procs) (uses' : vm.mm q = some old) (other : b ≠ old) :
    vm.pgdir p ≠ vm.pgdir q := by
  intro same
  obtain ⟨inside, place⟩ := fits.mine p member b uses
  obtain ⟨inside', place'⟩ := fits.mine q member' old uses'
  exact other (fits.housed.apart old inside' b inside (by rw [place, place', same]))

theorem Holdings.Fits.intact {fewer : Finset Frame} {more : Set Frame} (member : p ∈ procs) (apart : p ≠ proc)
    (stays : vm.pgdir p ∈ fewer) (spares : Spares fewer more vm.mem vm'.mem) (elsewhere : Vm.Elsewhere l.spaces proc vm vm') : Vm.Intact p vm vm' := by
  refine ⟨elsewhere.mm p apart, elsewhere.pgdir p apart, fun b' uses' => elsewhere.areas b' (fits.mine p member b' uses').1, spares.spared.mono ?_⟩
  exact Finset.singleton_subset_iff.mpr stays

/-- The fields that the holdings says nothing about. -/
theorem Holdings.Fits.alike (mem : vm'.mem = vm.mem) (boot : vm'.bootPgdir = vm.bootPgdir) (mm : ∀ p ∈ procs, vm'.mm p = vm.mm p)
    (pgdir : ∀ p ∈ procs, vm'.pgdir p = vm.pgdir p) (kstack : ∀ p ∈ procs, vm'.kstack p = vm.kstack p)
    (same : ∀ b ∈ l.spaces, SameSpace (vm.mms b) (vm'.mms b)) : l.Fits procs idle vm' := by
  have count : ∀ b, users procs vm'.mm b = users procs vm.mm b := fun b => users_congr mm
  have stack : ∀ p ∈ procs, vm'.stack p = vm.stack p := by
    intro p member
    rw [Vm.stack, kstack p member]
    rfl
  refine ⟨?_, fits.distinct, ?_, ?_, ?_, ?_, ?_, ?_, ?_⟩
  · rw [mem]
    refine fits.housed.alike (fun b inside => (same b inside).list) (fun b inside => (same b inside).pgdir)
      (fun b inside => (same b inside).kept (fits.housed.kept b inside)) fun b inside => ?_
    rw [(same b inside).lock]
    exact fits.housed.unlocked b inside
  · intro b inside
    rw [count, (same b inside).count]
    exact fits.count b inside
  · intro b inside
    rw [count]
    exact fits.used b inside
  · intro p member b uses
    rw [mm p member] at uses
    obtain ⟨inside, place⟩ := fits.mine p member b uses
    rw [pgdir p member, (same b inside).pgdir]
    exact ⟨inside, place⟩
  · rw [boot]
    exact fits.boot
  · rw [mem, boot]
    exact fits.zero
  · intro p member notIdle
    rw [stack p member, boot]
    exact fits.stack p member notIdle
  · intro p member q member' notIdle notIdle' other
    rw [stack p member, stack q member']
    exact fits.separate p member q member' notIdle notIdle' other

end Fits

private theorem userMemLoop_same {write answer : Bool} {stop fuel start : Nat} {mm mm' : MmStruct}
    (looped : mm.userMemLoop write stop fuel start = .ok (answer, mm')) : SameSpace mm mm' := by
  induction fuel generalizing start mm with
  | zero => cases looped
  | succ fuel ih =>
    have looks : SameSpace mm (mm.findVma start).2 := by
      have same : MmStruct.SameAreas mm (mm.findVma start).2 := MmStruct.findVma_same
      refine ⟨same.list, ?_, ?_, ?_, MmStruct.findVma_kept⟩
      all_goals rw [same]
    have trans : ∀ {mm₁ : MmStruct}, SameSpace mm mm₁ → SameSpace mm₁ mm' → SameSpace mm mm' := fun first second =>
      ⟨second.list.trans first.list, second.pgdir.trans first.pgdir, second.count.trans first.count, second.lock.trans first.lock,
        fun kept => second.kept (first.kept kept)⟩
    unfold MmStruct.userMemLoop at looped
    split at looped
    · split at looped
      next vma found looked =>
        rw [looked] at looks
        split at looped
        · obtain ⟨_, rfl⟩ := Prod.mk.inj (Except.ok.inj looped)
          exact looks
        · exact trans looks (ih looped)
      next found looked =>
        rw [looked] at looks
        obtain ⟨_, rfl⟩ := Prod.mk.inj (Except.ok.inj looped)
        exact looks
    · obtain ⟨_, rfl⟩ := Prod.mk.inj (Except.ok.inj looped)
      exact .refl

theorem userMemCheck_same {write answer : Bool} (checked : vm.userMemCheck addr len write = .ok (answer, vm')) :
    ∃ mms, vm' = { vm with mms := mms } ∧ ∀ b, SameSpace (vm.mms b) (mms b) := by
  unfold Vm.userMemCheck at checked
  split at checked
  · obtain ⟨_, rfl⟩ := Prod.mk.inj (Except.ok.inj checked)
    exact ⟨_, rfl, fun _ => .refl⟩
  next block _ =>
    obtain ⟨⟨granted, mm⟩, looped, found⟩ := bind_ok checked
    obtain ⟨_, rfl⟩ := Prod.mk.inj (Except.ok.inj found)
    refine ⟨_, rfl, fun b => ?_⟩
    by_cases own : b = block
    · subst own
      rw [Function.update_self]
      unfold MmStruct.userMemCheck at looped
      split at looped
      · exact userMemLoop_same looped
      · obtain ⟨_, rfl⟩ := Prod.mk.inj (Except.ok.inj looped)
        exact .refl
    · rw [Function.update_of_ne own]
      exact .refl

theorem Holdings.Fits.check {write answer : Bool} (fits : l.Fits procs idle vm) (checked : vm.userMemCheck addr len write = .ok (answer, vm')) :
    l.Fits procs idle vm' := by
  obtain ⟨mms, rfl, same⟩ := userMemCheck_same checked
  exact fits.alike rfl rfl (fun _ _ => rfl) (fun _ _ => rfl) (fun _ _ => rfl) fun b _ => same b

theorem Holdings.Fits.enlist (fits : l.Fits procs idle vm) (known : idle ∈ procs) (created : vm.mem.kmalloc = (some proc, mem))
    (stacked : (({ vm with mem := mem } : Vm).allocProc proc).setupKstack proc = (ret, vm')) :
    proc ∉ procs ∧ Vm.Elsewhere l.spaces proc vm vm' ∧ vm'.satp = vm.satp ∧ vm'.mm proc = none ∧ vm'.pgdir proc = vm.bootPgdir ∧
      Spares l.roots l.other vm.mem vm'.mem ∧
      (ret = 0 ∧ (∃ more, Holdings.Fits ⟨l.spaces, l.roots, more, l.rest⟩ (proc :: procs) idle vm' ∧ l.other ⊆ more) ∨
        ret = -eNoMem ∧ ∃ vm'', Spaces.kfreeProc proc vm' = .ok vm'' ∧ l.Fits procs idle vm'' ∧ Vm.Elsewhere l.spaces proc vm vm'' ∧ vm''.satp = vm.satp ∧
          Spares l.roots l.other vm.mem vm''.mem) := by
  obtain ⟨housed₁, fresh, only⟩ := fits.housed.kmalloc created
  have strange : proc ∉ procs := fun member => fresh (fits.housed.rest_mem (List.mem_append_left _ member))
  have apart : ∀ p ∈ procs, p ≠ proc := by
    rintro p member rfl
    exact strange member
  have mm : ∀ p, p ≠ proc → Function.update vm.mm proc none p = vm.mm p := fun p other => Function.update_of_ne other _ _
  have pgdir : ∀ p, p ≠ proc → Function.update vm.pgdir proc vm.bootPgdir p = vm.pgdir p := fun p other => Function.update_of_ne other _ _
  have first : Spares l.roots l.other vm.mem mem := .heapOnly only
  unfold Vm.setupKstack at stacked
  cases asked : mem.allocPages kstackPage with
  | mk answer m₂ =>
    have asked' : (({ vm with mem := mem } : Vm).allocProc proc).mem.allocPages kstackPage = (answer, m₂) := asked
    rw [asked'] at stacked
    cases answer with
    | none =>
      obtain ⟨rfl, rfl⟩ := Prod.mk.inj stacked
      obtain ⟨counted₂, word, heap⟩ := housed₁.counted.asksPages asked
      have spares : Spares l.roots l.other mem m₂ := .sameWord word
      have housed₂ : Housed vm.mms l.spaces l.roots l.other (proc :: (procs ++ l.rest)) m₂ := by
        refine housed₁.keep counted₂ spares ?_
        rw [heap.1]
        exact housed₁.blocks
      obtain ⟨m₃, freed, housed₃, only₃⟩ := housed₂.kfree List.mem_cons_self
      rw [List.erase_cons_head] at housed₃
      refine ⟨strange, ⟨rfl, rfl, mm, pgdir, fun _ _ => rfl⟩, rfl, Function.update_self .., Function.update_self .., first.trans spares, .inr ⟨rfl, ?_⟩⟩
      have done : Spaces.kfreeProc proc { ({ vm with mem := mem } : Vm).allocProc proc with mem := m₂ } =
          .ok { ({ vm with mem := mem } : Vm).allocProc proc with mem := m₃ } := by
        rw [Spaces.kfreeProc, freed, ok_bind]
      refine ⟨_, done, ?_, ⟨rfl, rfl, mm, pgdir, fun _ _ => rfl⟩, rfl, (first.trans spares).trans (.heapOnly only₃)⟩
      have whole : l.Fits procs idle { vm with mem := m₃ } := by
        refine ⟨housed₃, fits.distinct, fits.count, fits.used, fits.mine, fits.boot, ?_, fits.stack, fits.separate⟩
        have same : m₃.word vm.bootPgdir = vm.mem.word vm.bootPgdir := ((first.trans spares).trans (.heapOnly only₃)).words _ fits.boot
        show ∀ i < 511, m₃.word vm.bootPgdir i = 0
        rw [same]
        exact fits.zero
      refine whole.alike rfl rfl (fun p member => mm p (apart p member)) (fun p member => pgdir p (apart p member)) ?_ fun _ _ => .refl
      exact fun p member => Function.update_of_ne (apart p member) _ _
    | some page =>
      obtain ⟨rfl, rfl⟩ := Prod.mk.inj stacked
      obtain ⟨counted₂, unused, word, heap⟩ := housed₁.counted.allocPages asked
      have spares : Spares l.roots l.other mem m₂ := .sameWord word
      have wider : l.other ⊆ l.other ∪ {f | f ∈ List.range' page kstackPage} := Set.subset_union_left
      have free : ∀ f ∈ List.range' page kstackPage, f ∉ l.other := by
        intro f inside inOther
        exact unused f inside (housed₁.counted.other f inOther).1
      have own : ∀ vm' : Vm, vm'.kstack = Function.update (Function.update vm.kstack proc 0) proc page →
          vm'.stack proc = {f | f ∈ List.range' page kstackPage} := by
        intro vm' same
        rw [Vm.stack, same, Function.update_self]
      have others : ∀ vm' : Vm, vm'.kstack = Function.update (Function.update vm.kstack proc 0) proc page →
          ∀ p ∈ procs, vm'.stack p = vm.stack p := by
        intro vm' same p member
        rw [Vm.stack, same, Function.update_of_ne (apart p member), Function.update_of_ne (apart p member)]
        rfl
      refine ⟨strange, ⟨rfl, rfl, mm, pgdir, fun _ _ => rfl⟩, rfl, Function.update_self .., Function.update_self .., first.trans spares, .inl ⟨rfl, _, ?_, wider⟩⟩
      have notIdle : proc ≠ idle := fun same => strange (same ▸ known)
      have counts : ∀ b, users (proc :: procs) (Function.update vm.mm proc none) b = users procs vm.mm b := by
        intro b
        rw [users, List.countP_cons, Function.update_self]
        exact users_congr fun p member => mm p (apart p member)
      refine ⟨?_, List.nodup_cons.mpr ⟨strange, fits.distinct⟩, ?_, ?_, ?_, wider fits.boot, ?_, ?_, ?_⟩
      · refine housed₁.keep counted₂ spares ?_
        rw [heap.1]
        exact housed₁.blocks
      · intro b inside
        exact (fits.count b inside).trans (congrArg Nat.cast (counts b).symm)
      · intro b inside
        exact lt_of_lt_of_eq (fits.used b inside) (counts b).symm
      · intro p member b uses
        rcases List.mem_cons.mp member with rfl | member
        · have none : Function.update vm.mm p none p = some b := uses
          rw [Function.update_self] at none
          cases none
        · have uses : Function.update vm.mm proc none p = some b := uses
          rw [mm p (apart p member)] at uses
          obtain ⟨inside, place⟩ := fits.mine p member b uses
          exact ⟨inside, place.trans (congrArg some (pgdir p (apart p member)).symm)⟩
      · have same : m₂.word vm.bootPgdir = vm.mem.word vm.bootPgdir := (first.trans spares).words _ fits.boot
        show ∀ i < 511, m₂.word vm.bootPgdir i = 0
        rw [same]
        exact fits.zero
      · intro p member away
        rcases List.mem_cons.mp member with rfl | member
        · rw [own _ rfl]
          exact ⟨Set.subset_union_right, fun inside => free _ inside fits.boot⟩
        · rw [others _ rfl p member]
          exact ⟨(fits.stack p member away).1.trans wider, (fits.stack p member away).2⟩
      · have new : ∀ p ∈ procs, p ≠ idle → Disjoint (vm.stack p) {f | f ∈ List.range' page kstackPage} := by
          intro p member away
          exact Set.disjoint_left.mpr fun f inStack inNew => free f inNew ((fits.stack p member away).1 inStack)
        intro p member q member' away away' other
        rcases List.mem_cons.mp member with rfl | old
        · rcases List.mem_cons.mp member' with rfl | old'
          · exact absurd rfl other
          · rw [own _ rfl, others _ rfl q old']
            exact (new q old' away').symm
        · rcases List.mem_cons.mp member' with rfl | old'
          · rw [own _ rfl, others _ rfl p old]
            exact new p old away
          · rw [others _ rfl p old, others _ rfl q old']
            exact fits.separate p old q old' away away' other

/-- The blocks that are not those of an address space that is being built. -/
def Holdings.beside (l : Holdings) (procs : List Ptr) (vm : Vm) : List Block := (l.spaces.flatMap fun b => (vm.mms b).heap b) ++ (procs ++ l.rest)

section Begin

variable (fits : l.Fits procs idle vm)
include fits

/-- The memory changes, and no address space sees it. -/
theorem Holdings.Fits.memory {more : Set Frame} (counted : Counted l.roots ∅ more m') (spares : Spares l.roots l.other vm.mem m')
    (blocks : m'.blocks.Perm (l.beside procs vm)) (wider : l.other ⊆ more) :
    Holdings.Fits ⟨l.spaces, l.roots, more, l.rest⟩ procs idle { vm with mem := m' } := by
  refine ⟨fits.housed.keep counted spares blocks, fits.distinct, fits.count, fits.used, fits.mine, wider fits.boot, ?_, ?_, fits.separate⟩
  · show ∀ i < 511, m'.word vm.bootPgdir i = 0
    rw [spares.words _ fits.boot]
    exact fits.zero
  · exact fun p member notIdle => ⟨(fits.stack p member notIdle).1.trans wider, (fits.stack p member notIdle).2⟩

theorem Holdings.Fits.uncreated (created : mmCreate vm.mem = (none, m')) :
    l.Fits procs idle { vm with mem := m' } ∧ Spares l.roots l.other vm.mem m' := by
  obtain ⟨housed, only⟩ := fits.housed.asks created
  exact ⟨fits.memory housed.counted (.heapOnly only) housed.blocks subset_rfl, .heapOnly only⟩

theorem Holdings.Fits.unset {mm : MmStruct} (created : mmCreate vm.mem = (some block, m)) (setup : setupPgdir vm.bootPgdir .fresh m = (ret, mm, m'))
    (failed : ret ≠ 0) : ∃ m'', (∀ code, Vm.abandonMm block mm code { vm with mem := m' } = .ok (code, { vm with mem := m'' })) ∧
      l.Fits procs idle { vm with mem := m'' } ∧ Spares l.roots l.other vm.mem m'' := by
  obtain ⟨housed₁, _, only⟩ := fits.housed.kmalloc created
  obtain ⟨rfl, asked⟩ := setupPgdir_failed setup failed
  have counted₂ := housed₁.counted.asked asked
  have same := allocPage_none asked
  have word : m'.word = m.word := by rw [same]
  have blocks : m'.blocks.Perm (MmStruct.fresh.heap block ++ l.beside procs vm) := by
    rw [same]
    exact housed₁.blocks.trans List.perm_middle
  have idle : MmStruct.fresh.mmCount = 0 := rfl
  obtain ⟨m'', destroyed, only', blocks'⟩ := mmDestroy_perm idle blocks
  have spares : Spares l.roots l.other vm.mem m'' := ((Spares.heapOnly only).trans (.sameWord word)).trans (.heapOnly only')
  refine ⟨m'', fun code => ?_, fits.memory (counted₂.heapOnly only') spares blocks' subset_rfl, spares⟩
  rw [Vm.abandonMm, destroyed, ok_bind]

theorem Holdings.Fits.annex {mm : MmStruct} (created : mmCreate vm.mem = (some block, m)) (setup : setupPgdir vm.bootPgdir .fresh m = (0, mm, m')) :
    block ∉ l.spaces ∧ ∃ c, mm = { MmStruct.fresh with pgdir := some c } ∧ Raised l.roots l.other (l.beside procs vm) block mm c vm.mem m' ∧
      ∀ v < userPages, m'.target (c, v) = none := by
  have zero : ∀ i < top, vm.mem.word vm.bootPgdir i = 0 := fun i low => fits.zero i (low.trans (by decide))
  obtain ⟨c, rfl, annexed, bare⟩ := fits.housed.counted.annex fits.housed.blocks zero created setup
  exact ⟨fun inside => (kmalloc_some created).1 (fits.housed.space_mem inside), c, rfl, ⟨annexed, annexed.unshared bare fits.housed.unshared⟩, bare⟩

theorem Holdings.Fits.abandon {mm : MmStruct} {c : Frame} (annexed : Annexed l.roots l.other (l.beside procs vm) block mm c vm.mem m) :
    ∃ m' more, tearDown block mm m = .ok m' ∧ Holdings.Fits ⟨l.spaces, l.roots, more, l.rest⟩ procs idle { vm with mem := m' } ∧
      Spares l.roots l.other vm.mem m' := by
  obtain ⟨m', more, done, counted, wider, blocks, spares⟩ := annexed.tearDown
  exact ⟨m', more, done, fits.memory counted spares blocks wider, spares⟩

end Begin

section Copy

variable (fits : l.Fits procs idle vm) (member : proc ∈ procs) (bare : vm.mm proc = none)
include fits member bare

private theorem Holdings.Fits.join {l' : Holdings} (housed : Housed vm'.mms l'.spaces l'.roots l'.other (procs ++ l'.rest) vm'.mem)
    (spaces : ∀ b, b ∈ l'.spaces ↔ b = block ∨ b ∈ l.spaces) (other : l'.other = l.other) (boot : vm'.bootPgdir = vm.bootPgdir)
    (kstack : vm'.kstack = vm.kstack) (words : vm'.mem.word vm.bootPgdir = vm.mem.word vm.bootPgdir)
    (mm : vm'.mm = Function.update vm.mm proc (some block)) (pgdir : ∀ p, p ≠ proc → vm'.pgdir p = vm.pgdir p)
    (place : (vm'.mms block).pgdir = some (vm'.pgdir proc)) (count : (vm'.mms block).mmCount = users procs vm.mm block + 1)
    (same : ∀ b ∈ l.spaces, b ≠ block → (vm'.mms b).mmCount = (vm.mms b).mmCount)
    (places : ∀ b ∈ l.spaces, (vm'.mms b).pgdir = (vm.mms b).pgdir) : l'.Fits procs idle vm' := by
  have counts : ∀ b, users procs vm'.mm b = users procs vm.mm b + if b = block then 1 else 0 := by
    intro b
    have update : users procs (Function.update vm.mm proc (some block)) b + (if vm.mm proc = some b then 1 else 0) =
        users procs vm.mm b + if some block = some b then 1 else 0 := users_update fits.distinct member
    rw [bare, if_neg (Option.some_ne_none b).symm, add_zero] at update
    rw [mm, update]
    simp [eq_comm]
  have stack : ∀ p, vm'.stack p = vm.stack p := by
    intro p
    rw [Vm.stack, kstack]
    rfl
  refine ⟨housed, fits.distinct, ?_, ?_, ?_, ?_, ?_, ?_, ?_⟩
  · intro b inside
    rw [counts]
    by_cases own : b = block
    · rw [own, if_pos rfl, count]
      rfl
    · have old := ((spaces b).mp inside).resolve_left own
      rw [if_neg own, same b old own]
      exact fits.count b old
  · intro b inside
    rw [counts]
    by_cases own : b = block
    · rw [if_pos own]
      exact Nat.succ_pos _
    · rw [if_neg own]
      exact fits.used b (((spaces b).mp inside).resolve_left own)
  · intro p member b uses
    rw [mm] at uses
    by_cases own : p = proc
    · rw [own, Function.update_self] at uses
      obtain rfl := Option.some.inj uses
      rw [own]
      exact ⟨(spaces _).mpr (.inl rfl), place⟩
    · rw [Function.update_of_ne own] at uses
      obtain ⟨inside, there⟩ := fits.mine p member b uses
      rw [pgdir p own, places b inside]
      exact ⟨(spaces b).mpr (.inr inside), there⟩
  · rw [other, boot]
    exact fits.boot
  · rw [boot, words]
    exact fits.zero
  · intro p member notIdle
    rw [stack, other, boot]
    exact fits.stack p member notIdle
  · intro p member q member' notIdle notIdle' apart
    rw [stack, stack]
    exact fits.separate p member q member' notIdle notIdle' apart

/-- `proc` has come to use an address space, or has none. -/
structure Equipped (l : Holdings) (procs : List Ptr) (idle proc : Ptr) (ret : Int) (vm vm' : Vm) : Prop where
  elsewhere : Vm.Elsewhere l.spaces proc vm vm'
  spares : Spares l.roots l.other vm.mem vm'.mem
  failed : ret ≠ 0 → vm'.mm proc = none
  bare : vm'.mm proc = none → vm'.pgdir proc = vm.pgdir proc
  fits : ∃ l' : Holdings, l'.Fits procs idle vm'

omit fits member in
theorem Holdings.Fits.unequipped {more : Set Frame} {mms : Block → MmStruct}
    (fits' : Holdings.Fits ⟨l.spaces, l.roots, more, l.rest⟩ procs idle { vm with mem := m' }) (spares : Spares l.roots l.other vm.mem m')
    (same : ∀ b ∈ l.spaces, mms b = vm.mms b) : Equipped l procs idle proc ret vm { vm with mem := m', mms := mms } := by
  refine ⟨⟨rfl, rfl, fun _ _ => rfl, fun _ _ => rfl, fun b inside => ?_⟩, spares, fun _ => bare, fun _ => rfl, _,
    fits'.alike rfl rfl (fun _ _ => rfl) (fun _ _ => rfl) (fun _ _ => rfl) fun b inside => ?_⟩
  · dsimp only
    rw [same b inside]
  · dsimp only
    rw [same b inside]
    exact .refl

/-- The process comes to use an address space that was built for it. -/
theorem Holdings.Fits.adopt {mm : MmStruct} {c : Frame} (annexed : Annexed l.roots l.other (l.beside procs vm) block mm c vm.mem m)
    (unshared : Unshared (insert c l.roots) m) (strange : block ∉ l.spaces) (mem : vm'.mem = m)
    (mms : vm'.mms = Function.update vm.mms block { mm with mmCount := mm.mmCount + 1 }) (uses : vm'.mm = Function.update vm.mm proc (some block))
    (pgdir : vm'.pgdir = Function.update vm.pgdir proc c) (boot : vm'.bootPgdir = vm.bootPgdir) (kstack : vm'.kstack = vm.kstack)
    (current : vm'.current = vm.current) : Equipped l procs idle proc 0 vm vm' := by
  have own : vm'.mms block = { mm with mmCount := mm.mmCount + 1 } := by rw [mms, Function.update_self]
  have newer : ∀ b ∈ l.spaces, vm'.mms b = vm.mms b := by
    intro b there
    rw [mms, Function.update_of_ne]
    rintro rfl
    exact strange there
  have nobody : users procs vm.mm block = 0 := by
    refine List.countP_eq_zero.mpr fun p there => ?_
    rw [decide_eq_true_eq]
    exact fun here => strange (fits.mine p there block here).1
  have place : mm.pgdir = some c := annexed.covered.place
  have housed : Housed vm'.mms (block :: l.spaces) (insert c l.roots) l.other (procs ++ l.rest) vm'.mem := by
    rw [mem]
    refine fits.housed.adopt annexed strange unshared newer ?_ ?_ ?_ ?_
    · rw [own]
    · rw [own]
    · rw [own]
      exact ⟨annexed.kept.spans, annexed.kept.cached⟩
    · rw [own]
      exact annexed.unlocked
  have others : ∀ p, p ≠ proc → vm'.pgdir p = vm.pgdir p := by
    intro p away
    rw [pgdir, Function.update_of_ne away]
  have spares : Spares l.roots l.other vm.mem vm'.mem := by
    rw [mem]
    exact annexed.spares
  have fits' : Holdings.Fits ⟨block :: l.spaces, insert c l.roots, l.other, l.rest⟩ procs idle vm' := by
    refine fits.join member bare housed (fun b => List.mem_cons) rfl boot kstack (spares.words _ fits.boot) uses others ?_ ?_
      (fun b there _ => by rw [newer b there]) fun b there => by rw [newer b there]
    · rw [own, pgdir, Function.update_self]
      exact place
    · rw [own, nobody]
      exact congrArg (· + 1) annexed.idle
  refine ⟨⟨current, boot, ?_, others, fun b inside => by rw [newer b inside]⟩, spares, fun impossible => absurd rfl impossible, ?_, _, fits'⟩
  · intro p away
    rw [uses, Function.update_of_ne away]
  · rw [uses, Function.update_self]
    exact fun impossible => absurd impossible (Option.some_ne_none block)

omit fits member bare in
theorem goodMm_ok (shared : vm.goodMm proc block = .ok (ret, vm')) : ret = 0 ∧ ∃ pgdir, (vm.mms block).pgdir = some pgdir ∧
    vm' = { vm with
      mms := Function.update vm.mms block { vm.mms block with mmCount := (vm.mms block).mmCount + 1 }
      mm := Function.update vm.mm proc (some block)
      pgdir := Function.update vm.pgdir proc pgdir } := by
  obtain ⟨pgdir, place, done⟩ := bind_ok shared
  obtain ⟨rfl, rfl⟩ := Prod.mk.inj (Except.ok.inj done)
  have place : deref (vm.mms block).pgdir = .ok pgdir := place
  cases here : (vm.mms block).pgdir with
  | none =>
    rw [here] at place
    cases place
  | some own =>
    rw [here] at place
    obtain rfl := Except.ok.inj place
    exact ⟨rfl, own, rfl, rfl⟩

private theorem Holdings.Fits.goodMm (inside : block ∈ l.spaces) (shared : vm.goodMm proc block = .ok (ret, vm')) :
    Equipped l procs idle proc ret vm vm' ∧ vm'.satp = vm.satp ∧ vm'.mm proc = some block ∧ (vm.mms block).pgdir = some (vm'.pgdir proc) ∧
      vm'.mem = vm.mem := by
  obtain ⟨rfl, pgdir, place, rfl⟩ := goodMm_ok shared
  have others : ∀ {α : Type} (f : Ptr → α) (value : α) (p : Ptr), p ≠ proc → Function.update f proc value p = f p :=
    fun f value p away => Function.update_of_ne away _ _
  refine ⟨⟨⟨rfl, rfl, others vm.mm _, others vm.pgdir _, fun b _ => ?_⟩, .refl, fun impossible => absurd rfl impossible, ?_, l, ?_⟩, rfl, Function.update_self .., ?_, rfl⟩
  · dsimp only
    by_cases own : b = block
    · rw [own, Function.update_self]
    · rw [Function.update_of_ne own]
  · dsimp only
    rw [Function.update_self]
    exact fun impossible => absurd impossible (Option.some_ne_none block)
  · refine fits.join member bare (fits.housed.setMm rfl rfl (fun there => ⟨(fits.housed.kept block there).spans, (fits.housed.kept block there).cached⟩) (fits.housed.unlocked block))
      (fun b => ⟨.inr, fun either => either.elim (fun same => same ▸ inside) id⟩) rfl rfl rfl rfl rfl (others vm.pgdir _) ?_ ?_ ?_ ?_
    · dsimp only
      rw [Function.update_self, Function.update_self]
      exact place
    · dsimp only
      rw [Function.update_self, fits.count block inside]
    · intro b _ away
      dsimp only
      rw [Function.update_of_ne away]
    · intro b _
      dsimp only
      by_cases own : b = block
      · rw [own, Function.update_self]
      · rw [Function.update_of_ne own]
  · dsimp only
    rw [Function.update_self]
    exact place

/-- The address space of `proc` is a copy of that at `old`. -/
structure Twin (l : Holdings) (old : Block) (proc : Ptr) (vm vm' : Vm) : Prop where
  uses : ∃ c, vm'.mm proc = some c ∧ c ∉ l.spaces ∧ (vm'.mms c).mmapList.map Vma.range = (vm.mms old).mmapList.map Vma.range
  pages : ∀ r, (vm.mms old).pgdir = some r → Mirrors r (vm'.pgdir proc) vm.mem vm'.mem

private theorem Holdings.Fits.dupMm (inside : old ∈ l.spaces) (copied : vm.dupMm proc old = .ok (ret, vm')) :
    Equipped l procs idle proc ret vm vm' ∧ vm'.satp = vm.satp ∧ (ret = 0 → Twin l old proc vm vm') := by
  unfold Vm.dupMm at copied
  cases created : mmCreate vm.mem with
  | mk answer m₁ =>
    rw [created] at copied
    cases answer with
    | none =>
      obtain ⟨rfl, rfl⟩ := Prod.mk.inj (Except.ok.inj copied)
      obtain ⟨fits', spares⟩ := fits.uncreated created
      exact ⟨fits'.unequipped bare spares fun _ _ => rfl, rfl, fun impossible => absurd impossible (by decide)⟩
    | some block =>
      dsimp only at copied
      cases setup : setupPgdir vm.bootPgdir .fresh m₁ with
      | mk code rest =>
        obtain ⟨mm, m₂⟩ := rest
        rw [setup] at copied
        by_cases worked : code = 0
        · obtain rfl := worked
          obtain ⟨strange, c, rfl, raised, nothing⟩ := fits.annex created setup
          obtain ⟨r, root, place, within⟩ := fits.housed.root inside
          have free := fits.housed.unlocked old inside
          have locked : lockMm (vm.mms old) = .ok { vm.mms old with mmLock := true } := by
            rw [lockMm, free]
            rfl
          have unlocked : unlockMm { vm.mms old with mmLock := true } = .ok (vm.mms old) := by
            rw [unlockMm, if_pos rfl, ← free]
          split at copied
          next same =>
            obtain ⟨_, sames⟩ := Prod.mk.inj same
            obtain ⟨rfl, rfl⟩ := Prod.mk.inj sames
            rw [locked, ok_bind] at copied
            obtain ⟨⟨code, mm', m₃⟩, dup, copied⟩ := bind_ok copied
            have kept : MmStruct.Kept { vm.mms old with mmLock := true } := ⟨(fits.housed.kept old inside).spans, (fits.housed.kept old inside).cached⟩
            have source : Covered { vm.mms old with mmLock := true } r m₂ := by
              refine ⟨place, within.passes, fun v small there => within.pages v small ?_⟩
              rw [← raised.spares.target root small]
              exact there
            obtain ⟨annexed, done⟩ := raised.toAnnexed.dupMmap rfl nothing raised.unshared root source kept dup
            dsimp only at copied
            rw [unlocked, ok_bind] at copied
            have mms : ((vm.setMm old (vm.mms old)).setMm block mm') = { vm with mms := Function.update vm.mms block mm' } := by
              rw [Vm.setMm, Vm.setMm, Function.update_eq_self]
            have apart : ∀ b ∈ l.spaces, Function.update vm.mms block mm' b = vm.mms b := by
              intro b there
              rw [Function.update_of_ne]
              rintro rfl
              exact strange there
            rw [mms] at copied
            split at copied
            next worked =>
              obtain ⟨rfl, pgdir, own, rfl⟩ := goodMm_ok copied
              have placed : pgdir = c := by
                dsimp only at own
                rw [Function.update_self, annexed.covered.place] at own
                exact (Option.some.inj own).symm
              obtain rfl := placed
              dsimp only
              rw [Function.update_self, Function.update_idem]
              obtain ⟨unshared, ranges, mirrors⟩ := done worked
              refine ⟨fits.adopt member bare annexed unshared strange rfl rfl rfl rfl rfl rfl rfl, rfl, fun _ => ⟨⟨block, ?_, strange, ?_⟩, fun r' place' => ?_⟩⟩
              · exact Function.update_self ..
              · dsimp only
                rw [Function.update_self]
                exact ranges
              · obtain rfl := Option.some.inj (place.symm.trans place')
                dsimp only
                rw [Function.update_self]
                exact mirrors.behind raised.spares root
            next failed =>
              obtain ⟨m₄, more, done, fits', spares⟩ := fits.abandon annexed
              rw [done, ok_bind] at copied
              obtain ⟨rfl, rfl⟩ := Prod.mk.inj (Except.ok.inj copied)
              exact ⟨fits'.unequipped bare spares apart, rfl, fun impossible => absurd impossible failed⟩
          next mismatch same => exact absurd (Prod.mk.inj same).1.symm mismatch
        · obtain ⟨m₃, abandoned, fits', spares⟩ := fits.unset created setup worked
          split at copied
          next same =>
            exact absurd (Prod.mk.inj same).1 worked
          next same =>
            obtain ⟨_, sames⟩ := Prod.mk.inj same
            obtain ⟨rfl, rfl⟩ := Prod.mk.inj sames
            rw [abandoned] at copied
            obtain ⟨rfl, rfl⟩ := Prod.mk.inj (Except.ok.inj copied)
            exact ⟨fits'.unequipped bare spares fun _ _ => rfl, rfl, fun impossible => absurd impossible (by decide)⟩

/-- What the child has of the current process. -/
structure Inherits (l : Holdings) (flags : BitVec 32) (proc : Ptr) (vm vm' : Vm) : Prop where
  thread : vm.mm vm.current = none → vm'.mm proc = none
  shared : ∀ b, vm.mm vm.current = some b → flags &&& cloneVm ≠ 0 → vm'.mm proc = some b ∧ (vm.mms b).pgdir = some (vm'.pgdir proc) ∧ vm'.mem = vm.mem
  copied : ∀ b, vm.mm vm.current = some b → flags &&& cloneVm = 0 → Twin l b proc vm vm'

theorem Holdings.Fits.copyMm {flags : BitVec 32} (runs : vm.current ∈ procs) (copied : vm.copyMm flags proc = .ok (ret, vm')) :
    Equipped l procs idle proc ret vm vm' ∧ vm'.satp = vm.satp ∧ (ret = 0 → Inherits l flags proc vm vm') := by
  unfold Vm.copyMm at copied
  split at copied
  next none =>
    obtain ⟨rfl, rfl⟩ := Prod.mk.inj (Except.ok.inj copied)
    refine ⟨⟨.refl, .refl, fun _ => bare, fun _ => rfl, l, fits⟩, rfl, fun _ => ⟨fun _ => bare, ?_, ?_⟩⟩
    · exact fun b uses => absurd (none.symm.trans uses) (Option.some_ne_none b).symm
    · exact fun b uses => absurd (none.symm.trans uses) (Option.some_ne_none b).symm
  next old uses =>
    have inside := (fits.mine vm.current runs old uses).1
    have only : ∀ b, vm.mm vm.current = some b → b = old := fun b uses' => Option.some.inj (uses'.symm.trans uses)
    have notThread : vm.mm vm.current ≠ none := fun none => absurd (uses.symm.trans none) (Option.some_ne_none old)
    split at copied
    next share =>
      obtain ⟨equipped, satp, result⟩ := fits.goodMm member bare inside copied
      refine ⟨equipped, satp, fun _ => ⟨fun none => absurd none notThread, fun b uses' _ => ?_, fun b _ copy => absurd copy share⟩⟩
      rw [only b uses']
      exact result
    next copy =>
      obtain ⟨equipped, satp, result⟩ := fits.dupMm member bare inside copied
      refine ⟨equipped, satp, fun worked => ⟨fun none => absurd none notThread, fun b _ share => absurd share copy, fun b uses' _ => ?_⟩⟩
      rw [only b uses']
      exact result worked

end Copy

end Ucore
