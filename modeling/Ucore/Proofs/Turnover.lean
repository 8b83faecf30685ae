import Mathlib
import Ucore.Proofs.Holdings

/-! What the memory holds after a process has stored something, has dropped its address space, has loaded a program, or is reaped. -/

namespace Ucore
open Lib

variable {l : Holdings} {procs : List Ptr} {idle p proc : Ptr} {vm vm' : Vm} {b block : Block} {m m' : Mem} {satp : Frame} {addr len n : Nat} {pte : BitVec 64}
  {ret : Int} {image : Image} {order : HeaderOrder}

theorem walk_user (user : addr < userTop) :
    m.walk satp addr = if valid (m.leaf satp (addr / pgSize)) then some (m.leaf satp (addr / pgSize)) else none := by
  have low : addr < 2 ^ 31 := lt_of_lt_of_eq user rfl
  have dir : addr / pgSize / 512 / 512 = pdx1 addr := by
    unfold pdx1 pgSize
    omega
  have table : addr / pgSize / 512 % 512 = pdx0 addr := by
    unfold pdx0 pgSize
    omega
  have index : addr / pgSize % 512 = ptx addr := by
    unfold ptx pgSize
    omega
  have zero : ¬ valid 0 = true := by decide
  unfold Mem.walk
  rw [if_pos (.inl (low.trans (by decide)))]
  cases first : entry (m.word satp (pdx1 addr)) with
  | none =>
    have missing : Radix.nodeAt entry 512 m.word (.table satp (addr / pgSize / 512)) = none := by
      rw [Radix.nodeAt, dir, table, first]
      rfl
    rw [Mem.leaf, Radix.leafAt_none missing, if_neg zero]
    rfl
  | some pd0 =>
    have node : Radix.nodeAt entry 512 m.word (.table satp (addr / pgSize / 512)) = entry (m.word pd0 (pdx0 addr)) := by
      rw [Radix.nodeAt, dir, table, first]
      rfl
    show ((entry (m.word pd0 (pdx0 addr))).bind fun pt => if valid (m.word pt (ptx addr)) then some (m.word pt (ptx addr)) else none) = _
    cases second : entry (m.word pd0 (pdx0 addr)) with
    | none =>
      rw [Mem.leaf, Radix.leafAt_none (node.trans second), if_neg zero]
      rfl
    | some pt =>
      rw [Mem.leaf, Radix.leafAt_some (node.trans second), index]
      rfl

theorem walk_target (user : addr < userTop) (walked : m.walk satp addr = some pte) : m.target (satp, addr / pgSize) = some (pteFrame pte) := by
  rw [walk_user user] at walked
  split at walked
  next isValid =>
    rw [Mem.target, entry, if_pos isValid, Option.some.inj walked]
  next => cases walked

/-- The page directories `roots` map what they did, whatever is written to the pages. -/
def Mapping (roots : Finset Frame) (m m' : Mem) : Prop := ∀ r ∈ roots, ∀ v < userPages, m'.leaf r v = m.leaf r v

section Fits

variable (fits : l.Fits procs idle vm)
include fits

theorem Holdings.Fits.started (satp : vm.satp = vm.bootPgdir) : vm.Started :=
  ⟨(fits.housed.counted.other _ fits.boot).1, fits.zero, fits.housed.counted.free, satp⟩

theorem Holdings.Fits.write (member : p ∈ procs) (uses : vm.mm p = some b) (user : addr < userTop) (walked : vm.mem.walk (vm.pgdir p) addr = some pte)
    (value : BitVec 8) : l.Fits procs idle { vm with mem := vm.mem.setByte (pteFrame pte) (addr % pgSize) value } ∧
      Spares (l.roots.erase (vm.pgdir p)) l.other vm.mem (vm.mem.setByte (pteFrame pte) (addr % pgSize) value) ∧
      Mapping l.roots vm.mem (vm.mem.setByte (pteFrame pte) (addr % pgSize) value) := by
  have inside := page_of_user user
  have here := walk_target user walked
  have root := fits.root member uses
  have outside := (fits.housed.counted.mapped (pteFrame pte) ⟨vm.pgdir p, root, _, inside, here⟩).2.2.1
  obtain ⟨words, same⟩ : ∃ words, vm.mem.setByte (pteFrame pte) (addr % pgSize) value = vm.mem.setFrame (pteFrame pte) words := ⟨_, rfl⟩
  rw [same]
  have spares := fits.housed.unshared.write fits.housed.counted root inside here words
  have targets : ∀ q ∈ l.roots, ∀ w < userPages, (vm.mem.setFrame (pteFrame pte) words).target (q, w) = vm.mem.target (q, w) :=
    fun q own w within => setFrame_target outside words own within
  refine ⟨⟨⟨fits.housed.counted.setFrame outside words, ?_, ?_, fits.housed.owned, fits.housed.apart, fits.housed.kept, fits.housed.unlocked,
    fits.housed.distinct, fits.housed.blocks⟩, fits.distinct, fits.count, fits.used, fits.mine, fits.boot, ?_, fits.stack, fits.separate⟩, spares,
    fun q own w within => setFrame_leaf outside words own within⟩
  · refine fits.housed.unshared.less fun q own w within f there => ?_
    rw [targets q own w within] at there
    exact ⟨own, there⟩
  · intro b' there
    obtain ⟨r, own, covered⟩ := fits.housed.covered b' there
    refine ⟨r, own, covered.place, covered.passes, fun w within mapped => covered.pages w within ?_⟩
    rw [← targets r own w within]
    exact mapped
  · show ∀ i < 511, (vm.mem.setFrame (pteFrame pte) words).word vm.bootPgdir i = 0
    rw [spares.words _ fits.boot]
    exact fits.zero

/-- A store of the current process is seen by those only that use its address space. -/
theorem Holdings.Fits.store {value : BitVec 8} (member : vm.current ∈ procs) (satp : vm.satp = vm.pgdir vm.current)
    (bare : vm.mm vm.current = none → vm.pgdir vm.current = vm.bootPgdir) (stored : vm.store addr value = .ok vm') :
    ∃ m', vm' = { vm with mem := m' } ∧ l.Fits procs idle vm' ∧ Spares (l.roots.erase (vm.pgdir vm.current)) l.other vm.mem m' ∧
      Mapping l.roots vm.mem m' := by
  unfold Vm.store at stored
  split at stored
  next user =>
    split at stored
    next pte walked =>
      rw [satp] at walked
      split at stored
      · obtain rfl := Except.ok.inj stored
        cases uses : vm.mm vm.current with
        | none =>
          rw [bare uses, walk_zero fits.zero (user.trans (by decide))] at walked
          cases walked
        | some b =>
          exact ⟨_, rfl, fits.write member uses user walked value⟩
      · cases stored
    · cases stored
  · cases stored

/-- The kernel stores a number for the current process. -/
theorem Holdings.Fits.pokeNumber {value : Nat} (member : vm.current ∈ procs) (satp : vm.satp = vm.pgdir vm.current) (uses : vm.mm vm.current = some b)
    (user : addr + n ≤ userTop) (poked : vm.pokeNumber n addr value = .ok vm') :
    ∃ m', vm' = { vm with mem := m' } ∧ l.Fits procs idle vm' ∧ Spares (l.roots.erase (vm.pgdir vm.current)) l.other vm.mem m' ∧
      Mapping l.roots vm.mem m' := by
  induction n generalizing vm addr value with
  | zero =>
    obtain rfl := Except.ok.inj poked
    exact ⟨vm.mem, rfl, fits, .refl, fun _ _ _ _ => rfl⟩
  | succ n ih =>
    obtain ⟨vm₁, first, poked⟩ := bind_ok poked
    have below : addr < userTop := by omega
    have next : wrap (addr + 1) = addr + 1 := by
      refine Nat.mod_eq_of_lt (lt_of_le_of_lt (Nat.succ_le_of_lt below) ?_)
      decide
    obtain ⟨m₁, rfl, fits₁, spares₁, mapping₁⟩ : ∃ m₁, vm₁ = { vm with mem := m₁ } ∧ l.Fits procs idle vm₁ ∧
        Spares (l.roots.erase (vm.pgdir vm.current)) l.other vm.mem m₁ ∧ Mapping l.roots vm.mem m₁ := by
      unfold Vm.poke at first
      rw [if_neg (not_le.mpr (below.trans (by decide)))] at first
      split at first
      next pte walked =>
        rw [satp] at walked
        split at first
        · obtain rfl := Except.ok.inj first
          exact ⟨_, rfl, fits.write member uses below walked (BitVec.ofNat 8 value)⟩
        · cases first
      · cases first
    rw [next] at poked
    obtain ⟨m₂, rfl, fits₂, spares₂, mapping₂⟩ := ih fits₁ member satp uses (by omega) poked
    exact ⟨m₂, rfl, fits₂, spares₁.trans spares₂, fun r root v within => (mapping₂ r root v within).trans (mapping₁ r root v within)⟩

private theorem Holdings.Fits.leave {l' : Holdings} (member : proc ∈ procs) (uses : vm.mm proc = some b)
    (housed : Housed vm'.mms l'.spaces l'.roots l'.other (procs ++ l'.rest) vm'.mem)
    (spaces : ∀ b', b' ∈ l'.spaces ↔ b' ∈ l.spaces ∧ 0 < users procs vm'.mm b') (wider : l.other ⊆ l'.other) (boot : vm'.bootPgdir = vm.bootPgdir)
    (kstack : vm'.kstack = vm.kstack) (words : vm'.mem.word vm.bootPgdir = vm.mem.word vm.bootPgdir) (mm : vm'.mm = Function.update vm.mm proc none)
    (pgdir : vm'.pgdir = vm.pgdir) (place : ∀ b, (vm'.mms b).pgdir = (vm.mms b).pgdir) (count : (vm'.mms b).mmCount = (vm.mms b).mmCount - 1)
    (same : ∀ b', b' ≠ b → (vm'.mms b').mmCount = (vm.mms b').mmCount) : l'.Fits procs idle vm' := by
  have stack : ∀ p, vm'.stack p = vm.stack p := by
    intro p
    rw [Vm.stack, kstack]
    rfl
  refine ⟨housed, fits.distinct, ?_, fun b' there => ((spaces b').mp there).2, ?_, ?_, ?_, ?_, ?_⟩
  · intro b' there
    have update : users procs (Function.update vm.mm proc none) b' + (if vm.mm proc = some b' then 1 else 0) = users procs vm.mm b' + 0 :=
      users_update fits.distinct member
    have before := fits.count b' ((spaces b').mp there).1
    rw [uses, add_zero] at update
    rw [mm]
    by_cases own : b' = b
    · rw [own, if_pos rfl] at update
      rw [own] at before ⊢
      rw [count, before]
      omega
    · rw [if_neg fun impossible => own (Option.some.inj impossible).symm, add_zero] at update
      rw [same b' own, before, update]
  · intro p member' b' uses'
    have here := uses'
    rw [mm] at here
    by_cases own : p = proc
    · rw [own, Function.update_self] at here
      cases here
    · rw [Function.update_of_ne own] at here
      obtain ⟨inside, there⟩ := fits.mine p member' b' here
      rw [pgdir, place]
      exact ⟨(spaces b').mpr ⟨inside, users_pos member' uses'⟩, there⟩
  · rw [boot]
    exact wider fits.boot
  · rw [boot, words]
    exact fits.zero
  · intro p member notIdle
    rw [stack, boot]
    exact ⟨(fits.stack p member notIdle).1.trans wider, (fits.stack p member notIdle).2⟩
  · intro p member q member' notIdle notIdle' apart
    rw [stack, stack]
    exact fits.separate p member q member' notIdle notIdle' apart

omit fits in
/-- The current process has no address space any more. -/
structure Vacated (l : Holdings) (procs : List Ptr) (idle : Ptr) (vm vm' : Vm) : Prop where
  elsewhere : Vm.Elsewhere l.spaces vm.current vm vm'
  gone : vm'.mm vm.current = none
  pgdir : vm'.pgdir = vm.pgdir
  satp : vm'.satp = if (vm.mm vm.current).isSome then vm.bootPgdir else vm.satp
  spares : Spares (l.roots.erase (vm.pgdir vm.current)) l.other vm.mem vm'.mem
  last : ∀ b, vm.mm vm.current = some b → users procs vm.mm b = 1 → vm.pgdir vm.current ∉ vm'.mem.used ∧
    (∀ v < userPages, ∀ f, vm.mem.target (vm.pgdir vm.current, v) = some f → f ∉ vm'.mem.used) ∧ vm.mem.blocks.Perm ((vm.mms b).heap b ++ vm'.mem.blocks)
  others : ∀ b, vm.mm vm.current = some b → users procs vm.mm b ≠ 1 → vm'.mem = vm.mem ∧ (vm'.mms b).mmCount = (vm.mms b).mmCount - 1
  fits : ∃ l' : Holdings, l'.Fits procs idle vm'

theorem Holdings.Fits.dropMm (member : vm.current ∈ procs) : ∃ vm', vm.dropMm = .ok vm' ∧ Vacated l procs idle vm vm' := by
  unfold Vm.dropMm
  cases uses : vm.mm vm.current with
  | none =>
    have nothing : ∀ {b : Block}, vm.mm vm.current ≠ some b := by
      intro b impossible
      cases uses.symm.trans impossible
    exact ⟨vm, rfl, .refl, uses, rfl, by rw [uses]; rfl, .refl, fun b impossible => absurd impossible nothing,
      fun b impossible => absurd impossible nothing, l, fits⟩
  | some block =>
    obtain ⟨inside, place⟩ := fits.mine vm.current member block uses
    have count := fits.count block inside
    have leaves : ∀ b', users procs (Function.update vm.mm vm.current none) b' + (if vm.mm vm.current = some b' then 1 else 0) = users procs vm.mm b' + 0 :=
      fun b' => users_update fits.distinct member
    have own := leaves block
    rw [uses, if_pos rfl, add_zero] at own
    have others : ∀ b', b' ≠ block → users procs (Function.update vm.mm vm.current none) b' = users procs vm.mm b' := by
      intro b' away
      have update := leaves b'
      rw [uses, if_neg fun impossible => away (Option.some.inj impossible).symm] at update
      exact update
    have fields : ∀ {α : Type} (f : MmStruct → α) (mm : MmStruct), f mm = f (vm.mms block) → ∀ b', f (Function.update vm.mms block mm b') = f (vm.mms b') := by
      intro α f mm same b'
      by_cases here : b' = block
      · rw [here, Function.update_self, same]
      · rw [Function.update_of_ne here]
    have elsewhere : ∀ (satp : Frame) (mem : Mem) (count : Int), Vm.Elsewhere l.spaces vm.current vm { vm with
        satp := satp
        mem := mem
        mms := Function.update vm.mms block { vm.mms block with mmCount := count }
        mm := Function.update vm.mm vm.current none } := by
      intro satp mem count
      refine ⟨rfl, rfl, fun p away => Function.update_of_ne away _ _, fun _ _ => rfl, fun b _ => fields MmStruct.mmapList _ ?_ b⟩
      rfl
    by_cases last : (vm.mms block).mmCount - 1 = 0
    · have list : MmStruct.mmapList { vm.mms block with mmCount := (vm.mms block).mmCount - 1 } = (vm.mms block).mmapList := rfl
      have origin : MmStruct.pgdir { vm.mms block with mmCount := (vm.mms block).mmCount - 1 } = (vm.mms block).pgdir := rfl
      obtain ⟨r, m', more, here, root, done, housed, wider, spares, unused, freed, blocks⟩ := fits.housed.drop inside last list origin
      obtain rfl : vm.pgdir vm.current = r := Option.some.inj (place.symm.trans here)
      have released : onlyIf ((vm.mms block).mmCount - 1 = 0) (Ucore.tearDown block { vm.mms block with mmCount := (vm.mms block).mmCount - 1 }) vm.mem =
          .ok m' := by
        rw [onlyIf, if_pos last]
        exact done
      dsimp only
      rw [released, ok_bind]
      refine ⟨_, rfl, elsewhere _ _ _, Function.update_self .., rfl, by rw [uses]; rfl, spares, ?_, ?_, ⟨l.spaces.erase block, l.roots.erase (vm.pgdir vm.current), more, l.rest⟩, ?_⟩
      · intro b uses' _
        obtain rfl := Option.some.inj (uses.symm.trans uses')
        exact ⟨unused, freed, blocks⟩
      · intro b uses' several
        obtain rfl := Option.some.inj (uses.symm.trans uses')
        omega
      refine fits.leave member uses (housed.setMm rfl rfl ?_ ?_) ?_ wider rfl rfl (spares.words _ fits.boot) rfl rfl (fields MmStruct.pgdir _ ?_) ?_ ?_
      · exact fun impossible => absurd impossible fits.housed.distinct.not_mem_erase
      · exact fun impossible => absurd impossible fits.housed.distinct.not_mem_erase
      · intro b'
        dsimp only
        rw [fits.housed.distinct.mem_erase_iff]
        constructor
        · rintro ⟨away, there⟩
          rw [others b' away]
          exact ⟨there, fits.used b' there⟩
        · rintro ⟨there, positive⟩
          refine ⟨?_, there⟩
          rintro rfl
          omega
      · rfl
      · dsimp only [Vm.setMm]
        rw [Function.update_self]
      · intro b' away
        dsimp only [Vm.setMm]
        rw [Function.update_of_ne away]
    · have kept : onlyIf ((vm.mms block).mmCount - 1 = 0) (Ucore.tearDown block { vm.mms block with mmCount := (vm.mms block).mmCount - 1 }) vm.mem =
          .ok vm.mem := by
        rw [onlyIf, if_neg last]
      dsimp only
      rw [kept, ok_bind]
      refine ⟨_, rfl, elsewhere _ _ _, Function.update_self .., rfl, by rw [uses]; rfl, .refl, ?_, ?_, l, ?_⟩
      · intro b uses' single
        obtain rfl := Option.some.inj (uses.symm.trans uses')
        omega
      · intro b uses' _
        obtain rfl := Option.some.inj (uses.symm.trans uses')
        refine ⟨rfl, ?_⟩
        dsimp only [Vm.setMm]
        rw [Function.update_self]
      refine fits.leave member uses (fits.housed.setMm rfl rfl ?_ (fits.housed.unlocked block)) ?_ subset_rfl rfl rfl rfl rfl rfl
        (fields MmStruct.pgdir _ ?_) ?_ ?_
      · exact fun there => ⟨(fits.housed.kept block there).spans, (fits.housed.kept block there).cached⟩
      · intro b'
        dsimp only
        refine ⟨fun there => ⟨there, ?_⟩, And.left⟩
        by_cases here : b' = block
        · rw [here]
          omega
        · rw [others b' here]
          exact fits.used b' there
      · rfl
      · dsimp only [Vm.setMm]
        rw [Function.update_self]
      · intro b' away
        dsimp only [Vm.setMm]
        rw [Function.update_of_ne away]

theorem Holdings.Fits.reap (member : proc ∈ procs) (away : proc ≠ idle) (bare : vm.mm proc = none) :
    ∃ m₁ m' more, vm.putKstack proc = .ok { vm with mem := m₁ } ∧ Spaces.kfreeProc proc { vm with mem := m₁ } = .ok { vm with mem := m' } ∧
      Holdings.Fits ⟨l.spaces, l.roots, more, l.rest⟩ (procs.erase proc) idle { vm with mem := m' } ∧ Spares l.roots l.other vm.mem m' ∧
      (∀ f ∈ vm.stack proc, f ∉ m'.used) ∧ vm.mem.blocks.Perm (proc :: m'.blocks) := by
  obtain ⟨m₁, freed, counted₁, word₁, heap₁⟩ := fits.housed.counted.freePages fun f inside => (fits.stack proc member away).1 inside
  have spares₁ : Spares l.roots l.other vm.mem m₁ := .sameWord word₁
  have blocks₁ : m₁.blocks.Perm ((l.spaces.flatMap fun b => (vm.mms b).heap b) ++ (procs ++ l.rest)) := by
    rw [heap₁.1]
    exact fits.housed.blocks
  have housed₁ := fits.housed.keep counted₁ spares₁ blocks₁
  obtain ⟨m₂, freed₂, housed₂, only₂⟩ := housed₁.kfree (List.mem_append_left l.rest member)
  rw [List.erase_append_left l.rest member] at housed₂
  have spares : Spares l.roots l.other vm.mem m₂ := spares₁.trans (.heapOnly only₂)
  have less : ∀ p ∈ procs.erase proc, p ∈ procs ∧ p ≠ proc := by
    intro p inside
    obtain ⟨apart, old⟩ := fits.distinct.mem_erase_iff.mp inside
    exact ⟨old, apart⟩
  refine ⟨m₁, m₂, l.other \ vm.stack proc, ?_, ?_, ⟨housed₂, fits.distinct.erase proc, ?_, ?_, ?_, ?_, ?_, ?_, ?_⟩, spares, ?_, ?_⟩
  · rw [Vm.putKstack, freed, ok_bind]
  · rw [Spaces.kfreeProc, freed₂, ok_bind]
  · intro b inside
    dsimp only
    rw [users_erase member bare]
    exact fits.count b inside
  · intro b inside
    dsimp only
    rw [users_erase member bare]
    exact fits.used b inside
  · exact fun p inside => fits.mine p (less p inside).1
  · exact ⟨fits.boot, (fits.stack proc member away).2⟩
  · show ∀ i < 511, m₂.word vm.bootPgdir i = 0
    rw [spares.words _ fits.boot]
    exact fits.zero
  · intro p inside notIdle
    obtain ⟨old, apart⟩ := less p inside
    refine ⟨fun f there => ⟨(fits.stack p old notIdle).1 there, fun also => ?_⟩, (fits.stack p old notIdle).2⟩
    exact Set.disjoint_left.mp (fits.separate p old proc member notIdle away apart) there also
  · exact fun p inside q inside' => fits.separate p (less p inside).1 q (less q inside').1
  · intro f inStack inUse
    have inOther := (fits.stack proc member away).1 inStack
    have words : m₂.word = vm.mem.word := by rw [only₂, word₁]
    rcases housed₂.counted.classes f inUse with table | mapped | inHeld | left
    · rw [Mem.IsTable, words] at table
      exact (fits.housed.counted.other f inOther).2 table
    · obtain ⟨r, root, v, inside, here⟩ := mapped
      rw [spares.target root inside] at here
      exact (fits.housed.counted.mapped f ⟨r, root, v, inside, here⟩).2.2.2.2 inOther
    · exact inHeld
    · exact left.2 inStack
  · have first := (List.perm_cons_erase member).append_right l.rest
    exact (fits.housed.blocks.trans ((first.append_left _).trans List.perm_middle)).trans (housed₂.blocks.symm.cons proc)

omit fits in
theorem tearDown_bare {mm : MmStruct} (list : mm.mmapList = []) (done : tearDown b mm m = .ok m') :
    ∃ m₁, putPgdir mm m = .ok m₁ ∧ mm.mmDestroy b m₁ = .ok m' := by
  obtain ⟨m₁, exited, rest⟩ := bind_ok done
  obtain ⟨m₂, put, destroyed⟩ := bind_ok rest
  obtain ⟨_, _, unmapped⟩ := bind_ok exited
  rw [list] at unmapped
  obtain rfl := Except.ok.inj unmapped
  exact ⟨m₂, put, destroyed⟩

private theorem Holdings.Fits.refuseElf {mm : MmStruct} {c : Frame} (bare : vm.mm vm.current = none)
    (raised : Raised l.roots l.other (l.beside procs vm) block mm c vm.mem m) (list : mm.mmapList = [])
    (loaded : Vm.refuseElf block mm { vm with mem := m } = .ok (ret, vm')) :
    Equipped l procs idle vm.current ret vm vm' ∧ (ret = 0 → (vm'.mm vm.current).isSome ∧ vm'.satp = vm'.pgdir vm.current) ∧
      (ret ≠ 0 → vm'.satp = vm.satp) := by
  obtain ⟨m', more, done, fits', spares⟩ := fits.abandon raised.toAnnexed
  obtain ⟨m₁, put, destroyed⟩ := tearDown_bare list done
  rw [Vm.refuseElf, put, ok_bind, Vm.abandonMm, destroyed] at loaded
  obtain ⟨rfl, rfl⟩ := Prod.mk.inj (Except.ok.inj loaded)
  exact ⟨fits'.unequipped bare spares fun _ _ => rfl, fun impossible => absurd impossible (by decide), fun _ => rfl⟩

omit fits in
private theorem Raised.loadOrderly {roots : Finset Frame} {other : Set Frame} {beside : List Block} {mm mm' : MmStruct} {m₀ : Mem} {c : Frame} {phoff : Nat}
    (orderly : image.Orderly) (kernel : satp ∈ other) (zero : ∀ i < 511, m₀.word satp i = 0) (list : mm.mmapList = [])
    (read : image.ePhoff satp m₀ = .ok phoff) (raised : Raised roots other beside block mm c m₀ m)
    (loaded : Ucore.loadImage image satp phoff c mm m = .ok (ret, mm', m')) : Raised roots other beside block mm' c m₀ m' := by
  have empty : ∀ i < 511, m.word satp i = 0 := by
    rw [raised.spares.words satp kernel]
    exact zero
  obtain ⟨phnum, counted, _⟩ := bind_ok loaded
  have counted := (number_bare zero empty 56 2).trans counted
  have fills := raised.fillImage kernel zero (orderly.suits zero read counted) (fun _ _ => .unbarred _)
    (fun n same => Except.ok.inj (same.symm.trans counted)) list
  exact (fills.post _ loaded).1

private theorem Holdings.Fits.loadElf {mm : MmStruct} {c : Frame} {phoff : Nat} (member : vm.current ∈ procs) (bare : vm.mm vm.current = none)
    (satp : vm.satp = vm.bootPgdir) (orderly : image.Orderly) (raised : Raised l.roots l.other (l.beside procs vm) block mm c vm.mem m)
    (list : mm.mmapList = []) (strange : block ∉ l.spaces) (read : image.ePhoff vm.satp m = .ok phoff)
    (loaded : Vm.loadElf image phoff c block mm { vm with mem := m } = .ok (ret, vm')) :
    Equipped l procs idle vm.current ret vm vm' ∧ (ret = 0 → (vm'.mm vm.current).isSome ∧ vm'.satp = vm'.pgdir vm.current) ∧
      (ret ≠ 0 → vm'.satp = vm.satp) := by
  have kernel : vm.satp ∈ l.other := by
    rw [satp]
    exact fits.boot
  have zero : ∀ i < 511, vm.mem.word vm.satp i = 0 := by
    rw [satp]
    exact fits.zero
  have empty : ∀ i < 511, m.word vm.satp i = 0 := by
    rw [raised.spares.words _ kernel]
    exact zero
  obtain ⟨⟨code, mm', m₁⟩, built, loaded⟩ := bind_ok loaded
  have raised' := raised.loadOrderly orderly kernel zero list ((number_bare zero empty 32 8).trans read) built
  dsimp only at loaded
  split at loaded
  next worked =>
    obtain ⟨pgdir', place, adopted⟩ := bind_ok loaded
    rw [raised'.covered.place] at place
    obtain rfl : c = pgdir' := Except.ok.inj place
    obtain ⟨entry, _, finished⟩ := bind_ok adopted
    obtain ⟨rfl, rfl⟩ := Prod.mk.inj (Except.ok.inj finished)
    refine ⟨fits.adopt member bare raised'.toAnnexed raised'.unshared strange rfl rfl rfl rfl rfl rfl rfl, fun _ => ⟨?_, ?_⟩, fun impossible => absurd rfl impossible⟩
    · dsimp only
      rw [Function.update_self]
      rfl
    · dsimp only
      rw [Function.update_self]
  next failed =>
    obtain ⟨m', more, done, fits', spares⟩ := fits.abandon raised'.toAnnexed
    rw [done, ok_bind] at loaded
    obtain ⟨rfl, rfl⟩ := Prod.mk.inj (Except.ok.inj loaded)
    exact ⟨fits'.unequipped bare spares fun _ _ => rfl, fun impossible => absurd impossible failed, fun _ => rfl⟩

private theorem Holdings.Fits.loadInto {mm : MmStruct} {c : Frame} (member : vm.current ∈ procs) (bare : vm.mm vm.current = none)
    (satp : vm.satp = vm.bootPgdir) (orderly : image.Orderly) (raised : Raised l.roots l.other (l.beside procs vm) block mm c vm.mem m)
    (list : mm.mmapList = []) (strange : block ∉ l.spaces) (loaded : Vm.loadInto order image block mm { vm with mem := m } = .ok (ret, vm')) :
    Equipped l procs idle vm.current ret vm vm' ∧ (ret = 0 → (vm'.mm vm.current).isSome ∧ vm'.satp = vm'.pgdir vm.current) ∧
      (ret ≠ 0 → vm'.satp = vm.satp) := by
  obtain ⟨pgdir, place, started⟩ := bind_ok loaded
  rw [raised.covered.place] at place
  obtain rfl : c = pgdir := Except.ok.inj place
  cases order with
  | phoffFirst =>
    obtain ⟨phoff, read, loaded⟩ := bind_ok started
    obtain ⟨magic, _, loaded⟩ := bind_ok loaded
    split at loaded
    · exact fits.refuseElf bare raised list loaded
    · exact fits.loadElf member bare satp orderly raised list strange read loaded
  | magicFirst =>
    obtain ⟨magic, _, loaded⟩ := bind_ok started
    split at loaded
    · exact fits.refuseElf bare raised list loaded
    · obtain ⟨phoff, read, loaded⟩ := bind_ok loaded
      exact fits.loadElf member bare satp orderly raised list strange read loaded

/-- `load_icode` for a process that has dropped its address space. -/
theorem Holdings.Fits.loadIcode {size : Nat} (member : vm.current ∈ procs) (bare : vm.mm vm.current = none) (satp : vm.satp = vm.bootPgdir)
    (orderly : image.Orderly) (loaded : vm.loadIcode order image size = .ok (ret, vm')) :
    Equipped l procs idle vm.current ret vm vm' ∧ (ret = 0 → (vm'.mm vm.current).isSome ∧ vm'.satp = vm'.pgdir vm.current) ∧
      (ret ≠ 0 → vm'.satp = vm.satp) := by
  unfold Vm.loadIcode at loaded
  rw [bare] at loaded
  rw [if_neg (by decide)] at loaded
  cases created : mmCreate vm.mem with
  | mk answer m₁ =>
    rw [created] at loaded
    cases answer with
    | none =>
      obtain ⟨rfl, rfl⟩ := Prod.mk.inj (Except.ok.inj loaded)
      obtain ⟨fits', spares⟩ := fits.uncreated created
      exact ⟨fits'.unequipped bare spares fun _ _ => rfl, fun impossible => absurd impossible (by decide), fun _ => rfl⟩
    | some block =>
      dsimp only at loaded
      cases setup : setupPgdir vm.bootPgdir .fresh m₁ with
      | mk code rest =>
        obtain ⟨mm, m₂⟩ := rest
        rw [setup] at loaded
        by_cases worked : code = 0
        · obtain rfl := worked
          obtain ⟨strange, c, rfl, raised, _⟩ := fits.annex created setup
          split at loaded
          next same =>
            obtain ⟨_, sames⟩ := Prod.mk.inj same
            obtain ⟨rfl, rfl⟩ := Prod.mk.inj sames
            exact fits.loadInto member bare satp orderly raised rfl strange loaded
          next mismatch same => exact absurd (Prod.mk.inj same).1.symm mismatch
        · obtain ⟨m₃, abandoned, fits', spares⟩ := fits.unset created setup worked
          split at loaded
          next same =>
            exact absurd (Prod.mk.inj same).1 worked
          next same =>
            obtain ⟨_, sames⟩ := Prod.mk.inj same
            obtain ⟨rfl, rfl⟩ := Prod.mk.inj sames
            rw [abandoned] at loaded
            obtain ⟨rfl, rfl⟩ := Prod.mk.inj (Except.ok.inj loaded)
            exact ⟨fits'.unequipped bare spares fun _ _ => rfl, fun impossible => absurd impossible (by decide), fun _ => rfl⟩

end Fits

end Ucore
