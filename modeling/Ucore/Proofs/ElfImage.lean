import Mathlib
import Ucore.Proofs.Separation

/-! `load_icode` builds the address space that the file describes: the segments, the stack and the registers that the program starts with. -/

namespace Ucore
open Lib

/-- `header` is one of the program headers of the file, and is `PT_LOAD`. -/
def Image.Loads (image : Image) (satp : Frame) (m : Mem) (header : ProgHdr) : Prop :=
  ∃ phoff phnum index, image.ePhoff satp m = .ok phoff ∧ image.ePhnum satp m = .ok phnum ∧ index < phnum ∧
    image.proghdr satp m (phoff + index * proghdrSize) = .ok (some header)

/-- The program headers and the bytes of the segments are in the file, and no segment ends above 2^64. -/
structure Image.Loadable (image : Image) (satp : Frame) (m : Mem) (size : Nat) : Prop where
  whole : image.bytes.length = size
  word : image.binary + size < 2 ^ 64
  table : ∀ phoff phnum, image.ePhoff satp m = .ok phoff → image.ePhnum satp m = .ok phnum → phoff + phnum * proghdrSize ≤ size
  segment : ∀ header, image.Loads satp m header → header.pOffset + header.pFilesz ≤ size ∧ header.pVa + header.pMemsz < 2 ^ 64

/-- The entry gives the user what the flags of the segment say, and lets the user read what can be written. -/
structure ProgHdr.Grants (header : ProgHdr) (pte : BitVec 64) : Prop where
  user : pte &&& pteU ≠ 0
  read : pte &&& pteR ≠ 0 ↔ header.pFlags &&& elfPfR ≠ 0 ∨ header.pFlags &&& elfPfW ≠ 0
  write : pte &&& pteW ≠ 0 ↔ header.pFlags &&& elfPfW ≠ 0
  exec : pte &&& pteX ≠ 0 ↔ header.pFlags &&& elfPfX ≠ 0

/-- What the program finds when it starts in `vm'`. -/
structure Image.Runs (image : Image) (vm vm' : Vm) : Prop where
  segment : ∀ header, image.Loads vm.satp vm.mem header → ∀ i < header.pMemsz,
    (∃ pte, vm'.mem.walk (vm'.pgdir vm'.current) (header.pVa + i) = some pte ∧ header.Grants pte) ∧
      vm'.load vm'.current (header.pVa + i) = if i < header.pFilesz then image.bytes[header.pOffset + i]? else some 0
  stack : ∃ block, vm'.mm vm'.current = some block ∧ ∃ vma ∈ (vm'.mms block).mmapList, vma.vmStart = ustackTop - ustackSize ∧ vma.vmEnd = ustackTop
  sp : (vm'.tf vm'.current).gpr gprSp = BitVec.ofNat 64 ustackTop
  epc : ∃ entry, image.eEntry vm.satp vm.mem = .ok entry ∧ (vm'.tf vm'.current).epc = BitVec.ofNat 64 entry
  spp : (vm'.tf vm'.current).status &&& sstatusSpp = 0
  spie : (vm'.tf vm'.current).status &&& sstatusSpie ≠ 0

/-- What loading never comes to: a loop that does not end, and the assertion in front of BSS. -/
def Halt.Barred (halt : Halt) : Prop :=
  halt = .diverge ∨ halt = .assertion "(end < la && start == end) || (end >= la && start == la)"

/-- No halt that is `bad` comes from reading the file, if the page directory of the kernel is in `satp`. -/
structure Image.Admits (image : Image) (bad : Halt → Prop) (satp : Frame) (m₀ : Mem) : Prop where
  field : ∀ offset n, offset + n ≤ 64 → ∀ m : Mem, (∀ i < 511, m.word satp i = 0) → Ensures bad (image.number satp m offset n) fun _ => True
  entry : ∀ (c : Frame) (m : Mem), Ensures bad (image.eEntry c m) fun _ => True
  suits : image.eMagic satp m₀ = .ok elfMagic → ∀ phoff phnum, image.ePhoff satp m₀ = .ok phoff → image.ePhnum satp m₀ = .ok phnum →
    image.Suits bad satp m₀ phoff phnum

/-- What there is in `vm'` after `load_icode` has returned zero. -/
structure Image.Built (image : Image) (vm vm' : Vm) : Prop where
  magic : image.eMagic vm.satp vm.mem = .ok elfMagic
  areas : ∃ phoff phnum last block, image.ePhoff vm.satp vm.mem = .ok phoff ∧ image.ePhnum vm.satp vm.mem = .ok phnum ∧ last ≤ phnum ∧
    (image.binary + phoff + phnum * proghdrSize < 2 ^ 64 → last = phnum) ∧ vm'.mm vm'.current = some block ∧
    image.Stands vm.satp vm.mem phoff last (vm'.mms block).mmapList (vm'.pgdir vm'.current) vm'.mem
  frame : ∃ entry, image.eEntry (vm'.pgdir vm'.current) vm'.mem = .ok entry ∧ vm'.tf vm'.current = Vm.enterUser entry (vm.tf vm.current)

variable {roots : Finset Frame} {other : Set Frame} {beside : List Block} {block : Block} {mm mm' : MmStruct} {m m₀ m₁ mₛ : Mem} {c page satp : Frame}
  {image : Image} {header : ProgHdr} {size addr len index phoff phnum : Nat} {pte : BitVec 64} {vm vm' : Vm} {order : HeaderOrder} {bad : Halt → Prop}

section Load

variable (kernel : vm.satp ∈ other) (zero : ∀ i < 511, vm.mem.word vm.satp i = 0) (admits : image.Admits bad vm.satp vm.mem)
  (alone : vm.mm vm.current = none) (list : mm.mmapList = []) (raised : Raised roots other beside block mm c vm.mem m)
include kernel zero admits alone list raised

private theorem Raised.buildElf (magic : image.eMagic vm.satp vm.mem = .ok elfMagic) (read : image.ePhoff vm.satp vm.mem = .ok phoff) :
    Ensures bad (Vm.loadElf image phoff c block mm { vm with mem := m }) fun answer =>
      answer.1 ≤ 0 ∧ (answer.1 ≠ 0 → answer.2.mm answer.2.current = none) ∧ (answer.1 = 0 → image.Built vm answer.2) := by
  have fields : ∀ offset n, offset + n ≤ 64 → Ensures bad (image.number vm.satp vm.mem offset n) fun _ => True :=
    fun offset n inside => admits.field offset n inside vm.mem zero
  have empty : ∀ i < 511, m.word vm.satp i = 0 := by
    rw [raised.spares.words vm.satp kernel]
    exact zero
  cases counted : image.ePhnum vm.satp vm.mem with
  | error halt =>
    have counted' : image.ePhnum vm.satp m = .error halt := (number_bare empty zero 56 2).trans counted
    unfold Vm.loadElf loadImage
    dsimp only
    rw [counted', error_bind, error_bind]
    exact .error ((fields 56 2 (by decide)).safe halt counted)
  | ok phnum =>
    have suits := admits.suits magic phoff phnum read counted
    have counts : ∀ m : Mem, (∀ i < 511, m.word vm.satp i = 0) → Ensures bad (image.ePhnum vm.satp m) fun _ => True :=
      fun m => admits.field 56 2 (by decide) m
    unfold Vm.loadElf
    refine (raised.fillImage kernel zero suits counts (fun n same => Except.ok.inj (same.symm.trans counted)) list).bind fun answer filled => ?_
    obtain ⟨ret, mm', m'⟩ := answer
    obtain ⟨raised', sign, shown⟩ := filled
    dsimp only at raised' sign shown ⊢
    split
    next worked =>
      obtain ⟨last, most, stands, all⟩ := shown worked
      unfold Vm.adoptMm
      dsimp only
      rw [raised'.covered.place, deref, ok_bind]
      refine (admits.entry c m').result.bind fun entry seen => .ok ⟨le_rfl, fun impossible => absurd rfl impossible, fun _ => ⟨magic, ?_, entry, ?_, ?_⟩⟩
      · refine ⟨phoff, phnum, last, block, read, counted, most, all, Function.update_self .., ?_⟩
        dsimp only [Vm.setMm]
        rw [Function.update_self, Function.update_self]
        exact stands
      · dsimp only [Vm.setMm]
        rw [Function.update_self]
        exact seen.2
      · exact Function.update_self ..
    next failed =>
      obtain ⟨m₁, _, done, _⟩ := raised'.toAnnexed.tearDown
      rw [done, ok_bind]
      exact .ok ⟨sign, fun _ => alone, fun worked => absurd worked failed⟩

private theorem Raised.buildInto :
    Ensures bad (Vm.loadInto order image block mm { vm with mem := m }) fun answer =>
      answer.1 ≤ 0 ∧ (answer.1 ≠ 0 → answer.2.mm answer.2.current = none) ∧ (answer.1 = 0 → image.Built vm answer.2) := by
  have empty : ∀ i < 511, m.word vm.satp i = 0 := by
    rw [raised.spares.words vm.satp kernel]
    exact zero
  have refused : Ensures bad (Vm.refuseElf block mm { vm with mem := m }) fun answer =>
      answer.1 ≤ 0 ∧ (answer.1 ≠ 0 → answer.2.mm answer.2.current = none) ∧ (answer.1 = 0 → image.Built vm answer.2) := by
    obtain ⟨m', _, done, _⟩ := raised.toAnnexed.tearDown
    obtain ⟨m₁, put, destroyed⟩ := tearDown_bare list done
    rw [Vm.refuseElf, put, ok_bind, Vm.abandonMm, destroyed]
    refine .ok ⟨show -eInvalElf ≤ 0 by decide, fun _ => alone, fun impossible => ?_⟩
    exact absurd (show -eInvalElf = 0 from impossible) (by decide)
  have phoffs : Ensures bad (image.ePhoff vm.satp m) fun _ => True := admits.field 32 8 (by decide) m empty
  have magics : Ensures bad (image.eMagic vm.satp m) fun _ => True := admits.field 0 4 (by decide) m empty
  have same : ∀ {magic}, image.eMagic vm.satp m = .ok magic → ¬ magic ≠ elfMagic → image.eMagic vm.satp vm.mem = .ok elfMagic := by
    intro magic seen right
    rw [not_not.mp right] at seen
    exact (number_bare zero empty 0 4).trans seen
  unfold Vm.loadInto
  rw [raised.covered.place, deref, ok_bind]
  cases order with
  | phoffFirst =>
    refine phoffs.result.bind fun phoff seen => magics.result.bind fun magic first => ?_
    split
    · exact refused
    next right => exact raised.buildElf kernel zero admits alone list (same first.2 right) ((number_bare zero empty 32 8).trans seen.2)
  | magicFirst =>
    refine magics.result.bind fun magic first => ?_
    split
    · exact refused
    next right =>
      refine phoffs.result.bind fun phoff seen => ?_
      exact raised.buildElf kernel zero admits alone list (same first.2 right) ((number_bare zero empty 32 8).trans seen.2)

end Load

/-- Whatever the file holds, `load_icode` returns zero with the areas that it describes, or an error and no address space. -/
theorem loadIcode_ensures (started : vm.Started) (alone : vm.mm vm.current = none) (admits : image.Admits bad vm.satp vm.mem) :
    Ensures bad (vm.loadIcode order image size) fun answer =>
      answer.1 ≤ 0 ∧ (answer.1 ≠ 0 → answer.2.mm answer.2.current = none) ∧ (answer.1 = 0 → image.Built vm answer.2) := by
  have short : -eNoMem ≤ 0 ∧ -eNoMem ≠ 0 := by decide
  have free : ¬ (none : Option Block).isSome = true := Bool.false_ne_true
  unfold Vm.loadIcode
  rw [alone, if_neg free]
  cases created : mmCreate vm.mem with
  | mk answer m₁ =>
    cases answer with
    | none => exact .ok ⟨short.1, fun _ => alone, fun impossible => absurd impossible short.2⟩
    | some block =>
      cases setup : setupPgdir vm.bootPgdir .fresh m₁ with
      | mk code rest =>
        obtain ⟨mm, m₂⟩ := rest
        have idle : MmStruct.fresh.mmCount = 0 := rfl
        dsimp only
        rw [setup]
        split
        next same =>
          obtain ⟨rfl, sames⟩ := Prod.mk.inj same
          obtain ⟨rfl, rfl⟩ := Prod.mk.inj sames
          have bootZero : ∀ i < top, vm.mem.word vm.bootPgdir i = 0 := fun i low => started.zero i (low.trans (by decide))
          obtain ⟨c, rfl, annexed, bare⟩ := (Spaces.counted_boot started.free).annex (.refl _) bootZero created setup
          have raised : Raised ∅ {f | f ∈ vm.mem.used} vm.mem.blocks block { MmStruct.fresh with pgdir := some c } c vm.mem _ :=
            ⟨annexed, annexed.unshared bare fun r root => absurd root (Finset.notMem_empty r)⟩
          refine raised.buildInto ?_ ?_ admits alone rfl
          · rw [started.satp]
            exact started.inUse
          · rw [started.satp]
            exact started.zero
        next mismatch same =>
          obtain ⟨rfl, sames⟩ := Prod.mk.inj same
          obtain ⟨rfl, rfl⟩ := Prod.mk.inj sames
          have failed : code ≠ 0 := mismatch
          obtain ⟨rfl, asked⟩ := setupPgdir_failed setup failed
          have blocks : m₂.blocks.Perm (MmStruct.fresh.heap block ++ vm.mem.blocks) := by
            rw [allocPage_none asked]
            exact (kmalloc_some created).2 ▸ .refl _
          obtain ⟨m', destroyed, _⟩ := mmDestroy_perm idle blocks
          rw [Vm.abandonMm, destroyed, ok_bind]
          exact .ok ⟨short.1, fun _ => alone, fun impossible => absurd impossible short.2⟩

theorem ProgHdr.grants (header : ProgHdr) (page : Frame) : header.Grants (pteCreate page (1 ||| header.perm)) := by
  have low := pteCreate_low page header.perm_flags
  have part : ∀ bit : BitVec 64, 0x3FF &&& bit = bit → pteCreate page (1 ||| header.perm) &&& bit = (pteV ||| header.perm.setWidth 64) &&& bit := by
    intro bit inside
    rw [← low, BitVec.and_assoc, inside]
  constructor
  all_goals
    rw [part _ (by decide)]
    unfold ProgHdr.perm ProgHdr.vmFlags
    by_cases x : header.pFlags &&& elfPfX = 0 <;> by_cases w : header.pFlags &&& elfPfW = 0 <;> by_cases r : header.pFlags &&& elfPfR = 0
    all_goals
      simp only [ne_eq, x, w, r, not_true_eq_false, not_false_eq_true, if_true, if_false]
      decide

theorem byte_window (window : kernWindow ≤ image.binary) (word : image.binary + index < 2 ^ 64) (satp : Frame) (m : Mem) :
    image.byte satp m index = deref image.bytes[index]? := by
  have high : kernWindow ≤ wrap (image.binary + index) := by
    rw [wrap, Nat.mod_eq_of_lt word]
    exact window.trans (Nat.le_add_right _ _)
  have small : wrap index = index := Nat.mod_eq_of_lt (lt_of_le_of_lt (Nat.le_add_left _ _) word)
  unfold Image.byte
  dsimp only
  rw [if_pos high, small]

/-- With the page directory of the kernel in `satp` only the bytes of a file of the kernel can be read. -/
theorem byte_inside {value : BitVec 8} (zero : ∀ i < 511, m.word satp i = 0) (small : index < 2 ^ 64) (read : image.byte satp m index = .ok value) :
    kernWindow ≤ wrap (image.binary + index) ∧ index < image.bytes.length := by
  unfold Image.byte at read
  dsimp only at read
  split at read
  next high =>
    rw [wrap, Nat.mod_eq_of_lt small] at read
    refine ⟨high, ?_⟩
    by_contra outside
    rw [List.getElem?_eq_none (not_lt.mp outside)] at read
    cases read
  next low =>
    rw [walk_zero zero (not_le.mp low)] at read
    cases read

theorem number_window {satp' : Frame} (window : kernWindow ≤ image.binary) (word : image.binary + index + len ≤ 2 ^ 64) :
    image.number satp m index len = image.number satp' m₁ index len := by
  induction len generalizing index with
  | zero => rfl
  | succ len ih => rw [Image.number, Image.number, byte_window window (by omega), byte_window window (by omega), ih (by omega)]

theorem Image.Loadable.entry (loadable : image.Loadable satp m₀ size) (window : kernWindow ≤ image.binary) (zero : ∀ i < 511, m₀.word satp i = 0)
    (counted : image.ePhnum satp m₀ = .ok phnum) : image.eEntry c m = image.eEntry satp m₀ := by
  obtain ⟨value, read, _⟩ := bind_ok counted
  have inside := (byte_inside zero (by decide) read).2
  rw [loadable.whole] at inside
  have word := loadable.word
  exact number_window window (by omega)

/-- What the segments show is what the process finds in its memory. -/
theorem Mem.Shows.load (shows : m.Shows c header image satp m₀ (header.pVa + header.pMemsz)) (user : header.pVa + header.pMemsz ≤ userTop)
    (loadable : image.Loadable satp m₀ size) (window : kernWindow ≤ image.binary) (loads : image.Loads satp m₀ header) (memory : vm'.mem = m) (own : vm'.pgdir vm'.current = c)
    {i : Nat} (inside : i < header.pMemsz) :
    (∃ pte, vm'.mem.walk (vm'.pgdir vm'.current) (header.pVa + i) = some pte ∧ header.Grants pte) ∧
      vm'.load vm'.current (header.pVa + i) = if i < header.pFilesz then image.bytes[header.pOffset + i]? else some 0 := by
  have low : header.pVa + i < userTop := by omega
  obtain ⟨page, here, leaf, puts⟩ := shows (header.pVa + i) (Nat.le_add_right _ _) (by omega)
  have walked : vm'.mem.walk (vm'.pgdir vm'.current) (header.pVa + i) = some (pteCreate page (1 ||| header.perm)) := by
    rw [memory, own, walk_user low, leaf, if_pos (valid_pteCreate ..)]
  refine ⟨⟨_, walked, header.grants page⟩, ?_⟩
  have frame : pteFrame (pteCreate page (1 ||| header.perm)) = page := by
    rw [Mem.target, leaf] at here
    exact (entry_valid here).2
  rw [Vm.load, walked, Option.map_some, frame, memory]
  unfold ProgHdr.Puts at puts
  by_cases data : i < header.pFilesz
  · obtain ⟨inFile, _⟩ := loadable.segment header loads
    have word := loadable.word
    rw [if_pos (by omega), Nat.add_sub_cancel_left, byte_window window (by omega)] at puts
    rw [if_pos data]
    cases there : image.bytes[header.pOffset + i]? with
    | none =>
      rw [there] at puts
      cases puts
    | some value =>
      rw [there] at puts
      rw [Except.ok.inj puts]
  · rw [if_neg (by omega)] at puts
    rw [if_neg data, puts]

theorem enterUser_status (entry : Nat) (tf : TrapFrame) :
    (Vm.enterUser entry tf).status &&& sstatusSpp = 0 ∧ (Vm.enterUser entry tf).status &&& sstatusSpie ≠ 0 := by
  unfold Vm.enterUser sstatusSpp sstatusSpie
  constructor
  · apply BitVec.eq_of_getLsbD_eq
    intro i inside
    interval_cases i <;> simp
  · intro zero
    have bit := congrArg (BitVec.getLsbD · 5) zero
    simp at bit

instance : DecidablePred Halt.Barred := fun halt => instDecidableOr (p := halt = .diverge)

theorem byte_safe (image : Image) (satp : Frame) (m : Mem) (off : Nat) : Ensures Halt.Barred (image.byte satp m off) fun _ => True := by
  unfold Image.byte
  dsimp only
  have unmapped : ∀ addr, ¬ (Halt.unmapped addr).Barred := by
    rintro addr (impossible | impossible) <;> cases impossible
  split
  · cases image.bytes[wrap off]? with
    | none => exact .error (by decide)
    | some value => exact .ok trivial
  · split
    · split
      · exact .ok trivial
      · exact .error (unmapped _)
    · exact .error (unmapped _)

theorem number_safe (image : Image) (satp : Frame) (m : Mem) (off n : Nat) : Ensures Halt.Barred (image.number satp m off n) fun _ => True := by
  induction n generalizing off with
  | zero => exact .ok trivial
  | succ n ih => exact (byte_safe image satp m off).bind fun _ _ => (ih (off + 1)).bind fun _ _ => .ok trivial

theorem proghdr_safe (image : Image) (satp : Frame) (m : Mem) (off : Nat) : Ensures Halt.Barred (image.proghdr satp m off) fun _ => True := by
  refine (number_safe image satp m off 4).bind fun _ _ => ?_
  split
  · exact .ok trivial
  · refine (number_safe ..).bind fun _ _ => (number_safe ..).bind fun _ _ => (number_safe ..).bind fun _ _ => ?_
    exact (number_safe ..).bind fun _ _ => (number_safe ..).bind fun _ _ => .ok trivial

private theorem Image.Loadable.admits (loadable : image.Loadable satp m₀ size) : image.Admits Halt.Barred satp m₀ where
  field offset n _ m _ := number_safe image satp m offset n
  entry c m := number_safe image c m 24 8
  suits _ phoff phnum read counted := by
    have table := loadable.table phoff phnum read counted
    have word := loadable.word
    have loads : ∀ i < phnum, ∀ header, image.At satp m₀ phoff i header → image.Loads satp m₀ header := by
      intro i below header here
      have place : wrap (phoff + i * proghdrSize) = phoff + i * proghdrSize := by
        unfold wrap
        unfold proghdrSize at table ⊢
        omega
      rw [Image.At, place] at here
      exact ⟨phoff, phnum, i, read, counted, below, here⟩
    exact ⟨by omega, fun m _ i _ => proghdr_safe .., fun i below header here => (loadable.segment header (loads i below header here)).2,
      fun _ _ _ _ m _ i _ => byte_safe .., .inl (by decide), by decide⟩

private theorem Image.Loadable.runs (loadable : image.Loadable vm.satp vm.mem size) (zero : ∀ i < 511, vm.mem.word vm.satp i = 0)
    (built : image.Built vm vm') : image.Runs vm vm' := by
  obtain ⟨phoff, phnum, last, block, read, counted, _, all, uses, stands⟩ := built.areas
  obtain ⟨entry, entered, frame⟩ := built.frame
  have table := loadable.table phoff phnum read counted
  have word := loadable.word
  obtain rfl := all (by omega)
  -- A magic number that can be read is one in the memory of the kernel.
  have window : kernWindow ≤ image.binary := by
    obtain ⟨value, first, _⟩ := bind_ok built.magic
    have high := (byte_inside zero (by decide) first).1
    rwa [Nat.add_zero, wrap, Nat.mod_eq_of_lt (lt_of_le_of_lt (Nat.le_add_right _ _) word)] at high
  refine ⟨fun header loads i inside => ?_, ⟨block, uses, ?_⟩, ?_, ⟨entry, ?_, ?_⟩, ?_, ?_⟩
  · obtain ⟨phoff', phnum', index, read', counted', below, here⟩ := loads
    obtain rfl := Except.ok.inj (read.symm.trans read')
    obtain rfl := Except.ok.inj (counted.symm.trans counted')
    have place : wrap (phoff + index * proghdrSize) = phoff + index * proghdrSize := by
      unfold wrap
      unfold proghdrSize at table ⊢
      omega
    obtain ⟨vma, _, carries⟩ := stands.headers index below header (by rw [Image.At, place]; exact here)
    exact carries.shows.load carries.user loadable window ⟨phoff, last, index, read, counted, below, here⟩ rfl rfl inside
  · obtain ⟨vma, member, isStack⟩ := stands.stack
    exact ⟨vma, member, isStack.first, isStack.last⟩
  · rw [frame, Vm.enterUser]
    dsimp only
    rw [Function.update_self]
  · exact (loadable.entry window zero counted).symm.trans entered
  · rw [frame]
    rfl
  · rw [frame]
    exact (enterUser_status _ _).1
  · rw [frame]
    exact (enterUser_status _ _).2

/-- `load_icode` never fails the assertion in front of BSS and its loops end. If it returns zero, the process finds what the file describes. -/
theorem load_icode_image (started : vm.Started) (loadable : image.Loadable vm.satp vm.mem size) :
    (∀ halt, vm.loadIcode order image size = .error halt → ¬ halt.Barred) ∧ ∀ vm', vm.loadIcode order image size = .ok (0, vm') → image.Runs vm vm' := by
  by_cases alone : vm.mm vm.current = none
  · have ensures : Ensures Halt.Barred (vm.loadIcode order image size) _ := loadIcode_ensures started alone loadable.admits
    have zero : ∀ i < 511, vm.mem.word vm.satp i = 0 := by
      rw [started.satp]
      exact started.zero
    exact ⟨ensures.safe, fun vm' loaded => loadable.runs zero ((ensures.post _ loaded).2.2 rfl)⟩
  · have busy : vm.loadIcode order image size = .error (.panic "load_icode: current->mm must be empty.\n") := if_pos (Option.isSome_iff_ne_none.mpr alone)
    rw [busy]
    refine ⟨fun halt same => ?_, fun vm' impossible => by cases impossible⟩
    cases same
    decide

/-- What `load_icode_image` assumes of the memory holds whenever `do_execve` calls `load_icode`. -/
theorem execve_started {s : Spaces} {name : List (BitVec 8)} (reached : s.Reachable) (active : s.exited s.vm.current = false)
    (checked : s.vm.userMemCheck addr len false = .ok (true, vm)) (quit : vm.leaveMm addr len = .ok (name, vm')) :
    vm'.Started ∧ vm'.mm vm'.current = none := by
  obtain ⟨l, fits⟩ := reached.sound.holdings
  have fits₁ := fits.check checked
  obtain ⟨mms, rfl, _⟩ := userMemCheck_same checked
  have sound₁ : Spaces.Sound { s with vm := { s.vm with mms := mms } } :=
    reached.sound.keep fits₁ rfl rfl (fun _ _ => rfl) (fun _ _ => rfl) rfl
  obtain ⟨_, _, quit⟩ := bind_ok quit
  obtain ⟨vm₂, dropped, quit⟩ := bind_ok quit
  obtain ⟨_, rfl⟩ := Prod.mk.inj (Except.ok.inj quit)
  obtain ⟨vm₂', dropped', vacated⟩ := fits₁.dropMm sound₁.runs
  obtain rfl := Except.ok.inj (dropped.symm.trans dropped')
  obtain ⟨satp, _⟩ := sound₁.left active fits₁ vacated
  obtain ⟨l₂, fits₂⟩ := vacated.fits
  refine ⟨fits₂.started satp, ?_⟩
  rw [vacated.elsewhere.current]
  exact vacated.gone

/-- A file of the kernel with four bytes of text at 0x800020, and four bytes of data and four of BSS from 0x801FFE on. -/
def dataProgram : Image where
  binary := kernBase
  bytes := [0x7F, 0x45, 0x4C, 0x46] ++ List.replicate 20 0 ++ [0x20, 0, 0x80, 0, 0, 0, 0, 0, 64, 0, 0, 0, 0, 0, 0, 0] ++ List.replicate 16 0 ++
    [2, 0, 0, 0, 0, 0, 0, 0] ++ [1, 0, 0, 0, 5, 0, 0, 0, 176, 0, 0, 0, 0, 0, 0, 0, 0x20, 0, 0x80, 0, 0, 0, 0, 0] ++ List.replicate 8 0 ++
    [4, 0, 0, 0, 0, 0, 0, 0, 4, 0, 0, 0, 0, 0, 0, 0] ++ List.replicate 8 0 ++
    [1, 0, 0, 0, 6, 0, 0, 0, 180, 0, 0, 0, 0, 0, 0, 0, 0xFE, 0x1F, 0x80, 0, 0, 0, 0, 0] ++ List.replicate 8 0 ++
    [4, 0, 0, 0, 0, 0, 0, 0, 8, 0, 0, 0, 0, 0, 0, 0] ++ List.replicate 8 0 ++ [0x13, 0, 0, 0, 1, 2, 3, 4]

private theorem dataProgram_loads (loads : dataProgram.Loads satp m header) : header = ⟨5, 176, 0x800020, 4, 4⟩ ∨ header = ⟨6, 180, 0x801FFE, 4, 8⟩ := by
  obtain ⟨phoff, phnum, index, read, counted, inside, here⟩ := loads
  obtain rfl : 64 = phoff := Except.ok.inj read
  obtain rfl : 2 = phnum := Except.ok.inj counted
  have first : dataProgram.proghdr satp m 64 = .ok (some ⟨5, 176, 0x800020, 4, 4⟩) := rfl
  have second : dataProgram.proghdr satp m 120 = .ok (some ⟨6, 180, 0x801FFE, 4, 8⟩) := rfl
  obtain rfl | rfl : index = 0 ∨ index = 1 := by omega
  · exact .inl (Option.some.inj (Except.ok.inj (first.symm.trans here))).symm
  · exact .inr (Option.some.inj (Except.ok.inj (second.symm.trans here))).symm

private theorem dataProgram_loadable : dataProgram.Loadable satp m 184 := by
  refine ⟨rfl, by decide, ?_, fun header loads => ?_⟩
  · intro phoff phnum read counted
    obtain rfl : 64 = phoff := Except.ok.inj read
    obtain rfl : 2 = phnum := Except.ok.inj counted
    decide
  · rcases dataProgram_loads loads with rfl | rfl
    · decide
    · decide

private theorem dataProgram_runs : (Spaces.started.loadIcode .magicFirst dataProgram 184).map (·.1) = .ok 0 := by decide +kernel

/-- The data of the program lie across two pages, with the BSS behind them in the second one. -/
theorem load_icode_image_data : ∃ vm', Spaces.started.loadIcode .magicFirst dataProgram 184 = .ok (0, vm') ∧
    vm'.load vm'.current 0x801FFF = some 2 ∧ vm'.load vm'.current 0x802000 = some 3 ∧ vm'.load vm'.current 0x802005 = some 0 ∧
    (vm'.tf vm'.current).epc = 0x800020 := by
  cases loaded : Spaces.started.loadIcode .magicFirst dataProgram 184 with
  | error halt =>
    have runs := dataProgram_runs
    rw [loaded] at runs
    cases runs
  | ok answer =>
    obtain ⟨ret, vm'⟩ := answer
    have runs := dataProgram_runs
    rw [loaded] at runs
    obtain rfl : ret = 0 := Except.ok.inj runs
    have shown := (load_icode_image Spaces.started_boot dataProgram_loadable).2 vm' loaded
    have data := shown.segment ⟨6, 180, 0x801FFE, 4, 8⟩ ⟨64, 2, 1, rfl, rfl, by decide, rfl⟩
    obtain ⟨entry, read, epc⟩ := shown.epc
    obtain rfl : 0x800020 = entry := Except.ok.inj read
    exact ⟨vm', rfl, (data 1 (by decide)).2, (data 2 (by decide)).2, (data 7 (by decide)).2, epc⟩

end Ucore
