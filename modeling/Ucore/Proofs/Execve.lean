import Ucore.Proofs.Release

/-! The order of things in `do_execve`: it leaves the address space of the caller, and with
it the program that `load_icode` is about to read. -/

namespace Ucore
open Lib

/-- The byte is one of `size` at `binary`. -/
def Image.Has (image : Image) (size addr : Nat) : Prop := ∃ i < size, addr = wrap (image.binary + i)

/-- There is memory for an `mm_struct` and a page directory. -/
def Mem.Room (m : Mem) : Prop := (mmCreate m).1.isSome = true ∧ (mmCreate m).2.allocPage.1.isSome = true

namespace Vm

/-- `do_execve` calls `load_icode` in the state `vm'`. -/
def Calls (name len : Nat) (vm vm' : Vm) : Prop :=
  ∃ checked localName, vm.userMemCheck name len false = .ok (true, checked) ∧ checked.leaveMm name len = .ok (localName, vm')

/-- `user_mem_check` accepts the range for reading. -/
def Reads (vm : Vm) (addr len : Nat) : Prop := (vm.userMemCheck addr len false).map Prod.fst = .ok true

/-- The bytes of a program that the caller can read are mapped when `load_icode` reads them,
in whichever order it loads the fields of the header, and a program that it cannot read is
refused. -/
structure ExecReads (vm : Vm) (name len : Nat) (image : Image) (size : Nat) : Prop where
  mapped : vm.Reads image.binary size →
    ∀ order vm', vm.Calls name len vm' → ∀ addr, image.Has size addr → vm'.loadIcode order image size ≠ .error (.unmapped addr)
  refused : ¬ vm.Reads image.binary size →
    ∀ order, ∃ vm', vm.doExecve order name len image size = .ok (-eInval, vm') ∧ vm'.mm vm.current = vm.mm vm.current ∧
      vm'.pgdir vm.current = vm.pgdir vm.current ∧ vm'.name vm.current = vm.name vm.current

end Vm

/-- The caller is a process with the `mm_struct` at `block`, and `boot_pgdir` is not part of
its page tables and maps nothing but the huge page of the kernel. -/
structure Caller (vm : Vm) (block : Block) : Prop where
  mm : vm.mm vm.current = some block
  apart : ∀ pgdir, (vm.mms block).pgdir = some pgdir → ¬ vm.mem.IsTable {pgdir} vm.bootPgdir
  empty : ∀ i < 511, vm.mem.word vm.bootPgdir i = 0

variable {vm vm' : Vm} {m m' : Mem} {block : Block} {image : Image} {satp : Frame} {order : HeaderOrder}
  {name len size addr : Nat}

private theorem findVma_cache {mm mm' : MmStruct} {found : Option Vma} (looked : mm.findVma addr = (found, mm')) :
    mm' = { mm with mmapCache := mm'.mmapCache } := by
  unfold MmStruct.findVma at looked
  split at looked
  · cases looked
    rfl
  · cases looked
    rfl

private theorem userMemLoop_cache {mm mm' : MmStruct} {write answer : Bool} {stop fuel start : Nat}
    (looped : mm.userMemLoop write stop fuel start = .ok (answer, mm')) : mm' = { mm with mmapCache := mm'.mmapCache } := by
  induction fuel generalizing start mm with
  | zero => cases looped
  | succ fuel ih =>
    unfold MmStruct.userMemLoop at looped
    split at looped
    · split at looped
      next vma found looked =>
        have kept := findVma_cache looked
        split at looped
        · cases looped
          exact kept
        · rw [ih looped, kept]
      next found looked =>
        cases looped
        exact findVma_cache looked
    · cases looped
      rfl

private theorem userMemCheck_ok {write answer : Bool} (checked : vm.userMemCheck addr len write = .ok (answer, vm')) :
    ∃ mms, vm' = { vm with mms := mms } ∧ ∀ block, ∃ cache, mms block = { vm.mms block with mmapCache := cache } := by
  unfold Vm.userMemCheck at checked
  split at checked
  · cases checked
    exact ⟨_, rfl, fun block => ⟨(vm.mms block).mmapCache, rfl⟩⟩
  next block _ =>
    obtain ⟨⟨granted, mm⟩, looped, found⟩ := bind_ok checked
    cases found
    refine ⟨_, rfl, ?_⟩
    intro other
    by_cases own : other = block
    · subst own
      refine ⟨mm.mmapCache, ?_⟩
      rw [Function.update_self]
      unfold MmStruct.userMemCheck at looped
      split at looped
      · exact userMemLoop_cache looped
      · cases looped
        rfl
    · exact ⟨(vm.mms other).mmapCache, by rw [Function.update_of_ne own]⟩

theorem Caller.checked {write answer : Bool} (caller : Caller vm block)
    (checked : vm.userMemCheck addr len write = .ok (answer, vm')) : Caller vm' block := by
  obtain ⟨mms, rfl, same⟩ := userMemCheck_ok checked
  refine ⟨caller.mm, ?_, caller.empty⟩
  intro pgdir place
  obtain ⟨cache, kept⟩ := same block
  have place : (mms block).pgdir = some pgdir := place
  rw [kept] at place
  exact caller.apart pgdir place

/-- Behind the release the process has no `mm`, and `satp` holds a page directory that maps no
address of user space. -/
structure Released (vm vm' : Vm) : Prop where
  mm : vm'.mm vm.current = none
  current : vm'.current = vm.current
  satp : vm'.satp = vm'.bootPgdir
  empty : ∀ i < 511, vm'.mem.word vm'.satp i = 0

theorem Caller.released (caller : Caller vm block) (dropped : vm.dropMm = .ok vm') : Released vm vm' := by
  unfold Vm.dropMm at dropped
  rw [caller.mm] at dropped
  obtain ⟨mem, torn, result⟩ := bind_ok dropped
  cases result
  refine ⟨Function.update_self .., rfl, rfl, ?_⟩
  show ∀ i < 511, mem.word vm.bootPgdir i = 0
  unfold onlyIf at torn
  split at torn
  · cases place : (vm.mms block).pgdir with
    | none =>
      obtain ⟨m₁, exited, rest⟩ := bind_ok torn
      obtain ⟨m₂, put, _⟩ := bind_ok rest
      obtain ⟨root, found, _⟩ := bind_ok put
      have found : deref (vm.mms block).pgdir = .ok root := found
      rw [place] at found
      cases found
    | some pgdir =>
      have torn : tearDown block { vm.mms block with mmCount := (vm.mms block).mmCount - 1 } vm.mem = .ok mem := torn
      have shrunk : Shrunk pgdir vm.mem mem := tearDown_shrunk (by exact place) torn
      intro i low
      rw [shrunk.word _ (caller.apart pgdir place)]
      exact caller.empty i low
  · cases torn
    exact caller.empty

/-- Where the field that is loaded first stands. -/
def HeaderOrder.first : HeaderOrder → Nat
  | phoffFirst => 32
  | magicFirst => 0

private theorem number_unmapped {offset n : Nat} (low : image.binary < userTop) (near : offset < pgSize)
    (empty : ∀ i < 511, m.word satp i = 0) : image.number satp m offset (n + 1) = .error (.unmapped (image.binary + offset)) := by
  unfold userTop at low
  unfold pgSize at near
  have whole : wrap (image.binary + offset) = image.binary + offset := Nat.mod_eq_of_lt (by omega)
  have user : image.binary + offset < kernWindow := by
    unfold kernWindow
    omega
  have first : image.byte satp m offset = .error (.unmapped (image.binary + offset)) := by
    simp only [Image.byte, whole, if_neg (not_le.mpr user), walk_zero empty user]
  rw [Image.number, first]
  rfl

private theorem loadInto_unmapped {mm : MmStruct} {pgdir : Frame} (place : mm.pgdir = some pgdir) (low : image.binary < userTop)
    (empty : ∀ i < 511, vm.mem.word vm.satp i = 0) :
    vm.loadInto order image block mm = .error (.unmapped (image.binary + order.first)) := by
  have phoff : image.ePhoff vm.satp vm.mem = _ := number_unmapped low (by decide) empty
  have magic : image.eMagic vm.satp vm.mem = _ := number_unmapped low (by decide) empty
  unfold Vm.loadInto
  rw [place]
  cases order with
  | phoffFirst =>
    dsimp only [deref, ok_bind]
    rw [phoff]
    rfl
  | magicFirst =>
    dsimp only [deref, ok_bind]
    rw [magic]
    rfl

private theorem kmalloc_word {found : Option Block} (asked : m.kmalloc = (found, m')) : m'.word = m.word := by
  unfold Mem.kmalloc at asked
  split at asked
  · split at asked
    · cases asked
      rfl
    · cases asked
      rfl
  · cases asked
    rfl

private theorem kmalloc_blocks (asked : m.kmalloc = (some block, m')) : block ∈ m'.blocks := by
  unfold Mem.kmalloc at asked
  split at asked
  · split at asked
    · cases asked
      exact List.mem_cons_self
    · cases asked
  · cases asked

private theorem abandonMm_fresh {ret : Int} (inUse : block ∈ vm.mem.blocks) : ∃ vm', vm.abandonMm block .fresh ret = .ok (ret, vm') := by
  have freed : vm.mem.kfree block = .ok { vm.mem with blocks := vm.mem.blocks.erase block } := if_pos inUse
  have destroyed : MmStruct.fresh.mmDestroy block vm.mem = .ok { vm.mem with blocks := vm.mem.blocks.erase block } := freed
  rw [Vm.abandonMm, destroyed]
  exact ⟨_, rfl⟩

/-- A program in user space is never read past the field that is loaded first. -/
theorem loadIcode_user (noMm : vm.mm vm.current = none) (boot : vm.satp = vm.bootPgdir)
    (empty : ∀ i < 511, vm.mem.word vm.satp i = 0) (low : image.binary < userTop) :
    (vm.mem.Room ∧ vm.loadIcode order image size = .error (.unmapped (image.binary + order.first))) ∨
      ¬ vm.mem.Room ∧ ∃ vm', vm.loadIcode order image size = .ok (-eNoMem, vm') := by
  unfold Vm.loadIcode Mem.Room
  rw [noMm, if_neg (by simp)]
  cases created : mmCreate vm.mem with
  | mk found m₁ =>
    have same := kmalloc_word created
    cases found with
    | none => exact .inr ⟨fun room => Bool.false_ne_true room.1, _, rfl⟩
    | some block =>
      cases asked : m₁.allocPage with
      | mk answer m₂ =>
        cases answer with
        | none =>
          refine .inr ⟨fun room => Bool.false_ne_true room.2, ?_⟩
          obtain rfl := allocPage_none asked
          have inUse : block ∈ m₁.blocks := kmalloc_blocks created
          simp only [setupPgdir, asked]
          exact abandonMm_fresh inUse
        | some page =>
          refine .inl ⟨⟨rfl, rfl⟩, ?_⟩
          have words : m₂.word = vm.mem.word := by
            rw [(allocPage_some asked).2.2.2, ← same]
          have kept : ∀ i < 511, (m₂.setFrame page (m₂.word vm.bootPgdir)).word vm.satp i = 0 := by
            intro i inside
            by_cases own : vm.satp = page
            · have copied : (m₂.setFrame page (m₂.word vm.bootPgdir)).word vm.satp = vm.mem.word vm.satp := by
                rw [own, ← words, ← own, boot]
                exact Function.update_self ..
              rw [copied]
              exact empty i inside
            · have same : (m₂.setFrame page (m₂.word vm.bootPgdir)).word vm.satp = vm.mem.word vm.satp := by
                rw [← words]
                exact Function.update_of_ne own ..
              rw [same]
              exact empty i inside
          simp only [setupPgdir, asked]
          exact loadInto_unmapped rfl low kept

private theorem abandonMm_mm {mm : MmStruct} {ret code : Int} (done : vm.abandonMm block mm code = .ok (ret, vm')) : vm'.mm = vm.mm := by
  obtain ⟨mem, _, result⟩ := bind_ok done
  cases result
  rfl

private theorem refuseElf_mm {mm : MmStruct} {ret : Int} (done : vm.refuseElf block mm = .ok (ret, vm')) : vm'.mm = vm.mm := by
  obtain ⟨mem, _, abandoned⟩ := bind_ok done
  exact (abandonMm_mm abandoned).trans rfl

private theorem loadElf_mm {mm : MmStruct} {ret : Int} {phoff : Nat} {pgdir : Frame} (loaded : vm.loadElf image phoff pgdir block mm = .ok (ret, vm'))
    (failed : ret ≠ 0) : vm'.mm = vm.mm := by
  obtain ⟨⟨code, mm, mem⟩, _, rest⟩ := bind_ok loaded
  dsimp only at rest
  split at rest
  · obtain ⟨root, _, rest⟩ := bind_ok rest
    obtain ⟨entry, _, result⟩ := bind_ok rest
    cases result
    exact absurd rfl failed
  · obtain ⟨torn, _, result⟩ := bind_ok rest
    cases result
    rfl

private theorem loadInto_mm {mm : MmStruct} {ret : Int} (loaded : vm.loadInto order image block mm = .ok (ret, vm')) (failed : ret ≠ 0) :
    vm'.mm = vm.mm := by
  obtain ⟨pgdir, _, rest⟩ := bind_ok loaded
  cases order with
  | phoffFirst =>
    obtain ⟨phoff, _, rest⟩ := bind_ok rest
    obtain ⟨magic, _, rest⟩ := bind_ok rest
    split at rest
    · exact refuseElf_mm rest
    · exact loadElf_mm rest failed
  | magicFirst =>
    obtain ⟨magic, _, rest⟩ := bind_ok rest
    split at rest
    · exact refuseElf_mm rest
    · obtain ⟨phoff, _, rest⟩ := bind_ok rest
      exact loadElf_mm rest failed

private theorem loadIcode_mm {ret : Int} (loaded : vm.loadIcode order image size = .ok (ret, vm')) (failed : ret ≠ 0) : vm'.mm = vm.mm := by
  unfold Vm.loadIcode at loaded
  split at loaded
  · cases loaded
  · split at loaded
    · cases loaded
      rfl
    · split at loaded
      · exact (loadInto_mm loaded failed).trans rfl
      · exact (abandonMm_mm loaded).trans rfl

theorem Caller.calls (caller : Caller vm block) (calls : vm.Calls name len vm') : Released vm vm' := by
  obtain ⟨checked, localName, accepted, left⟩ := calls
  have caller' := caller.checked accepted
  obtain ⟨mms, rfl, _⟩ := userMemCheck_ok accepted
  obtain ⟨⟨⟩, _, left⟩ := bind_ok left
  obtain ⟨dropped, released, result⟩ := bind_ok left
  cases result
  have released := caller'.released released
  exact ⟨released.mm, released.current, released.satp, released.empty⟩

/-- `do_execve` returns `-E_INVAL` with the process as it was only if it refuses the name. -/
theorem execve_refused (caller : Caller vm block) :
    (∃ vm', vm.doExecve order name len image size = .ok (-eInval, vm') ∧ vm'.mm vm.current = vm.mm vm.current ∧
      vm'.pgdir vm.current = vm.pgdir vm.current ∧ vm'.name vm.current = vm.name vm.current) ↔
      (vm.userMemCheck name len false).map Prod.fst = .ok false := by
  unfold Vm.doExecve
  cases check : vm.userMemCheck name len false with
  | error halt =>
    constructor
    · intro returned
      obtain ⟨vm', impossible, _⟩ := returned
      cases impossible
    · intro impossible
      cases impossible
  | ok result =>
    obtain ⟨answer, checked⟩ := result
    obtain ⟨mms, rfl, _⟩ := userMemCheck_ok check
    cases answer with
    | false => exact ⟨fun _ => rfl, fun _ => ⟨_, rfl, rfl, rfl, rfl⟩⟩
    | true =>
      constructor
      · intro returned
        obtain ⟨vm', returned, mm, _⟩ := returned
        rw [ok_bind] at returned
        dsimp only at returned
        rw [if_neg (by decide)] at returned
        obtain ⟨⟨localName, left⟩, leaves, rest⟩ := bind_ok returned
        obtain ⟨⟨ret, loaded⟩, loads, rest⟩ := bind_ok rest
        dsimp only at rest
        split at rest
        next failed =>
          cases rest
          have released := caller.calls ⟨_, _, check, leaves⟩
          rw [loadIcode_mm loads failed, released.mm, caller.mm] at mm
          cases mm
        next =>
          have code : (0 : Int) = -eInval := (Prod.mk.inj (Except.ok.inj rest)).1
          cases code
      · intro impossible
        cases impossible

theorem Reads.user (reads : vm.Reads addr len) (caller : Caller vm block) : addr < userTop ∧ 0 < len := by
  unfold Vm.Reads Vm.userMemCheck at reads
  rw [caller.mm] at reads
  unfold MmStruct.userMemCheck at reads
  by_cases user : UserAccess addr (wrap (addr + len))
  · refine ⟨lt_of_lt_of_le user.2.1 user.2.2, Nat.pos_of_ne_zero ?_⟩
    rintro rfl
    exact absurd user.2.1 (not_lt.mpr (Nat.mod_le _ _))
  · simp only [if_neg user, ok_bind] at reads
    cases reads

/-- The program of a caller is read while it is mapped, and one that the caller cannot read is
refused, just if the name is refused, or the caller can read the program and there is no
memory left to load it. -/
theorem exec_reads_iff (caller : Caller vm block) (name len : Nat) (image : Image) (size : Nat) :
    vm.ExecReads name len image size ↔
      (vm.userMemCheck name len false).map Prod.fst = .ok false ∨
        vm.Reads image.binary size ∧ ∀ vm', vm.Calls name len vm' → ¬ vm'.mem.Room := by
  constructor
  · intro kept
    by_cases reads : vm.Reads image.binary size
    · refine .inr ⟨reads, ?_⟩
      intro vm' calls room
      have released := caller.calls calls
      obtain ⟨low, some⟩ := Reads.user reads caller
      rcases loadIcode_user (by rw [released.current]; exact released.mm) released.satp released.empty low with ⟨_, unmapped⟩ | ⟨noRoom, _⟩
      · unfold userTop at low
        have first : wrap (image.binary + 0) = image.binary + 0 := Nat.mod_eq_of_lt (by omega)
        exact kept.mapped reads .magicFirst vm' calls _ ⟨0, some, first.symm⟩ unmapped
      · exact noRoom room
    · exact .inl ((execve_refused caller).mp (kept.refused reads .magicFirst))
  · intro condition
    constructor
    · intro reads order vm' calls addr _ read
      have released := caller.calls calls
      rcases condition with refuses | ⟨_, noRoom⟩
      · obtain ⟨checked, localName, accepted, _⟩ := calls
        rw [accepted] at refuses
        cases refuses
      · rcases loadIcode_user (by rw [released.current]; exact released.mm) released.satp released.empty (Reads.user reads caller).1 with
          ⟨room, _⟩ | ⟨_, vm'', returned⟩
        · exact noRoom vm' calls room
        · rw [returned] at read
          cases read
    · intro unreadable order
      refine (execve_refused caller).mpr ?_
      rcases condition with refuses | ⟨reads, _⟩
      · exact refuses
      · exact absurd reads unreadable

/-- `do_execve` calls `load_icode`, which stops where nothing is mapped at `addr`. -/
def Vm.stopsAt (order : HeaderOrder) (addr name len : Nat) (image : Image) (size : Nat) (vm : Vm) : Bool :=
  match vm.userMemCheck name len false with
  | .ok (true, checked) =>
    match checked.leaveMm name len with
    | .ok (_, vm') =>
      match vm'.loadIcode order image size with
      | .error halt => halt = .unmapped addr
      | .ok _ => false
    | .error _ => false
  | _ => false

theorem stopsAt_calls (stops : vm.stopsAt order addr name len image size = true) :
    ∃ vm', vm.Calls name len vm' ∧ vm'.loadIcode order image size = .error (.unmapped addr) := by
  unfold Vm.stopsAt at stops
  split at stops
  next checked accepted =>
    split at stops
    next localName vm' left =>
      split at stops
      next halt loaded =>
        rw [decide_eq_true_eq] at stops
        exact ⟨vm', ⟨checked, localName, accepted, left⟩, by rw [loaded, stops]⟩
      next => cases stops
    next => cases stops
  next => cases stops

/-- A process that has one page, at 0x200000. The pages of the memory are `boot_pgdir`, the
process's page directory, the two tables below it, and the process's page. -/
def Vm.onePage : Vm where
  mem := {
    npage := nbase + 16
    word := fun frame index =>
      if index = 511 ∧ frame ≤ nbase + 1 then 0x200000CF
      else if frame = nbase + 1 ∧ index = 0 then pteCreate (nbase + 2) tableType
      else if frame = nbase + 2 ∧ index = 1 then pteCreate (nbase + 3) tableType
      else if frame = nbase + 3 ∧ index = 0 then pteCreate (nbase + 4) 0x1F
      else 0
    ref := fun _ => 1
    used := [nbase, nbase + 1, nbase + 2, nbase + 3, nbase + 4]
    pages := fun call => some (nbase + 5 + call)
    blocks := [1, 2]
    kmallocs := fun call => some (3 + call)
    npage_le := by decide }
  bootPgdir := nbase
  mms _ := ⟨[⟨2, 0x200000, 0x201000, vmRead⟩], none, some (nbase + 1), 1, 1, false⟩
  mm _ := some 1
  pgdir _ := nbase + 1
  kstack _ := 0
  tf _ := ⟨fun _ => 0, 0, 0, 0, 0⟩
  name _ := []
  kernByte _ := 0
  satp := nbase + 1
  current := 0

private theorem onePage_caller : Caller .onePage 1 := by
  refine ⟨rfl, ?_, by decide +kernel⟩
  intro pgdir place table
  obtain rfl : nbase + 1 = pgdir := Option.some.inj place
  obtain ⟨n, inside, owned, found⟩ := table
  rw [Finset.mem_singleton] at owned
  have dirs : ∀ i < 2, entry (Vm.onePage.mem.word (nbase + 1) i) ≠ some nbase := by decide +kernel
  have tables : ∀ s < 1024, ((entry (Vm.onePage.mem.word (nbase + 1) (s / 512))).bind fun d =>
    entry (Vm.onePage.mem.word d (s % 512))) ≠ some nbase := by decide +kernel
  cases n with
  | root r =>
    obtain rfl : r = nbase + 1 := owned
    exact absurd (Option.some.inj found) (by decide)
  | dir r i =>
    obtain rfl : r = nbase + 1 := owned
    exact dirs i inside found
  | table r s =>
    obtain rfl : r = nbase + 1 := owned
    exact tables s inside found

/-- The caller can read its program, but it is gone when `load_icode` reads it. -/
theorem exec_unmapped : ¬ Vm.onePage.ExecReads 0x200F00 4 ⟨0x200000, []⟩ 0x400 := by
  intro kept
  have stops : Vm.onePage.stopsAt .magicFirst 0x200000 0x200F00 4 ⟨0x200000, []⟩ 0x400 = true := by decide +kernel
  obtain ⟨vm', calls, unmapped⟩ := stopsAt_calls stops
  exact kept.mapped (by unfold Vm.Reads; decide +kernel) .magicFirst vm' calls 0x200000 ⟨0, by decide, by decide⟩ unmapped

theorem exec_reads_iff_refused : Vm.onePage.ExecReads 0 4 ⟨0x200000, []⟩ 0x400 :=
  (exec_reads_iff onePage_caller 0 4 ⟨0x200000, []⟩ 0x400).mpr (.inl (by decide +kernel))

end Ucore
