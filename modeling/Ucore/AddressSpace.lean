import Mathlib
import Ucore.RunQueue
import Ucore.LoadIcode

/-! The address spaces of the processes: the parts of `do_fork`, `do_exit`, `do_execve`
and `proc_run` of `proc.c` that are about `mm`, `pgdir`, the kernel stack, the trap
frame and the register `satp`. -/

namespace Ucore

structure TrapFrame where
  gpr : Nat → BitVec 64
  status : BitVec 64
  epc : BitVec 64
  tval : BitVec 64
  cause : BitVec 64

/-- The number of the stack pointer among the registers. -/
def gprSp : Nat := 2

def sstatusSpie : BitVec 64 := 0x00000020

def sstatusSpp : BitVec 64 := 0x00000100

/-- `CLONE_VM` -/
def cloneVm : BitVec 32 := 0x00000100

/-- `KSTACKPAGE` -/
def kstackPage : Nat := 2

/-- `PROC_NAME_LEN` -/
def procNameLen : Nat := 15

/-- `mms` are the `mm_struct`s by their address. `mm`, `pgdir`, `kstack`, `tf` and `name`
are fields of the processes; an address of a page directory is that of its frame.
`kernByte` is the part of the kernel's memory that names are read from. -/
structure Vm where
  mem : Mem
  bootPgdir : Frame
  mms : Block → MmStruct
  mm : Ptr → Option Block
  pgdir : Ptr → Frame
  kstack : Ptr → Frame
  tf : Ptr → TrapFrame
  name : Ptr → List (BitVec 8)
  kernByte : Nat → BitVec 8
  satp : Frame
  current : Ptr

/-- `setup_pgdir` for an `mm_struct` without page directory. -/
def setupPgdir (bootPgdir : Frame) (mm : MmStruct) (m : Mem) : Int × MmStruct × Mem :=
  match m.allocPage with
  | (none, m) => (-eNoMem, mm, m)
  | (some page, m) => (0, { mm with pgdir := some page }, m.setFrame page (m.word bootPgdir))

def putPgdir (mm : MmStruct) (m : Mem) : Kern Mem := do
  let pgdir ← deref mm.pgdir
  m.freePage pgdir

/-- What is left of an address space that nobody uses is given back. -/
def tearDown (block : Block) (mm : MmStruct) (m : Mem) : Kern Mem := do
  let m ← mm.exitMmap m
  let m ← putPgdir mm m
  mm.mmDestroy block m

/-- `lock_mm`; a lock that is held makes `schedule` spin. -/
def lockMm (mm : MmStruct) : Kern MmStruct :=
  if mm.mmLock then .error .diverge else .ok { mm with mmLock := true }

def unlockMm (mm : MmStruct) : Kern MmStruct :=
  if mm.mmLock then .ok { mm with mmLock := false } else .error (.panic "Unlock failed.\n")

namespace Vm

def setMm (vm : Vm) (block : Block) (mm : MmStruct) : Vm := { vm with mms := Function.update vm.mms block mm }

/-- `kfree` of the `mm_struct` with the label `bad_pgdir_cleanup_mm`. -/
def abandonMm (block : Block) (mm : MmStruct) (ret : Int) (vm : Vm) : Kern (Int × Vm) := do
  let mem ← mm.mmDestroy block vm.mem
  .ok (ret, { vm with mem := mem })

/-- The label `good_mm` of `copy_mm`. -/
def goodMm (proc : Ptr) (block : Block) (vm : Vm) : Kern (Int × Vm) := do
  let mm := { vm.mms block with mmCount := (vm.mms block).mmCount + 1 }
  let pgdir ← deref mm.pgdir
  .ok (0, { vm.setMm block mm with
    mm := Function.update vm.mm proc (some block)
    pgdir := Function.update vm.pgdir proc pgdir })

/-- The copy that `copy_mm` makes without `CLONE_VM`. -/
def dupMm (proc : Ptr) (oldmm : Block) (vm : Vm) : Kern (Int × Vm) :=
  match mmCreate vm.mem with
  | (none, mem) => .ok (-eNoMem, { vm with mem := mem })
  | (some block, mem) =>
    match setupPgdir vm.bootPgdir .fresh mem with
    | (0, mm, mem) => do
      let old ← lockMm (vm.mms oldmm)
      let (ret, mm, mem) ← mm.dupMmap old mem
      let old ← unlockMm old
      let vm := { (vm.setMm oldmm old).setMm block mm with mem := mem }
      if ret = 0 then vm.goodMm proc block
      else do
        let mem ← tearDown block mm vm.mem
        .ok (ret, { vm with mem := mem })
    | (_, mm, mem) => abandonMm block mm (-eNoMem) { vm with mem := mem }

def copyMm (cloneFlags : BitVec 32) (proc : Ptr) (vm : Vm) : Kern (Int × Vm) :=
  match vm.mm vm.current with
  | none => .ok (0, vm)
  | some oldmm => if cloneFlags &&& cloneVm ≠ 0 then vm.goodMm proc oldmm else vm.dupMm proc oldmm

def setupKstack (proc : Ptr) (vm : Vm) : Int × Vm :=
  match vm.mem.allocPages kstackPage with
  | (some page, mem) => (0, { vm with mem := mem, kstack := Function.update vm.kstack proc page })
  | (none, mem) => (-eNoMem, { vm with mem := mem })

def putKstack (proc : Ptr) (vm : Vm) : Kern Vm := do
  let mem ← vm.mem.freePages (vm.kstack proc) kstackPage
  .ok { vm with mem := mem }

/-- What `alloc_proc` sets of the fields here. -/
def allocProc (proc : Ptr) (vm : Vm) : Vm :=
  { vm with
    mm := Function.update vm.mm proc none
    pgdir := Function.update vm.pgdir proc vm.bootPgdir
    kstack := Function.update vm.kstack proc 0
    name := Function.update vm.name proc (List.replicate (procNameLen + 1) 0) }

/-- The current process drops its address space, in `do_exit` and `do_execve`. -/
def dropMm (vm : Vm) : Kern Vm :=
  match vm.mm vm.current with
  | none => .ok vm
  | some block => do
    let vm := { vm with satp := vm.bootPgdir }
    let mm : MmStruct := { vm.mms block with mmCount := (vm.mms block).mmCount - 1 }
    let mem ← onlyIf (mm.mmCount = 0) (tearDown block mm) vm.mem
    .ok { vm.setMm block mm with mem := mem, mm := Function.update vm.mm vm.current none }

/-- The trap frame that makes the process start at `entry` in user mode. -/
def enterUser (entry : Nat) (tf : TrapFrame) : TrapFrame where
  gpr := Function.update (fun _ => 0) gprSp (BitVec.ofNat 64 ustackTop)
  status := (tf.status &&& ~~~sstatusSpp) ||| sstatusSpie
  epc := BitVec.ofNat 64 entry
  tval := 0
  cause := 0

/-- The end of `load_icode`, when the address space is built. It reads `e_entry` when
`satp` is already set. -/
def adoptMm (image : Image) (block : Block) (mm : MmStruct) (vm : Vm) : Kern (Int × Vm) := do
  let mm := { mm with mmCount := mm.mmCount + 1 }
  let pgdir ← deref mm.pgdir
  let entry ← image.eEntry pgdir vm.mem
  .ok (0, { vm.setMm block mm with
    mm := Function.update vm.mm vm.current (some block)
    pgdir := Function.update vm.pgdir vm.current pgdir
    satp := pgdir
    tf := Function.update vm.tf vm.current (enterUser entry (vm.tf vm.current)) })

/-- The label `bad_elf_cleanup_pgdir`. -/
def refuseElf (block : Block) (mm : MmStruct) (vm : Vm) : Kern (Int × Vm) := do
  let mem ← putPgdir mm vm.mem
  abandonMm block mm (-eInvalElf) { vm with mem := mem }

/-- `load_icode` for an image with ELF magic. -/
def loadElf (image : Image) (phoff : Nat) (pgdir : Frame) (block : Block) (mm : MmStruct) (vm : Vm) : Kern (Int × Vm) := do
  let (ret, mm, mem) ← loadImage image vm.satp phoff pgdir mm vm.mem
  if ret = 0 then adoptMm image block mm { vm with mem := mem }
  else do
    let mem ← tearDown block mm mem
    .ok (ret, { vm with mem := mem })

/-- `load_icode` with a page directory in place. The text computes `ph` from `e_phoff` before
it tests `e_magic`; a compiler may load `e_phoff` behind the test, as the build here does. -/
def loadInto (order : HeaderOrder) (image : Image) (block : Block) (mm : MmStruct) (vm : Vm) : Kern (Int × Vm) := do
  let pgdir ← deref mm.pgdir
  match order with
  | .phoffFirst => do
    let phoff ← image.ePhoff vm.satp vm.mem
    let magic ← image.eMagic vm.satp vm.mem
    if magic ≠ elfMagic then refuseElf block mm vm else loadElf image phoff pgdir block mm vm
  | .magicFirst => do
    let magic ← image.eMagic vm.satp vm.mem
    if magic ≠ elfMagic then refuseElf block mm vm
    else do
      let phoff ← image.ePhoff vm.satp vm.mem
      loadElf image phoff pgdir block mm vm

/-- The size of the image plays no part. -/
def loadIcode (order : HeaderOrder) (image : Image) (_size : Nat) (vm : Vm) : Kern (Int × Vm) :=
  if (vm.mm vm.current).isSome then .error (.panic "load_icode: current->mm must be empty.\n")
  else
    match mmCreate vm.mem with
    | (none, mem) => .ok (-eNoMem, { vm with mem := mem })
    | (some block, mem) =>
      match setupPgdir vm.bootPgdir .fresh mem with
      | (0, mm, mem) => loadInto order image block mm { vm with mem := mem }
      | (_, mm, mem) => abandonMm block mm (-eNoMem) { vm with mem := mem }

/-- `user_mem_check` for the current process, which leaves its trace in `mmap_cache`. -/
def userMemCheck (addr len : Nat) (write : Bool) (vm : Vm) : Kern (Bool × Vm) :=
  match vm.mm vm.current with
  | none => .ok (kernMemCheck addr len, vm)
  | some block => do
    let (answer, mm) ← (vm.mms block).userMemCheck addr len write
    .ok (answer, vm.setMm block mm)

/-- The kernel loads or stores a byte. Above `kernWindow` it has a mapping of its own; a
user page must be mapped, and there is no handler for page faults. -/
def touch (write : Bool) (addr : Nat) (vm : Vm) : Kern Unit :=
  if kernWindow ≤ addr then .ok ()
  else
    match vm.mem.walk vm.satp addr with
    | some pte => if pte &&& (if write then pteW else pteR) ≠ 0 then .ok () else .error .fault
    | none => .error .fault

/-- The kernel loads or stores `len` bytes from `addr` on. -/
def touchBytes (write : Bool) : Nat → Nat → Vm → Kern Unit
  | _, 0, _ => .ok ()
  | addr, len + 1, vm => do
    vm.touch write addr
    touchBytes write (wrap (addr + 1)) len vm

/-- What a load from an address that can be read gives. -/
def peek (vm : Vm) (addr : Nat) : BitVec 8 :=
  if kernWindow ≤ addr then vm.kernByte addr
  else
    match vm.mem.walk vm.satp addr with
    | some pte => vm.mem.byte (pteFrame pte) (addr % pgSize)
    | none => 0

/-- The copy of the name on the stack: `len` bytes, and zeros behind them. -/
def localName (name len : Nat) (vm : Vm) : List (BitVec 8) :=
  (List.range len).map (fun i => vm.peek (wrap (name + i))) ++ List.replicate (procNameLen + 1 - len) 0

def setProcName (proc : Ptr) (name : List (BitVec 8)) (vm : Vm) : Vm :=
  { vm with name := Function.update vm.name proc (name.take procNameLen ++ [0]) }

/-- `do_execve` between the check of the name and the call of `load_icode`: the copy of the
name, and the state without the old address space. -/
def leaveMm (name len : Nat) (vm : Vm) : Kern (List (BitVec 8) × Vm) := do
  vm.touchBytes false name (min len procNameLen)
  let localName := vm.localName name (min len procNameLen)
  let vm ← vm.dropMm
  .ok (localName, vm)

/-- `do_execve` up to the call of `do_exit` after a failure, which is left to the caller:
the result says whether the name was refused, the image runs, or loading failed. -/
def doExecve (order : HeaderOrder) (name len : Nat) (image : Image) (size : Nat) (vm : Vm) : Kern (Int × Vm) := do
  let (answer, vm) ← vm.userMemCheck name len false
  if !answer then .ok (-eInval, vm)
  else do
    let (localName, vm) ← vm.leaveMm name len
    let (ret, vm) ← vm.loadIcode order image size
    if ret ≠ 0 then .ok (ret, vm) else .ok (0, vm.setProcName vm.current localName)

/-- `proc_run` loads the page directory of `proc`. -/
def procRun (proc : Ptr) (vm : Vm) : Vm :=
  if proc ≠ vm.current then { vm with current := proc, satp := vm.pgdir proc } else vm

end Vm

end Ucore
