import Mathlib
import Ucore.Pmm

/-! Virtual memory areas and address spaces, from `vmm.c`. `mmap_list` is kept as a
list in the order of its links from the header. -/

namespace Ucore

def vmRead : BitVec 32 := 0x00000001#32

def vmWrite : BitVec 32 := 0x00000002#32

def vmExec : BitVec 32 := 0x00000004#32

def vmStack : BitVec 32 := 0x00000008#32

/-- A `struct vma_struct` at `block`. Its fields do not change once it is in a list. -/
structure Vma where
  block : Block
  vmStart : Nat
  vmEnd : Nat
  vmFlags : BitVec 32
  deriving DecidableEq

structure MmStruct where
  mmapList : List Vma
  mmapCache : Option Vma
  pgdir : Option Frame
  mapCount : Int
  mmCount : Int
  mmLock : Bool
  deriving DecidableEq

/-- A `struct mm_struct` as `mm_create` sets it up. -/
def MmStruct.fresh : MmStruct := ⟨[], none, none, 0, 0, false⟩

def mmCreate (m : Mem) : Option Block × Mem := m.kmalloc

def vmaCreate (vmStart vmEnd : Nat) (vmFlags : BitVec 32) (m : Mem) : Option Vma × Mem :=
  match m.kmalloc with
  | (some block, m) => (some ⟨block, vmStart, vmEnd, vmFlags⟩, m)
  | (none, m) => (none, m)

/-- `addr` is in the area. -/
def Vma.has (vma : Vma) (addr : Nat) : Bool := vma.vmStart ≤ addr && addr < vma.vmEnd

namespace MmStruct

/-- The area that `find_vma` answers, from the cache or from the list. -/
def search (mm : MmStruct) (addr : Nat) : Option Vma :=
  match mm.mmapCache with
  | some vma => if vma.has addr then some vma else mm.mmapList.find? (·.has addr)
  | none => mm.mmapList.find? (·.has addr)

def findVma (addr : Nat) (mm : MmStruct) : Option Vma × MmStruct :=
  match mm.search addr with
  | some vma => (some vma, { mm with mmapCache := some vma })
  | none => (none, mm)

end MmStruct

def checkVmaOverlap (prev next : Vma) : Kern Unit := do
  assert (prev.vmStart < prev.vmEnd) "prev->vm_start < prev->vm_end"
  assert (prev.vmEnd ≤ next.vmStart) "prev->vm_end <= next->vm_start"
  assert (next.vmStart < next.vmEnd) "next->vm_start < next->vm_end"

/-- `check_vma_overlap` of two neighbours, if both are areas and not the header. -/
def checkNeighbours : Option Vma → Option Vma → Kern Unit
  | some prev, some next => checkVmaOverlap prev next
  | _, _ => .ok ()

namespace MmStruct

def insertVmaStruct (vma : Vma) (mm : MmStruct) : Kern MmStruct := do
  assert (vma.vmStart < vma.vmEnd) "vma->vm_start < vma->vm_end"
  let before := mm.mmapList.takeWhile fun prev => prev.vmStart ≤ vma.vmStart
  let after := mm.mmapList.dropWhile fun prev => prev.vmStart ≤ vma.vmStart
  checkNeighbours before.getLast? (some vma)
  checkNeighbours (some vma) after.head?
  .ok { mm with mmapList := before ++ vma :: after, mapCount := mm.mapCount + 1 }

/-- The areas are freed from the front of the list. -/
def freeVmas : List Vma → Mem → Kern Mem
  | [], m => .ok m
  | vma :: rest, m => do
    let m ← m.kfree vma.block
    freeVmas rest m

/-- `mm_destroy` of the `mm_struct` at `block`. -/
def mmDestroy (block : Block) (mm : MmStruct) (m : Mem) : Kern Mem := do
  assert (mm.mmCount = 0) "mm_count(mm) == 0"
  let m ← freeVmas mm.mmapList m
  m.kfree block

def mmMap (addr len : Nat) (vmFlags : BitVec 32) (mm : MmStruct) (m : Mem) : Kern (Int × MmStruct × Mem) :=
  let start := roundDown addr pgSize
  let stop := roundUp (wrap (addr + len)) pgSize
  if ¬ UserAccess start stop then .ok (-eInval, mm, m)
  else
    let (found, mm) := mm.findVma start
    match found with
    | some vma => if stop > vma.vmStart then .ok (-eInval, mm, m) else mapNew start stop mm m
    | none => mapNew start stop mm m
where
  /-- The new area comes into the list. -/
  mapNew (start stop : Nat) (mm : MmStruct) (m : Mem) : Kern (Int × MmStruct × Mem) :=
    match vmaCreate start stop vmFlags m with
    | (some vma, m) => do
      let mm ← mm.insertVmaStruct vma
      .ok (0, mm, m)
    | (none, m) => .ok (-eNoMem, mm, m)

/-- One round of the loop of `dup_mmap`. -/
def dupVma (source : MmStruct) (vma : Vma) (target : MmStruct) (m : Mem) : Kern (Int × MmStruct × Mem) :=
  match vmaCreate vma.vmStart vma.vmEnd vma.vmFlags m with
  | (none, m) => .ok (-eNoMem, target, m)
  | (some nvma, m) => do
    let target ← target.insertVmaStruct nvma
    let dst ← deref target.pgdir
    let src ← deref source.pgdir
    let (ret, m) ← m.copyRange dst src vma.vmStart vma.vmEnd
    .ok (if ret ≠ 0 then -eNoMem else 0, target, m)

def dupVmas (source : MmStruct) : List Vma → MmStruct → Mem → Kern (Int × MmStruct × Mem)
  | [], target, m => .ok (0, target, m)
  | vma :: rest, target, m => do
    let (ret, target, m) ← dupVma source vma target m
    if ret ≠ 0 then .ok (ret, target, m) else dupVmas source rest target m

/-- The areas of `source` are copied from the back of the list. -/
def dupMmap (target source : MmStruct) (m : Mem) : Kern (Int × MmStruct × Mem) :=
  dupVmas source source.mmapList.reverse target m

def unmapVmas (pgdir : Option Frame) : List Vma → Mem → Kern Mem
  | [], m => .ok m
  | vma :: rest, m => do
    let root ← deref pgdir
    let m ← m.unmapRange root vma.vmStart vma.vmEnd
    unmapVmas pgdir rest m

def exitVmas (pgdir : Option Frame) : List Vma → Mem → Kern Mem
  | [], m => .ok m
  | vma :: rest, m => do
    let root ← deref pgdir
    let m ← m.exitRange root vma.vmStart vma.vmEnd
    exitVmas pgdir rest m

def exitMmap (mm : MmStruct) (m : Mem) : Kern Mem := do
  assert (mm.mmCount = 0) "mm != NULL && mm_count(mm) == 0"
  let m ← unmapVmas mm.pgdir mm.mmapList m
  exitVmas mm.pgdir mm.mmapList m

/-- What `user_mem_check` refuses in the area that it found. -/
def refuses (write : Bool) (start : Nat) (vma : Vma) : Bool :=
  start < vma.vmStart || vma.vmFlags &&& (if write then vmWrite else vmRead) = 0 ||
    (write && vma.vmFlags &&& vmStack ≠ 0 && start < wrap (vma.vmStart + pgSize))

/-- The loop of `user_mem_check`. -/
def userMemLoop (write : Bool) (stop : Nat) : Nat → Nat → MmStruct → Kern (Bool × MmStruct)
  | 0, _, _ => .error .diverge
  | fuel + 1, start, mm =>
    if start < stop then
      match mm.findVma start with
      | (some vma, mm) => if refuses write start vma then .ok (false, mm) else userMemLoop write stop fuel vma.vmEnd mm
      | (none, mm) => .ok (false, mm)
    else .ok (true, mm)

def userMemCheck (addr len : Nat) (write : Bool) (mm : MmStruct) : Kern (Bool × MmStruct) :=
  if UserAccess addr (wrap (addr + len)) then userMemLoop write (wrap (addr + len)) (mm.mmapList.length + 2) addr mm
  else .ok (false, mm)

end MmStruct

/-- `user_mem_check` of a process that has no `mm`. -/
def kernMemCheck (addr len : Nat) : Bool := KernAccess addr (wrap (addr + len))

end Ucore
