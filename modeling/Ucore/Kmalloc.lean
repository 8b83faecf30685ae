import Mathlib
import Ucore.Pmm

/-! `kmalloc` and `kfree` of `kmalloc.c`: the SLOB allocator, and whole pages for what is
too large for it. Every caller of `slob_alloc` passes `align == 0`, so its alignment
branch is left out. The pages that `alloc_pages` answers are taken as they come. -/

namespace Ucore

/-- `PHYSICAL_MEMORY_OFFSET`. The window behind it ends at 2^64 and all memory is in it, so
no address and no number of units is too large for its type. -/
def physicalMemoryOffset : Nat := 0xFFFFFFFF40000000

def page2kva (page : Frame) : Nat := physicalMemoryOffset + page * pgSize

def kva2page (kva : Nat) : Frame := (kva - physicalMemoryOffset) / pgSize

/-- `SLOB_UNIT`, the size of a `slob_t`. -/
def slobUnit : Nat := 16

def slobUnits (size : Nat) : Nat := wrap (size + slobUnit - 1) / slobUnit

/-- `sizeof(bigblock_t)` -/
def bigblockSize : Nat := 24

/-- The fields of the `slob_t`s and `bigblock_t`s by their addresses. `mem` has the page
allocator, and `grown` are the pages that SLOB got from it. -/
structure Heap where
  mem : Mem
  arena : Nat
  units : Nat → Nat
  next : Nat → Nat
  slobfree : Nat
  bigblocks : Option Nat
  order : Nat → Nat
  pages : Nat → Nat
  bbNext : Nat → Option Nat
  grown : List Nat

namespace Heap

def setUnits (h : Heap) (b : Nat) (value : Nat) : Heap := { h with units := Function.update h.units b value }

def setNext (h : Heap) (b : Nat) (value : Nat) : Heap := { h with next := Function.update h.next b value }

/-- The initial `arena` and `slobfree`. -/
def initial (arena : Nat) (mem : Mem) : Heap where
  mem := mem
  arena := arena
  units _ := 1
  next _ := arena
  slobfree := arena
  bigblocks := none
  order _ := 0
  pages _ := 0
  bbNext _ := none
  grown := []

/-- `cur + units` -/
def plus (cur : Nat) (units : Nat) : Nat := cur + slobUnit * units

/-- `__slob_get_free_pages` -/
def slobGetFreePages (order : Nat) (h : Heap) : Option Nat × Heap :=
  match h.mem.answerPages (2 ^ order) with
  | (some page, mem) => (some (page2kva page), { h with mem := mem })
  | (none, mem) => (none, { h with mem := mem })

/-- `__slob_free_pages` -/
def slobFreePages (kva : Nat) (order : Nat) (h : Heap) : Kern Heap := do
  let mem ← h.mem.freePages (kva2page kva) (2 ^ order)
  .ok { h with mem := mem }

/-- The list has at most one block for every unit that there is. -/
def fuel (h : Heap) : Nat := 256 * h.grown.length + 2

/-- The search of `slob_free` for the reinsertion point. -/
def slobFreeLoop (b : Nat) (h : Heap) : Nat → Nat → Kern Nat
  | 0, _ => .error .diverge
  | fuel + 1, cur =>
    if b > cur ∧ b < h.next cur then .ok cur
    else if cur ≥ h.next cur ∧ (b > cur ∨ b < h.next cur) then .ok cur
    else slobFreeLoop b h fuel (h.next cur)

/-- `slob_free` merges the block with the one behind it, or links it to that. -/
def joinNext (b cur : Nat) (h : Heap) : Heap :=
  if plus b (h.units b) = h.next cur then
    (h.setUnits b (h.units b + h.units (h.next cur))).setNext b (h.next (h.next cur))
  else h.setNext b (h.next cur)

/-- `slob_free` merges the block into the one before it, or links that to it. -/
def joinPrev (b cur : Nat) (h : Heap) : Heap :=
  if plus cur (h.units cur) = b then
    (h.setUnits cur (h.units cur + h.units b)).setNext cur (h.next b)
  else h.setNext cur b

/-- `slob_free` behind the computation of `b->units`. -/
def reinsert (b : Nat) (h : Heap) : Kern Heap := do
  let cur ← h.slobFreeLoop b h.fuel h.slobfree
  .ok { (h.joinNext b cur).joinPrev b cur with slobfree := cur }

def slobFree (block : Nat) (size : Nat) (h : Heap) : Kern Heap :=
  if block = 0 then .ok h
  else if size ≠ 0 then (h.setUnits block (slobUnits size)).reinsert block
  else h.reinsert block

/-- `slob_alloc` takes the units from the block `cur` behind `prev`. -/
def take (prev cur : Nat) (units : Nat) (h : Heap) : Heap :=
  if h.units cur = units then { h.setNext prev (h.next cur) with slobfree := prev }
  else
    let h := h.setNext prev (plus cur units)
    let h := h.setUnits (h.next prev) (h.units cur - units)
    let h := h.setNext (h.next prev) (h.next cur)
    { h.setUnits cur units with slobfree := prev }

/-- The page that `slob_alloc` puts into the list when it has gone round. -/
def grow (kva : Nat) (h : Heap) : Kern Heap := { h with grown := kva :: h.grown }.slobFree kva pgSize

/-- The loop of `slob_alloc`. -/
def slobAllocLoop (size units : Nat) : Nat → Nat → Nat → Heap → Kern (Option Nat × Heap)
  | 0, _, _, _ => .error .diverge
  | fuel + 1, prev, cur, h =>
    if h.units cur ≥ units then .ok (some cur, h.take prev cur units)
    else if cur = h.slobfree then
      if size = pgSize then .ok (none, h)
      else
        match h.slobGetFreePages 0 with
        | (none, h) => .ok (none, h)
        | (some kva, h) => do
          let h ← h.grow kva
          slobAllocLoop size units fuel h.slobfree (h.next h.slobfree) h
    else slobAllocLoop size units fuel cur (h.next cur) h

/-- Two rounds are enough, because the second one finds the page that came in. -/
def slobAlloc (size : Nat) (h : Heap) : Kern (Option Nat × Heap) := do
  assert (wrap (size + slobUnit) < pgSize) "(size + SLOB_UNIT) < PAGE_SIZE"
  slobAllocLoop size (slobUnits size) (2 * h.fuel + 256) h.slobfree (h.next h.slobfree) h

/-- The value an `int` keeps of a `size_t`. -/
def toInt (size : Nat) : Int := (BitVec.ofNat 32 size).toInt

def findOrderLoop : Nat → Int → Nat → Kern Nat
  | 0, _, _ => .error .diverge
  | fuel + 1, size, order => if size > 4096 then findOrderLoop fuel (size / 2) (order + 1) else .ok order

/-- An `int` is halved at most 31 times. -/
def findOrder (size : Int) : Kern Nat := findOrderLoop 32 size 0

/-- `__kmalloc` for a size that SLOB does not take: `bb` is the new `bigblock_t`. -/
def kmallocPages (size : Nat) (bb : Nat) (h : Heap) : Kern (Option Nat × Heap) := do
  let order ← findOrder (toInt size)
  let h := { h with order := Function.update h.order bb order }
  match h.slobGetFreePages order with
  | (some pages, h) =>
    .ok (some pages, { h with
      pages := Function.update h.pages bb pages
      bbNext := Function.update h.bbNext bb h.bigblocks
      bigblocks := some bb })
  | (none, h) => do
    let h ← h.slobFree bb bigblockSize
    .ok (none, h)

def kmalloc (size : Nat) (h : Heap) : Kern (Option Nat × Heap) :=
  if size < pgSize - slobUnit then do
    let (m, h) ← h.slobAlloc (size + slobUnit)
    .ok (m.map (plus · 1), h)
  else do
    let (bb, h) ← h.slobAlloc bigblockSize
    match bb with
    | none => .ok (none, h)
    | some bb => h.kmallocPages size bb

/-- The search of `kfree` in `bigblocks`, with the `bigblock_t` in front of the one that is
found. -/
def findBig (block : Nat) (h : Heap) : Nat → Option Nat → Option Nat → Kern (Option (Option Nat × Nat))
  | _, _, none => .ok none
  | 0, _, some _ => .error .diverge
  | fuel + 1, last, some bb => if h.pages bb = block then .ok (some (last, bb)) else findBig block h fuel (some bb) (h.bbNext bb)

/-- `*last = bb->next` -/
def unlinkBig (last : Option Nat) (bb : Nat) (h : Heap) : Heap :=
  match last with
  | none => { h with bigblocks := h.bbNext bb }
  | some prev => { h with bbNext := Function.update h.bbNext prev (h.bbNext bb) }

def kfree (block : Nat) (h : Heap) : Kern Heap :=
  if block = 0 then .ok h
  else if block % pgSize = 0 then do
    match ← h.findBig block h.fuel none h.bigblocks with
    | some (last, bb) => do
      let h := h.unlinkBig last bb
      let h ← h.slobFreePages block (h.order bb)
      h.slobFree bb bigblockSize
    | none => h.slobFree (block - slobUnit) 0
  else h.slobFree (block - slobUnit) 0

/-- The value that `ksize` returns is an `unsigned int`. -/
def toUnsigned (bytes : Nat) : Nat := bytes % 2 ^ 32

/-- The search of `ksize` in `bigblocks` is the one of `kfree`. -/
def ksize (block : Nat) (h : Heap) : Kern Nat :=
  if block = 0 then .ok 0
  else if block % pgSize = 0 then do
    match ← h.findBig block h.fuel none h.bigblocks with
    | some (_, bb) => .ok (toUnsigned (pgSize * 2 ^ h.order bb))
    | none => .ok (toUnsigned (h.units (block - slobUnit) * slobUnit))
  else .ok (toUnsigned (h.units (block - slobUnit) * slobUnit))

end Heap

end Ucore
