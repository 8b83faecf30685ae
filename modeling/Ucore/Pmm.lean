import Mathlib
import Ucore.Paging

/-! Physical memory and the page tables in it: `get_pte` and the functions of `pmm.c`
that build on it. What `alloc_pages` and `kmalloc` answer is not decided here: a
state carries the answers to come. The callers in this file rely on memory that is not
in use, and an answer that names memory in use stands for `NULL`. -/

namespace Ucore

/-- `word` are the 512 entries or data words of each frame, and `ref` is the field of
its `struct Page`. `used` are the frames and `blocks` the `kmalloc` blocks that
have been given out and not been given back. -/
structure Mem where
  npage : Nat
  word : Frame → Nat → BitVec 64
  ref : Frame → Int
  used : List Frame
  pages : Nat → Option Frame
  blocks : List Block
  kmallocs : Nat → Option Block
  npage_le : npage ≤ 2 ^ 52

namespace Mem

def setWord (m : Mem) (frame : Frame) (index : Nat) (value : BitVec 64) : Mem :=
  { m with word := Function.update m.word frame (Function.update (m.word frame) index value) }

def setFrame (m : Mem) (frame : Frame) (words : Nat → BitVec 64) : Mem :=
  { m with word := Function.update m.word frame words }

def setRef (m : Mem) (frame : Frame) (value : Int) : Mem :=
  { m with ref := Function.update m.ref frame value }

/-- The frames from `frame` on are not in use. -/
def Free (m : Mem) (frame : Frame) (n : Nat) : Prop :=
  nbase ≤ frame ∧ frame + n ≤ m.npage ∧ ∀ other ∈ List.range' frame n, other ∉ m.used

instance (m : Mem) (frame : Frame) (n : Nat) : Decidable (m.Free frame n) :=
  inferInstanceAs (Decidable (nbase ≤ frame ∧ frame + n ≤ m.npage ∧ ∀ other ∈ List.range' frame n, other ∉ m.used))

/-- What `alloc_pages` answers next to a request for `n` pages names managed pages that are not in use. -/
def Fresh (m : Mem) (n : Nat) : Prop := ∀ page ∈ m.pages 0, m.Free page n

instance (m : Mem) (n : Nat) : Decidable (m.Fresh n) := inferInstanceAs (Decidable (∀ page ∈ m.pages 0, m.Free page n))

/-- The answer of `alloc_pages` as it comes, in use or not. -/
def answerPages (n : Nat) (m : Mem) : Option Frame × Mem :=
  match m.pages 0 with
  | some page => (some page, { m with used := List.range' page n ++ m.used, pages := fun call => m.pages (call + 1) })
  | none => (none, { m with pages := fun call => m.pages (call + 1) })

/-- `alloc_pages` for callers that rely on fresh pages. -/
def allocPages (n : Nat) (m : Mem) : Option Frame × Mem :=
  match m.pages 0 with
  | some page =>
    if m.Free page n then (some page, { m with used := List.range' page n ++ m.used, pages := fun call => m.pages (call + 1) })
    else (none, { m with pages := fun call => m.pages (call + 1) })
  | none => (none, { m with pages := fun call => m.pages (call + 1) })

def allocPage (m : Mem) : Option Frame × Mem := m.allocPages 1

/-- Only frames that are in use can be given back. Their `ref` becomes zero. -/
def freePages (base : Frame) (n : Nat) (m : Mem) : Kern Mem :=
  if ∀ page ∈ List.range' base n, page ∈ m.used then
    .ok { m with
      used := m.used.filter (· ∉ List.range' base n)
      ref := fun page => if page ∈ List.range' base n then 0 else m.ref page }
  else .error .fault

def freePage (page : Frame) (m : Mem) : Kern Mem := m.freePages page 1

def kmalloc (m : Mem) : Option Block × Mem :=
  match m.kmallocs 0 with
  | some block =>
    if block ∉ m.blocks then (some block, { m with blocks := block :: m.blocks, kmallocs := fun call => m.kmallocs (call + 1) })
    else (none, { m with kmallocs := fun call => m.kmallocs (call + 1) })
  | none => (none, { m with kmallocs := fun call => m.kmallocs (call + 1) })

def kfree (block : Block) (m : Mem) : Kern Mem :=
  if block ∈ m.blocks then .ok { m with blocks := m.blocks.erase block } else .error .fault

/-- `KADDR` of the frame of an entry; below `nbase` there is nothing. -/
def kaddr (pte : BitVec 64) (m : Mem) : Kern Frame :=
  if pteFrame pte ≥ m.npage then .error (.panic "KADDR called with invalid pa %08lx")
  else if pteFrame pte < nbase then .error .fault
  else .ok (pteFrame pte)

/-- `pa2page`, and `page2kva` behind it. -/
def pde2page (pde : BitVec 64) (m : Mem) : Kern Frame :=
  if pteFrame pde ≥ m.npage then .error (.panic "pa2page called with invalid pa")
  else if pteFrame pde < nbase then .error .fault
  else .ok (pteFrame pde)

def pte2page (pte : BitVec 64) (m : Mem) : Kern Frame :=
  if valid pte then m.pde2page pte else .error (.panic "pte2page called with invalid pte")

/-- A fresh page becomes the table at an entry of a directory. -/
def addTable (page dir : Frame) (index : Nat) (m : Mem) : Mem :=
  ((m.setRef page 1).setFrame page fun _ => 0).setWord dir index (pteCreate page tableType)

/-- One level of `get_pte`: the table that the entry of a directory points to, which is
made if it is missing and `create` says so. -/
def nextTable (dir : Frame) (index : Nat) (create : Bool) (m : Mem) : Kern (Option Frame × Mem) :=
  if valid (m.word dir index) then do
    let table ← m.kaddr (m.word dir index)
    .ok (some table, m)
  else if create then
    match m.allocPage with
    | (some page, m) => do
      let m := m.addTable page dir index
      let table ← m.kaddr (m.word dir index)
      .ok (some table, m)
    | (none, m) => .ok (none, m)
  else .ok (none, m)

/-- The page table for `la` and the index in it. -/
def getPte (pgdir : Frame) (la : Nat) (create : Bool) (m : Mem) : Kern (Option (Frame × Nat) × Mem) := do
  let (pd0, m) ← m.nextTable pgdir (pdx1 la) create
  match pd0 with
  | none => .ok (none, m)
  | some pd0 => do
    let (pt, m) ← m.nextTable pd0 (pdx0 la) create
    .ok (pt.map fun pt => (pt, ptx la), m)

/-- The entry behind the pointer that `get_pte` gives. -/
def pte (m : Mem) (ptep : Frame × Nat) : BitVec 64 := m.word ptep.1 ptep.2

def setPte (m : Mem) (ptep : Frame × Nat) (value : BitVec 64) : Mem := m.setWord ptep.1 ptep.2 value

def getPage (pgdir : Frame) (la : Nat) (m : Mem) : Kern (Option Frame × Mem) := do
  let (ptep, m) ← m.getPte pgdir la false
  match ptep with
  | some ptep =>
    if valid (m.pte ptep) then do
      let page ← m.pte2page (m.pte ptep)
      .ok (some page, m)
    else .ok (none, m)
  | none => .ok (none, m)

def pageRemovePte (ptep : Frame × Nat) (m : Mem) : Kern Mem :=
  if valid (m.pte ptep) then do
    let page ← m.pte2page (m.pte ptep)
    let m := m.setRef page (m.ref page - 1)
    let m ← onlyIf (m.ref page = 0) (freePage page) m
    .ok (m.setPte ptep 0)
  else .ok m

/-- One round of the loop of `unmap_range`. -/
def unmapPage (pgdir : Frame) (start : Nat) (m : Mem) : Kern (Nat × Mem) := do
  let (ptep, m) ← m.getPte pgdir start false
  match ptep with
  | none => .ok (roundDown (wrap (start + ptSize)) ptSize, m)
  | some ptep => do
    let m ← onlyIf (m.pte ptep ≠ 0) (pageRemovePte ptep) m
    .ok (wrap (start + pgSize), m)

def unmapLoop (pgdir : Frame) (stop : Nat) : Nat → Nat → Mem → Kern Mem
  | 0, _, _ => .error .diverge
  | fuel + 1, start, m => do
    let (start, m) ← m.unmapPage pgdir start
    if start ≠ 0 ∧ start < stop then unmapLoop pgdir stop fuel start m else .ok m

/-- How often the loops over the pages of a range go round at most. -/
def pageFuel (stop : Nat) : Nat := stop / pgSize + 1

/-- The assertions at the start of `unmap_range`, `exit_range` and `copy_range`. -/
def assertRange (start stop : Nat) : Kern Unit := do
  assert (start % pgSize = 0 ∧ stop % pgSize = 0) "start % PGSIZE == 0 && end % PGSIZE == 0"
  assert (UserAccess start stop) "USER_ACCESS(start, end)"

def unmapRange (pgdir : Frame) (start stop : Nat) (m : Mem) : Kern Mem := do
  assertRange start stop
  unmapLoop pgdir stop (pageFuel stop) start m

/-- One round of the inner loop of `exit_range`; the flag is `free_pd0`. -/
def exitTable (pd0 : Frame) (d0start : Nat) (freePd0 : Bool) (m : Mem) : Kern (Bool × Mem) :=
  if valid (m.word pd0 (pdx0 d0start)) then do
    let pt ← m.pde2page (m.word pd0 (pdx0 d0start))
    if ∃ index ∈ List.range 512, valid (m.word pt index) = true then .ok (freePd0, m)
    else do
      let m ← m.freePage pt
      .ok (freePd0, m.setWord pd0 (pdx0 d0start) 0)
  else .ok (false, m)

def exitTables (pd0 : Frame) (d1start stop : Nat) : Nat → Nat → Bool → Mem → Kern (Bool × Mem)
  | 0, _, _, _ => .error .diverge
  | fuel + 1, d0start, freePd0, m => do
    let (freePd0, m) ← m.exitTable pd0 d0start freePd0
    let d0start := wrap (d0start + ptSize)
    if d0start ≠ 0 ∧ d0start < wrap (d1start + pdSize) ∧ d0start < stop then exitTables pd0 d1start stop fuel d0start freePd0 m
    else .ok (freePd0, m)

/-- One round of the outer loop of `exit_range`. -/
def exitDir (pgdir : Frame) (d1start d0start stop : Nat) (m : Mem) : Kern Mem :=
  if valid (m.word pgdir (pdx1 d1start)) then do
    let pde1 := m.word pgdir (pdx1 d1start)
    let pd0 ← m.pde2page pde1
    let (freePd0, m) ← m.exitTables pd0 d1start stop 512 d0start true
    if freePd0 then do
      let m ← m.freePage pd0
      .ok (m.setWord pgdir (pdx1 d1start) 0)
    else .ok m
  else .ok m

def exitDirs (pgdir : Frame) (stop : Nat) : Nat → Nat → Nat → Mem → Kern Mem
  | 0, _, _, _ => .error .diverge
  | fuel + 1, d1start, d0start, m => do
    let m ← m.exitDir pgdir d1start d0start stop
    let d1start := wrap (d1start + pdSize)
    if d1start ≠ 0 ∧ d1start < stop then exitDirs pgdir stop fuel d1start d1start m else .ok m

def exitRange (pgdir : Frame) (start stop : Nat) (m : Mem) : Kern Mem := do
  assertRange start stop
  exitDirs pgdir stop (pageFuel stop) (roundDown start pdSize) (roundDown start ptSize) m

def pageRemove (pgdir : Frame) (la : Nat) (m : Mem) : Kern Mem := do
  let (ptep, m) ← m.getPte pgdir la false
  match ptep with
  | some ptep => m.pageRemovePte ptep
  | none => .ok m

/-- What `page_insert` does about the page that the entry points to before. -/
def replacePage (page : Frame) (ptep : Frame × Nat) (m : Mem) : Kern Mem := do
  let p ← m.pte2page (m.pte ptep)
  if p = page then .ok (m.setRef page (m.ref page - 1)) else m.pageRemovePte ptep

def pageInsert (pgdir page : Frame) (la : Nat) (perm : BitVec 32) (m : Mem) : Kern (Int × Mem) := do
  let (ptep, m) ← m.getPte pgdir la true
  match ptep with
  | none => .ok (-eNoMem, m)
  | some ptep => do
    let m := m.setRef page (m.ref page + 1)
    let m ← onlyIf (valid (m.pte ptep) = true) (replacePage page ptep) m
    .ok (0, m.setPte ptep (pteCreate page (1 ||| perm)))

/-- `copy_range` for a page that is mapped: `ptep` is its entry. -/
def copyMapped (target : Frame) (start : Nat) (ptep : Frame × Nat) (m : Mem) : Kern (Int × Mem) := do
  let (nptep, m) ← m.getPte target start true
  match nptep with
  | none => .ok (-eNoMem, m)
  | some _ => do
    let perm := (m.pte ptep &&& pteUser).setWidth 32
    let page ← m.pte2page (m.pte ptep)
    match m.allocPage with
    | (none, _) => .error (.assertion "npage != NULL")
    | (some npage, m) => do
      let (ret, m) ← (m.setFrame npage (m.word page)).pageInsert target npage start perm
      let m ← onlyIf (ret ≠ 0) (freePage npage) m
      .ok (ret, m)

/-- One round of the loop of `copy_range`. -/
def copyPage (target source : Frame) (start : Nat) (m : Mem) : Kern (Int × Nat × Mem) := do
  let (ptep, m) ← m.getPte source start false
  match ptep with
  | none => .ok (0, roundDown (wrap (start + ptSize)) ptSize, m)
  | some ptep =>
    if valid (m.pte ptep) then do
      let (ret, m) ← m.copyMapped target start ptep
      .ok (ret, wrap (start + pgSize), m)
    else .ok (0, wrap (start + pgSize), m)

def copyLoop (target source : Frame) (stop : Nat) : Nat → Nat → Mem → Kern (Int × Mem)
  | 0, _, _ => .error .diverge
  | fuel + 1, start, m => do
    let (ret, start, m) ← m.copyPage target source start
    if ret ≠ 0 then .ok (ret, m)
    else if start ≠ 0 ∧ start < stop then copyLoop target source stop fuel start m else .ok (0, m)

def copyRange (target source : Frame) (start stop : Nat) (m : Mem) : Kern (Int × Mem) := do
  assertRange start stop
  copyLoop target source stop (pageFuel stop) start m

def pgdirAllocPage (pgdir : Frame) (la : Nat) (perm : BitVec 32) (m : Mem) : Kern (Option Frame × Mem) :=
  match m.allocPage with
  | (none, m) => .ok (none, m)
  | (some page, m) => do
    let (ret, m) ← m.pageInsert pgdir page la perm
    if ret ≠ 0 then do
      let m ← m.freePage page
      .ok (none, m)
    else do
      assert (m.ref page = 1) "page_ref(page) == 1"
      .ok (some page, m)

end Mem

end Ucore
