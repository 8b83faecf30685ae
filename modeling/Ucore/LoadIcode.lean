import Mathlib
import Ucore.Vmm

/-! `load_icode` of `proc.c` up to the address space that it builds: the ELF headers of
`elf.h`, the segments, and the user stack. -/

namespace Ucore

/-- A word with its byte `index` replaced. -/
def setByte (word : BitVec 64) (index : Nat) (value : BitVec 8) : BitVec 64 :=
  (word &&& ~~~(0xFF#64 <<< (8 * index))) ||| (value.setWidth 64 <<< (8 * index))

def getByte (word : BitVec 64) (index : Nat) : BitVec 8 := (word >>> (8 * index)).setWidth 8

namespace Mem

def byte (m : Mem) (page : Frame) (offset : Nat) : BitVec 8 := getByte (m.word page (offset / 8)) (offset % 8)

def setByte (m : Mem) (page : Frame) (offset : Nat) (value : BitVec 8) : Mem :=
  m.setWord page (offset / 8) (Ucore.setByte (m.word page (offset / 8)) (offset % 8) value)

/-- The entry that the hardware finds for an address below `kernWindow`. -/
def walk (satp : Frame) (addr : Nat) (m : Mem) : Option (BitVec 64) :=
  if Canonical addr then do
    let pd0 ← entry (m.word satp (pdx1 addr))
    let pt ← entry (m.word pd0 (pdx0 addr))
    let pte := m.word pt (ptx addr)
    if valid pte then some pte else none
  else none

end Mem

/-- A program at the address `binary`. `bytes` are in the memory of the kernel, where only
the program's own bytes can be read; for a program of a user process there are none. -/
structure Image where
  binary : Nat
  bytes : List (BitVec 8)

namespace Image

/-- The byte at `binary + offset`, read with the page table in `satp`. -/
def byte (image : Image) (satp : Frame) (m : Mem) (offset : Nat) : Kern (BitVec 8) :=
  let addr := wrap (image.binary + offset)
  if kernWindow ≤ addr then deref image.bytes[wrap offset]?
  else
    match m.walk satp addr with
    | some pte => if pte &&& pteR ≠ 0 then .ok (m.byte (pteFrame pte) (addr % pgSize)) else .error (.unmapped addr)
    | none => .error (.unmapped addr)

/-- A little-endian number of `n` bytes. -/
def number (image : Image) (satp : Frame) (m : Mem) (offset : Nat) : Nat → Kern Nat
  | 0 => .ok 0
  | n + 1 => do
    let low ← image.byte satp m offset
    let high ← image.number satp m (offset + 1) n
    .ok (low.toNat + 256 * high)

def eMagic (image : Image) (satp : Frame) (m : Mem) : Kern Nat := image.number satp m 0 4

def eEntry (image : Image) (satp : Frame) (m : Mem) : Kern Nat := image.number satp m 24 8

def ePhoff (image : Image) (satp : Frame) (m : Mem) : Kern Nat := image.number satp m 32 8

def ePhnum (image : Image) (satp : Frame) (m : Mem) : Kern Nat := image.number satp m 56 2

end Image

/-- Which of the two fields in front of the program headers `load_icode` loads first. -/
inductive HeaderOrder where
  | phoffFirst
  | magicFirst

/-- `ELF_MAGIC` -/
def elfMagic : Nat := 0x464C457F

/-- `sizeof(struct elfhdr)` -/
def elfhdrSize : Nat := 64

/-- `sizeof(struct proghdr)` -/
def proghdrSize : Nat := 56

/-- `ELF_PT_LOAD` -/
def elfPtLoad : Nat := 1

def elfPfX : BitVec 32 := 1

def elfPfW : BitVec 32 := 2

def elfPfR : BitVec 32 := 4

/-- The fields of `struct proghdr` that are read. -/
structure ProgHdr where
  pFlags : BitVec 32
  pOffset : Nat
  pVa : Nat
  pFilesz : Nat
  pMemsz : Nat
  deriving DecidableEq

/-- The header at `binary + ph`, if it is `PT_LOAD`. -/
def Image.proghdr (image : Image) (satp : Frame) (m : Mem) (ph : Nat) : Kern (Option ProgHdr) := do
  let pType ← image.number satp m ph 4
  if pType ≠ elfPtLoad then .ok none
  else do
    let pFlags ← image.number satp m (ph + 4) 4
    let pOffset ← image.number satp m (ph + 8) 8
    let pVa ← image.number satp m (ph + 16) 8
    let pFilesz ← image.number satp m (ph + 32) 8
    let pMemsz ← image.number satp m (ph + 40) 8
    .ok (some ⟨BitVec.ofNat 32 pFlags, pOffset, pVa, pFilesz, pMemsz⟩)

namespace ProgHdr

def vmFlags (ph : ProgHdr) : BitVec 32 :=
  (if ph.pFlags &&& elfPfX ≠ 0 then vmExec else 0) ||| (if ph.pFlags &&& elfPfW ≠ 0 then vmWrite else 0) |||
    (if ph.pFlags &&& elfPfR ≠ 0 then vmRead else 0)

/-- The permissions of the pages, in the bits of a page-table entry. -/
def perm (ph : ProgHdr) : BitVec 32 :=
  0x011 ||| (if ph.vmFlags &&& vmRead ≠ 0 then 0x002 else 0) ||| (if ph.vmFlags &&& vmWrite ≠ 0 then 0x006 else 0) |||
    (if ph.vmFlags &&& vmExec ≠ 0 then 0x008 else 0)

end ProgHdr

namespace Mem

/-- `memcpy` from the image into a page, byte after byte. -/
def copyBytes (image : Image) (satp page : Frame) : Nat → Nat → Nat → Mem → Kern Mem
  | _, _, 0, m => .ok m
  | off, src, size + 1, m => do
    let value ← image.byte satp m src
    copyBytes image satp page (off + 1) (src + 1) size (m.setByte page off value)

def zeroBytes (page : Frame) : Nat → Nat → Mem → Mem
  | _, 0, m => m
  | off, size + 1, m => zeroBytes page (off + 1) size (m.setByte page off 0)

/-- A write that leaves the page would hit other memory. -/
def memcpyPage (image : Image) (satp page : Frame) (off src size : Nat) (m : Mem) : Kern Mem :=
  if off + size > pgSize then .error .fault else m.copyBytes image satp page off src size

def memsetPage (page : Frame) (off size : Nat) (m : Mem) : Kern Mem :=
  if off + size > pgSize then .error .fault else .ok (m.zeroBytes page off size)

end Mem

/-- The cursors of the loops over a segment: `page` is the page allocated last, and `src`
is `from`, relative to the image. -/
structure Cursor where
  start : Nat
  la : Nat
  src : Nat
  page : Option Frame

namespace Cursor

/-- How many bytes of the page at `la` the segment takes, from `start` on and before `stop`. -/
def size (c : Cursor) (stop : Nat) : Nat :=
  let rest := minus pgSize (minus c.start c.la)
  if stop < wrap (c.la + pgSize) then minus rest (minus (wrap (c.la + pgSize)) stop) else rest

/-- Behind the `size` bytes of a page. -/
def next (c : Cursor) (page : Frame) (size : Nat) : Cursor :=
  ⟨wrap (c.start + size), wrap (c.la + pgSize), wrap (c.src + size), some page⟩

end Cursor

open Mem

/-- The loop that copies TEXT and DATA. Without memory the result is `none`. -/
def loadData (image : Image) (satp pgdir : Frame) (perm : BitVec 32) (stop : Nat) : Nat → Cursor → Mem → Kern (Option Cursor × Mem)
  | 0, _, _ => .error .diverge
  | fuel + 1, c, m =>
    if c.start < stop then do
      let (page, m) ← m.pgdirAllocPage pgdir c.la perm
      match page with
      | none => .ok (none, m)
      | some page => do
        let m ← m.memcpyPage image satp page (minus c.start c.la) c.src (c.size stop)
        loadData image satp pgdir perm stop fuel (c.next page (c.size stop)) m
    else .ok (some c, m)

/-- The rest of the last page of DATA becomes BSS. The flag says that nothing is left to do. -/
def loadBssHead (stop : Nat) (c : Cursor) (m : Mem) : Kern (Bool × Cursor × Mem) :=
  if c.start < c.la then
    if c.start = stop then .ok (true, c, m)
    else do
      let page ← deref c.page
      let off := minus (wrap (c.start + pgSize)) c.la
      let size := if stop < c.la then minus (minus pgSize off) (minus c.la stop) else minus pgSize off
      let m ← m.memsetPage page off size
      let start := wrap (c.start + size)
      assert ((stop < c.la && start = stop) || (stop ≥ c.la && start = c.la))
        "(end < la && start == end) || (end >= la && start == la)"
      .ok (false, { c with start := start }, m)
  else .ok (false, c, m)

/-- The loop that builds BSS. -/
def loadBss (pgdir : Frame) (perm : BitVec 32) (stop : Nat) : Nat → Cursor → Mem → Kern (Option Cursor × Mem)
  | 0, _, _ => .error .diverge
  | fuel + 1, c, m =>
    if c.start < stop then do
      let (page, m) ← m.pgdirAllocPage pgdir c.la perm
      match page with
      | none => .ok (none, m)
      | some page => do
        let m ← m.memsetPage page (minus c.start c.la) (c.size stop)
        loadBss pgdir perm stop fuel (c.next page (c.size stop)) m
    else .ok (some c, m)

/-- The pages of a segment whose area is in the list. -/
def loadPages (image : Image) (satp pgdir : Frame) (ph : ProgHdr) (m : Mem) : Kern (Int × Mem) := do
  let dataEnd := wrap (ph.pVa + ph.pFilesz)
  let (copied, m) ← loadData image satp pgdir ph.perm dataEnd (pageFuel dataEnd + 1) ⟨ph.pVa, roundDown ph.pVa pgSize, ph.pOffset, none⟩ m
  match copied with
  | none => .ok (-eNoMem, m)
  | some c => do
    let bssEnd := wrap (ph.pVa + ph.pMemsz)
    let (done, c, m) ← loadBssHead bssEnd c m
    if done then .ok (0, m)
    else do
      let (built, m) ← loadBss pgdir ph.perm bssEnd (pageFuel bssEnd + 1) c m
      .ok (if built.isNone then -eNoMem else 0, m)

/-- One program header that is `PT_LOAD`. -/
def loadSegment (image : Image) (satp pgdir : Frame) (ph : ProgHdr) (mm : MmStruct) (m : Mem) : Kern (Int × MmStruct × Mem) :=
  if ph.pFilesz > ph.pMemsz then .ok (-eInvalElf, mm, m)
  else do
    let (ret, mm, m) ← mm.mmMap ph.pVa ph.pMemsz ph.vmFlags m
    if ret ≠ 0 then .ok (ret, mm, m)
    else do
      let (ret, m) ← loadPages image satp pgdir ph m
      .ok (ret, mm, m)

/-- The loop over the program headers. `ph` and `stop` are addresses. -/
def loadSegments (image : Image) (satp pgdir : Frame) (stop : Nat) : Nat → Nat → MmStruct → Mem → Kern (Int × MmStruct × Mem)
  | 0, _, _, _ => .error .diverge
  | fuel + 1, ph, mm, m =>
    if ph < stop then do
      match ← image.proghdr satp m (minus ph image.binary) with
      | none => loadSegments image satp pgdir stop fuel (wrap (ph + proghdrSize)) mm m
      | some header => do
        let (ret, mm, m) ← loadSegment image satp pgdir header mm m
        if ret ≠ 0 then .ok (ret, mm, m) else loadSegments image satp pgdir stop fuel (wrap (ph + proghdrSize)) mm m
    else .ok (0, mm, m)

/-- The page of the user stack that is `index` pages below its top. -/
def stackPage (pgdir : Frame) (index : Nat) (text : String) (m : Mem) : Kern Mem := do
  let (page, m) ← m.pgdirAllocPage pgdir (ustackTop - index * pgSize) 0x01F
  assert page.isSome text
  .ok m

/-- The user stack: an area of `USTACKSIZE` and the four pages on top of it. -/
def loadStack (pgdir : Frame) (mm : MmStruct) (m : Mem) : Kern (Int × MmStruct × Mem) := do
  let (ret, mm, m) ← mm.mmMap (ustackTop - ustackSize) ustackSize (vmRead ||| vmWrite ||| vmStack) m
  if ret ≠ 0 then .ok (ret, mm, m)
  else do
    let m ← stackPage pgdir 1 "pgdir_alloc_page(mm->pgdir, USTACKTOP - PGSIZE, PTE_USER) != NULL" m
    let m ← stackPage pgdir 2 "pgdir_alloc_page(mm->pgdir, USTACKTOP - 2 * PGSIZE, PTE_USER) != NULL" m
    let m ← stackPage pgdir 3 "pgdir_alloc_page(mm->pgdir, USTACKTOP - 3 * PGSIZE, PTE_USER) != NULL" m
    let m ← stackPage pgdir 4 "pgdir_alloc_page(mm->pgdir, USTACKTOP - 4 * PGSIZE, PTE_USER) != NULL" m
    .ok (0, mm, m)

/-- Steps 3 and 4 of `load_icode`, for an image with ELF magic. -/
def loadImage (image : Image) (satp : Frame) (phoff : Nat) (pgdir : Frame) (mm : MmStruct) (m : Mem) : Kern (Int × MmStruct × Mem) := do
  let phnum ← image.ePhnum satp m
  let ph := wrap (image.binary + phoff)
  let (ret, mm, m) ← loadSegments image satp pgdir (wrap (ph + phnum * proghdrSize)) (phnum + 1) ph mm m
  if ret ≠ 0 then .ok (ret, mm, m) else loadStack pgdir mm m

end Ucore
