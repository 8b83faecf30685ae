import Ucore.Strings
import Ucore.Printfmt

/-! `dtb.c`: the search for the memory in a flattened device tree. The memory that can be
read is a function from addresses to bytes. -/

namespace Ucore

def fdtBeginNode : BitVec 32 := 0x00000001
def fdtEndNode : BitVec 32 := 0x00000002
def fdtProp : BitVec 32 := 0x00000003
def fdtNop : BitVec 32 := 0x00000004

/-- The fields of `struct fdt_header` that are read, as they lie in memory. -/
structure FdtHeader where
  offDtStruct : BitVec 32
  offDtStrings : BitVec 32

def fdt32ToCpu (x : BitVec 32) : BitVec 32 :=
  ((x &&& 0xff) <<< 24) ||| (((x >>> 8) &&& 0xff) <<< 16) ||| (((x >>> 16) &&& 0xff) <<< 8) ||| ((x >>> 24) &&& 0xff)

def fdt64ToCpu (x : BitVec 64) : BitVec 64 :=
  ((fdt32ToCpu ((x &&& 0xffffffff).setWidth 32)).setWidth 64 <<< 32) ||| (fdt32ToCpu ((x >>> 32).setWidth 32)).setWidth 64

/-- `(const uint32_t *)(address & ~3)` -/
def wordAlign (address : Int) : Nat := (address % 2 ^ 64 / 4 * 4).toNat

/-- The word whose bytes lie in this order in the memory of a little-endian machine. -/
def littleWord (b0 b1 b2 b3 : BitVec 8) : BitVec 32 :=
  (b3.setWidth 32 <<< 24) ||| (b2.setWidth 32 <<< 16) ||| (b1.setWidth 32 <<< 8) ||| b0.setWidth 32

def littleDouble (low high : BitVec 32) : BitVec 64 := (high.setWidth 64 <<< 32) ||| low.setWidth 64

section Memory

variable (memory : Nat → Option (BitVec 8))

def loadWord (address : Nat) : Kern (BitVec 32) := do
  let b0 ← deref (memory address)
  let b1 ← deref (memory (address + 1))
  let b2 ← deref (memory (address + 2))
  let b3 ← deref (memory (address + 3))
  .ok (littleWord b0 b1 b2 b3)

def loadDouble (address : Nat) : Kern (BitVec 64) := do
  let low ← loadWord memory address
  let high ← loadWord memory (address + 4)
  .ok (littleDouble low high)

/-- The NUL-terminated string at an address. -/
def cString : Nat → Nat → Kern (List Char)
  | 0, _ => .error .diverge
  | fuel + 1, address => do
    let c ← deref (memory address)
    if c = 0 then .ok []
    else do
      let rest ← cString fuel (address + 1)
      .ok (Char.ofNat c.toNat :: rest)

/-- No string is longer than the address space, and no walk over it has more steps. -/
def addressSpace : Nat := 2 ^ 64

variable (stringsBase : Nat)

/-- `in_memory_node && strcmp(prop_name, "reg") == 0` -/
def namesReg (inMemoryNode : Bool) (propNameoff : BitVec 32) : Kern Bool :=
  if inMemoryNode then do
    let propName ← cString memory addressSpace (stringsBase + propNameoff.toNat)
    .ok (decide (strcmp propName ['r', 'e', 'g'] = 0))
  else .ok false

/-- The loop of `extract_memory_info`: what it stores behind `mem_base` and `mem_size`
where it returns 0, and `none` where it returns -1. -/
def scanTokens : Nat → Nat → Bool → Kern (Option (BitVec 64 × BitVec 64))
  | 0, _, _ => .error .diverge
  | fuel + 1, structPtr, inMemoryNode => do
    let word ← loadWord memory structPtr
    let token := fdt32ToCpu word
    let structPtr := structPtr + 4
    if token = fdtBeginNode then do
      let name ← cString memory addressSpace structPtr
      let nameLen := cInt name.length
      let inMemoryNode := if strncmp name ['m', 'e', 'm', 'o', 'r', 'y'] 6 = 0 then true else inMemoryNode
      scanTokens fuel (wordAlign (structPtr + nameLen + 4)) inMemoryNode
    else if token = fdtEndNode then scanTokens fuel structPtr false
    else if token = fdtProp then do
      let word ← loadWord memory structPtr
      let propLen := fdt32ToCpu word
      let word ← loadWord memory (structPtr + 4)
      let propNameoff := fdt32ToCpu word
      let propData := structPtr + 8
      let isReg ← namesReg memory stringsBase inMemoryNode propNameoff
      if isReg ∧ propLen.toNat ≥ 16 then do
        let base ← loadDouble memory propData
        let size ← loadDouble memory (propData + 8)
        .ok (some (fdt64ToCpu base, fdt64ToCpu size))
      else scanTokens fuel (wordAlign (propData + propLen.toNat + 3)) inMemoryNode
    else if token = fdtNop then scanTokens fuel structPtr inMemoryNode
    else .ok none

end Memory

def extractMemoryInfo (memory : Nat → Option (BitVec 8)) (dtbVaddr : Nat) (header : FdtHeader) :
    Kern (Option (BitVec 64 × BitVec 64)) :=
  scanTokens memory (dtbVaddr + (fdt32ToCpu header.offDtStrings).toNat) addressSpace
    (dtbVaddr + (fdt32ToCpu header.offDtStruct).toNat) false

end Ucore
