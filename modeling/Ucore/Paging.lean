import Mathlib
import Ucore.Halt

/-! Addresses and page-table entries, from `mmu.h` and `memlayout.h`. An address is a
number below 2^64, and arithmetic on addresses wraps around. A physical page is
its number `PPN`. -/

namespace Ucore

abbrev Frame := Nat

/-- What `kmalloc` gives out, and other pointers into the kernel. -/
abbrev Block := Nat

def pgSize : Nat := 4096

/-- `PTSIZE`, the bytes that one page table maps. -/
def ptSize : Nat := pgSize * 512

/-- `PDSIZE`, the bytes that one level 0 page directory maps. -/
def pdSize : Nat := ptSize * 512

def userBase : Nat := 0x00200000

def userTop : Nat := 0x80000000

def ustackTop : Nat := userTop

def ustackSize : Nat := 256 * pgSize

def kernBase : Nat := 0xFFFFFFFFC0200000

def kernTop : Nat := kernBase + 0x7E00000

/-- Where the huge page of `boot_page_table_sv39` begins. -/
def kernWindow : Nat := 0xFFFFFFFFC0000000

/-- The first physical page, `nbase`. -/
def nbase : Frame := 0x80000

/-- The value a 64-bit register keeps of `value`. -/
def wrap (value : Nat) : Nat := value % 2 ^ 64

/-- The 64-bit difference. -/
def minus (a b : Nat) : Nat := wrap (a + (2 ^ 64 - b))

def roundDown (a n : Nat) : Nat := a - a % n

def roundUp (a n : Nat) : Nat := roundDown (wrap (a + n - 1)) n

/-- `USER_ACCESS` -/
def UserAccess (start stop : Nat) : Prop := userBase ≤ start ∧ start < stop ∧ stop ≤ userTop

/-- `KERN_ACCESS` -/
def KernAccess (start stop : Nat) : Prop := kernBase ≤ start ∧ start < stop ∧ stop ≤ kernTop

instance (start stop : Nat) : Decidable (UserAccess start stop) :=
  inferInstanceAs (Decidable (userBase ≤ start ∧ start < stop ∧ stop ≤ userTop))

instance (start stop : Nat) : Decidable (KernAccess start stop) :=
  inferInstanceAs (Decidable (kernBase ≤ start ∧ start < stop ∧ stop ≤ kernTop))

/-- An address whose high bits are all like bit 38; no other one can be mapped. -/
def Canonical (addr : Nat) : Prop := addr < 2 ^ 38 ∨ 2 ^ 64 - 2 ^ 38 ≤ addr

instance (addr : Nat) : Decidable (Canonical addr) := inferInstanceAs (Decidable (addr < 2 ^ 38 ∨ 2 ^ 64 - 2 ^ 38 ≤ addr))

/-- `PDX1`, the index into a level 1 page directory. -/
def pdx1 (la : Nat) : Nat := la / 2 ^ 30 % 512

/-- `PDX0`, the index into a level 0 page directory. -/
def pdx0 (la : Nat) : Nat := la / 2 ^ 21 % 512

/-- `PTX`, the index into a page table. -/
def ptx (la : Nat) : Nat := la / 2 ^ 12 % 512

def pteV : BitVec 64 := 0x001

def pteR : BitVec 64 := 0x002

def pteW : BitVec 64 := 0x004

def pteX : BitVec 64 := 0x008

def pteU : BitVec 64 := 0x010

/-- `PTE_USER` -/
def pteUser : BitVec 64 := pteR ||| pteW ||| pteX ||| pteU ||| pteV

/-- `*ptep & PTE_V` -/
def valid (pte : BitVec 64) : Bool := pte &&& pteV ≠ 0

/-- The `int` that becomes part of the entry is extended with its sign. -/
def pteCreate (ppn : Frame) (type : BitVec 32) : BitVec 64 := (BitVec.ofNat 64 ppn <<< 10) ||| pteV ||| type.signExtend 64

def pteAddr (pte : BitVec 64) : BitVec 64 := (pte &&& ~~~0x3FF#64) <<< 2

/-- `PPN(PTE_ADDR(pte))` -/
def pteFrame (pte : BitVec 64) : Frame := (pteAddr pte >>> 12).toNat

/-- The type of the entries for page tables, `PTE_U | PTE_V`. -/
def tableType : BitVec 32 := 0x011

/-- The frame that a valid entry points to. -/
def entry (pte : BitVec 64) : Option Frame := if valid pte then some (pteFrame pte) else none

end Ucore
