import Mathlib
import Ucore.Proofs.ElfImage

/-! What `load_icode` takes for granted. It never looks at the size of the program, so the tables and segments must lie in it; a sum that wraps around
makes it write outside of a page, and a segment that reaches into an area from below runs into the assertions of `insert_vma_struct`. Beyond that it
gives an error or loads the program. -/

namespace Ucore
open Lib

/-- The program is in the memory of the kernel and holds an ELF header. If its magic number is right, its program headers and segments are in it, no
segment ends above 2^64, none reaches from below into the area of one in front of it, and none begins in the stack behind its first page. -/
structure Image.Regular (image : Image) (satp : Frame) (m : Mem) (size : Nat) : Prop where
  whole : image.bytes.length = size
  window : kernWindow ≤ image.binary
  word : image.binary + size < 2 ^ 64
  header : elfhdrSize ≤ size
  loadable : image.eMagic satp m = .ok elfMagic → image.Loadable satp m size
  ordered : image.eMagic satp m = .ok elfMagic → ∀ phoff phnum, image.ePhoff satp m = .ok phoff → image.ePhnum satp m = .ok phnum →
    image.Ordered satp m phoff phnum

/-- Any halt but the assertions about the pages of the stack. -/
def Halt.Unsafe (halt : Halt) : Prop := ∀ text ∈ stackTexts, halt ≠ .assertion text

variable {image : Image} {vm vm' : Vm} {order : HeaderOrder} {satp c : Frame} {m m₀ : Mem} {size offset n : Nat} {header : ProgHdr}

section Inside

variable (window : kernWindow ≤ image.binary) (word : image.binary + image.bytes.length < 2 ^ 64)
include window word

private theorem byte_ok (inside : offset < image.bytes.length) : ∃ value, image.byte satp m offset = .ok value := by
  refine ⟨image.bytes[offset], ?_⟩
  rw [byte_window window (by omega), List.getElem?_eq_getElem inside, deref]

private theorem number_ok (inside : offset + n ≤ image.bytes.length) : ∃ value, image.number satp m offset n = .ok value := by
  induction n generalizing offset with
  | zero => exact ⟨0, rfl⟩
  | succ n ih =>
    obtain ⟨low, first⟩ := byte_ok window word (by omega : offset < image.bytes.length)
    obtain ⟨high, rest⟩ := ih (by omega : offset + 1 + n ≤ image.bytes.length)
    exact ⟨low.toNat + 256 * high, by rw [Image.number, first, ok_bind, rest, ok_bind]⟩

private theorem number_inside (inside : offset + n ≤ image.bytes.length) : Ensures Halt.Unsafe (image.number satp m offset n) fun _ => True := by
  obtain ⟨value, read⟩ := number_ok window word inside
  rw [read]
  exact .ok trivial

private theorem proghdr_inside (inside : offset + proghdrSize ≤ image.bytes.length) :
    Ensures Halt.Unsafe (image.proghdr satp m offset) fun _ => True := by
  unfold proghdrSize at inside
  refine (number_inside window word (by omega)).bind fun _ _ => ?_
  split
  · exact .ok trivial
  · refine (number_inside window word (by omega)).bind fun _ _ => (number_inside window word (by omega)).bind fun _ _ => ?_
    refine (number_inside window word (by omega)).bind fun _ _ => (number_inside window word (by omega)).bind fun _ _ => ?_
    exact (number_inside window word (by omega)).bind fun _ _ => .ok trivial

end Inside

private theorem Image.Regular.admits (regular : image.Regular satp m₀ size) : image.Admits Halt.Unsafe satp m₀ := by
  obtain ⟨rfl, window, word, header, loadable, ordered⟩ := regular
  unfold elfhdrSize at header
  refine ⟨fun offset n inside m _ => number_inside window word (inside.trans header), fun c m => number_inside window word (by omega), ?_⟩
  intro magic phoff phnum read counted
  have loads := loadable magic
  have table := loads.table phoff phnum read counted
  have place : ∀ i < phnum, wrap (phoff + i * proghdrSize) = phoff + i * proghdrSize ∧ phoff + i * proghdrSize + proghdrSize ≤ image.bytes.length := by
    intro i below
    unfold wrap
    unfold proghdrSize at table ⊢
    omega
  have segment : ∀ i < phnum, ∀ header, image.At satp m₀ phoff i header → header.pOffset + header.pFilesz ≤ image.bytes.length ∧
      header.pVa + header.pMemsz < 2 ^ 64 := by
    intro i below header here
    rw [Image.At, (place i below).1] at here
    exact loads.segment header ⟨phoff, phnum, i, read, counted, below, here⟩
  refine ⟨by omega, fun m _ i below => ?_, fun i below header here => (segment i below header here).2, ?_, .inr (ordered magic phoff phnum read counted),
    fun text member harm => harm text member rfl⟩
  · rw [(place i below).1]
    exact proghdr_inside window word (place i below).2
  · intro i below header here m _ k inside
    have inFile := (segment i below header here).1
    obtain ⟨value, read⟩ := byte_ok window word (by omega : header.pOffset + k < image.bytes.length)
    rw [read]
    exact .ok trivial

end Ucore
