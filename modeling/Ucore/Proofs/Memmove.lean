import Mathlib
import Ucore.Strings

/-! `memmove`: each direction copies the bytes of the range as they were before. -/

namespace Ucore

/-- The address is in the range of `n` bytes from `start` on. -/
def InRange (start : BitVec 64) (n : Nat) (a : BitVec 64) : Prop := start.toNat ≤ a.toNat ∧ a.toNat < start.toNat + n

instance (start : BitVec 64) (n : Nat) (a : BitVec 64) : Decidable (InRange start n a) :=
  inferInstanceAs (Decidable (_ ∧ _))

/-- The memory in which the bytes of the range at `dst` are those that were at `src`. -/
def moved (dst src : BitVec 64) (n : Nat) (memory : BitVec 64 → BitVec 8) (a : BitVec 64) : BitVec 8 :=
  if InRange dst n a then memory (src + (a - dst)) else memory a

variable {d s a : BitVec 64} {n : Nat}

private theorem succ_toNat (p : BitVec 64) : (p + 1).toNat = (p.toNat + 1) % 2 ^ 64 := by
  rw [BitVec.toNat_add]
  rfl

private theorem offset_toNat (inside : InRange d n a) : (a - d).toNat = a.toNat - d.toNat := by
  apply BitVec.toNat_sub_of_le
  exact BitVec.le_def.mpr inside.1

private theorem source_toNat (inside : InRange d n a) (srcFits : s.toNat + n ≤ 2 ^ 64) :
    (s + (a - d)).toNat = s.toNat + (a.toNat - d.toNat) := by
  obtain ⟨low, high⟩ := inside
  rw [BitVec.toNat_add, offset_toNat ⟨low, high⟩]
  apply Nat.mod_eq_of_lt
  omega

private theorem moveUp_spec (memory : BitVec 64 → BitVec 8) (dstFits : d.toNat + n ≤ 2 ^ 64) (srcFits : s.toNat + n ≤ 2 ^ 64)
    (clear : d.toNat ≤ s.toNat ∨ s.toNat + n ≤ d.toNat) : moveUp n d s memory = moved d s n memory := by
  induction n generalizing d s memory with
  | zero =>
    funext a
    have nothing : ¬ InRange d 0 a := fun inside => absurd inside.2 (not_lt.mpr inside.1)
    rw [moveUp, moved, if_neg nothing]
  | succ n ih =>
    have nextD := succ_toNat d
    have nextS := succ_toNat s
    rw [moveUp, ih _ (by omega) (by omega) (by omega)]
    funext a
    by_cases first : a = d
    · subst first
      have behind : ¬ InRange (a + 1) n a := by
        unfold InRange
        omega
      have inside : InRange a (n + 1) a := ⟨le_refl _, by omega⟩
      rw [moved, moved, if_neg behind, if_pos inside, if_pos rfl, BitVec.sub_self, BitVec.add_zero]
    · have apart : a.toNat ≠ d.toNat := fun same => first (BitVec.eq_of_toNat_eq same)
      have bound := a.isLt
      have range : InRange (d + 1) n a ↔ InRange d (n + 1) a := by
        unfold InRange
        omega
      rw [moved, moved, if_congr range rfl rfl]
      by_cases inside : InRange d (n + 1) a
      · have place : s + 1 + (a - (d + 1)) = s + (a - d) := by bv_omega
        have unwritten : s + (a - d) ≠ d := by
          intro same
          have value := source_toNat inside srcFits
          have low := inside.1
          have high := inside.2
          rw [same] at value
          omega
        rw [if_pos inside, if_pos inside, place, if_neg unwritten]
      · rw [if_neg inside, if_neg inside, if_neg first]

private theorem moveDown_spec (memory : BitVec 64 → BitVec 8) (dstFits : d.toNat + n ≤ 2 ^ 64) (srcFits : s.toNat + n ≤ 2 ^ 64)
    (below : s.toNat ≤ d.toNat) :
    moveDown n (d + BitVec.ofNat 64 n) (s + BitVec.ofNat 64 n) memory = moved d s n memory := by
  induction n generalizing memory with
  | zero =>
    funext a
    have nothing : ¬ InRange d 0 a := fun inside => absurd inside.2 (not_lt.mpr inside.1)
    rw [moveDown, moved, if_neg nothing]
  | succ n ih =>
    have back (p : BitVec 64) : p + BitVec.ofNat 64 (n + 1) - 1 = p + BitVec.ofNat 64 n := by
      rw [BitVec.ofNat_add, ← BitVec.add_assoc]
      exact BitVec.add_sub_cancel _ _
    rw [moveDown, back, back, ih _ (by omega) (by omega)]
    have lastD : (d + BitVec.ofNat 64 n).toNat = d.toNat + n := by
      rw [BitVec.toNat_add, BitVec.toNat_ofNat]
      omega
    funext a
    by_cases last : a = d + BitVec.ofNat 64 n
    · subst last
      have outside : ¬ InRange d n (d + BitVec.ofNat 64 n) := by
        unfold InRange
        omega
      have inside : InRange d (n + 1) (d + BitVec.ofNat 64 n) := by
        unfold InRange
        omega
      have place : s + (d + BitVec.ofNat 64 n - d) = s + BitVec.ofNat 64 n := by
        rw [BitVec.add_comm d, BitVec.add_sub_cancel]
      rw [moved, moved, if_neg outside, if_pos inside, if_pos rfl, place]
    · have apart : a.toNat ≠ d.toNat + n := by
        rw [← lastD]
        exact fun same => last (BitVec.eq_of_toNat_eq same)
      have range : InRange d n a ↔ InRange d (n + 1) a := by
        unfold InRange
        omega
      rw [moved, moved, if_congr range rfl rfl]
      by_cases inside : InRange d (n + 1) a
      · have unwritten : s + (a - d) ≠ d + BitVec.ofNat 64 n := by
          intro same
          have value := source_toNat inside srcFits
          have low := inside.1
          have high := inside.2
          rw [same, lastD] at value
          omega
        rw [if_pos inside, if_pos inside, if_neg unwritten]
      · rw [if_neg inside, if_neg inside, if_neg last]

private theorem memmove_moved (dst src n : BitVec 64) (memory : BitVec 64 → BitVec 8) (dstFits : dst.toNat + n.toNat ≤ 2 ^ 64)
    (srcFits : src.toNat + n.toNat ≤ 2 ^ 64) : (memmove dst src n memory).2 = moved dst src n.toNat memory := by
  unfold memmove
  by_cases overlap : src < dst ∧ src + n > dst
  · have below : src.toNat ≤ dst.toNat := le_of_lt (BitVec.lt_def.mp overlap.1)
    have copied := moveDown_spec memory dstFits srcFits below
    rw [BitVec.ofNat_toNat, BitVec.setWidth_eq] at copied
    rw [if_pos overlap]
    exact copied
  · have clear : dst.toNat ≤ src.toNat ∨ src.toNat + n.toNat ≤ dst.toNat := by
      by_contra both
      apply overlap
      bv_omega
    rw [if_neg overlap]
    exact moveUp_spec memory dstFits srcFits clear

/-- `memmove` copies the bytes as they were, however the two ranges lie, and writes nothing
else. -/
theorem memmove_overlap (dst src n : BitVec 64) (memory : BitVec 64 → BitVec 8) (dstFits : dst.toNat + n.toNat ≤ 2 ^ 64)
    (srcFits : src.toNat + n.toNat ≤ 2 ^ 64) :
    (memmove dst src n memory).1 = dst ∧ (∀ i < n, (memmove dst src n memory).2 (dst + i) = memory (src + i)) ∧
      ∀ a, ¬ InRange dst n.toNat a → (memmove dst src n memory).2 a = memory a := by
  rw [memmove_moved dst src n memory dstFits srcFits]
  refine ⟨?_, ?_, ?_⟩
  · unfold memmove
    split
    · rfl
    · rfl
  · intro i small
    have inside : InRange dst n.toNat (dst + i) := by
      have bound := BitVec.lt_def.mp small
      have place : (dst + i).toNat = dst.toNat + i.toNat := by
        rw [BitVec.toNat_add]
        exact Nat.mod_eq_of_lt (by omega)
      unfold InRange
      omega
    rw [moved, if_pos inside, BitVec.add_comm dst, BitVec.add_sub_cancel]
  · intro a outside
    rw [moved, if_neg outside]

/-- The destination begins inside of the source. -/
theorem memmove_overlap_two :
    (memmove 0x1001 0x1000 2 fun a => a.setWidth 8).2 0x1002 = 0x01 ∧
      (memmove 0x1001 0x1000 2 fun a => a.setWidth 8).2 0x1003 = 0x03 := by
  obtain ⟨-, copied, kept⟩ := memmove_overlap 0x1001 0x1000 2 (fun a => a.setWidth 8) (by decide) (by decide)
  exact ⟨copied 1 (by decide), kept 0x1003 (by decide)⟩

end Ucore
