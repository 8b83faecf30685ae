import Mathlib
import Ucore.Kmalloc

/-! How many bytes `kmalloc` reserves. `find_order` shifts the remainder out of a size that
it halves, and it takes a `size_t` as an `int`. -/

namespace Ucore
open Heap

/-- The order that `kmalloc` computes for a size that SLOB does not take. -/
def orderOf (size : Nat) : Nat :=
  match findOrder (toInt size) with
  | .ok order => order
  | .error _ => 0

/-- SLOB takes the size. -/
def Small (size : Nat) : Prop := size < pgSize - slobUnit

instance (size : Nat) : Decidable (Small size) := inferInstanceAs (Decidable (size < pgSize - slobUnit))

/-- SLOB takes the size, and with two headers it does not fit into a page. -/
def Oversized (size : Nat) : Prop := Small size ∧ pgSize ≤ size + slobUnit + slobUnit

instance (size : Nat) : Decidable (Oversized size) := inferInstanceAs (Decidable (Small size ∧ pgSize ≤ size + slobUnit + slobUnit))

/-- The bytes from the returned pointer on that belong to the block: the units behind the
header, or the pages. -/
def reserved (size : Nat) : Nat :=
  if Small size then 16 * slobUnits (size + slobUnit) - 16 else pgSize * 2 ^ orderOf size

/-- No remainder that is shifted out counts, and the size is an `int`. -/
def Sufficient (size : Nat) : Prop :=
  Small size ∨ size < 2 ^ 31 ∧ ∀ k, ¬ (4096 * 2 ^ k < size ∧ size < 4097 * 2 ^ k)

private theorem findOrderLoop_spec {fuel : Nat} {size : Int} (order : Nat) (enough : size < 4097 * 2 ^ fuel) :
    ∃ k, findOrderLoop (fuel + 1) size order = .ok (order + k) ∧ size < 4097 * 2 ^ k ∧ (k = 0 ∨ 4097 * 2 ^ (k - 1) ≤ size) := by
  induction fuel generalizing size order with
  | zero =>
    have small : ¬ size > 4096 := by omega
    exact ⟨0, by rw [findOrderLoop, if_neg small]; rfl, by omega, .inl rfl⟩
  | succ fuel ih =>
    by_cases large : size > 4096
    · have half : size / 2 < 4097 * 2 ^ fuel := by
        rw [pow_succ] at enough
        omega
      obtain ⟨k, found, below, least⟩ := ih (order + 1) half
      refine ⟨k + 1, ?_, ?_, .inr ?_⟩
      · rw [findOrderLoop, if_pos large, found, show order + 1 + k = order + (k + 1) by omega]
      · rw [pow_succ]
        omega
      · rw [Nat.add_sub_cancel]
        rcases least with rfl | least
        · omega
        · cases k with
          | zero => omega
          | succ k =>
            rw [Nat.add_sub_cancel] at least
            rw [pow_succ]
            omega
    · exact ⟨0, by rw [findOrderLoop, if_neg large]; rfl, by omega, .inl rfl⟩

theorem findOrder_spec (size : Nat) :
    findOrder (toInt size) = .ok (orderOf size) ∧ toInt size < 4097 * 2 ^ orderOf size ∧
      (orderOf size = 0 ∨ 4097 * 2 ^ (orderOf size - 1) ≤ toInt size) := by
  have bound : toInt size < 4097 * 2 ^ 31 := by
    have limit := @BitVec.toInt_lt 32 (BitVec.ofNat 32 size)
    unfold toInt
    omega
  obtain ⟨k, found, below, least⟩ := findOrderLoop_spec 0 bound
  have order : orderOf size = k := by
    unfold orderOf findOrder
    rw [found]
    exact Nat.zero_add k
  rw [order]
  exact ⟨by rw [findOrder, found, Nat.zero_add], below, least⟩

private theorem toInt_small {size : Nat} (inInt : size < 2 ^ 31) : toInt size = size := by
  have value : toInt size = Int.bmod size (2 ^ 32) := BitVec.toInt_ofNat ..
  rw [value, Int.bmod_def]
  omega

private theorem toInt_large {size : Nat} (outside : 2 ^ 31 ≤ size) : 2 * toInt size < size := by
  have value : toInt size = Int.bmod size (2 ^ 32) := BitVec.toInt_ofNat ..
  rw [value, Int.bmod_def]
  omega

theorem reserved_iff (size : Nat) (word : size < 2 ^ 64) : size ≤ reserved size ↔ Sufficient size := by
  unfold reserved Sufficient
  by_cases small : Small size
  · simp only [small, if_true, true_or, iff_true]
    simp only [Small, pgSize, slobUnit] at small
    simp only [slobUnits, slobUnit, wrap]
    omega
  simp only [small, if_false, false_or]
  obtain ⟨_, below, least⟩ := findOrder_spec size
  generalize orderOf size = k at below least
  by_cases inInt : size < 2 ^ 31
  · rw [toInt_small inInt] at below least
    norm_cast at below least
    simp only [inInt, true_and]
    constructor
    · intro enough j between
      have lower : j < k := by
        by_contra above
        have := Nat.pow_le_pow_right (show 0 < 2 by decide) (not_lt.mp above)
        simp only [pgSize] at enough
        omega
      have power := Nat.pow_le_pow_right (show 0 < 2 by decide) (Nat.le_sub_one_of_lt lower)
      rcases least with rfl | least
      · cases lower
      · omega
    · intro outside
      have := outside k
      simp only [pgSize]
      omega
  · simp only [inInt, false_and, iff_false, not_le, pgSize]
    have large := toInt_large (not_lt.mp inInt)
    rcases least with rfl | least
    · omega
    · cases k with
      | zero => omega
      | succ k =>
        rw [Nat.add_sub_cancel] at least
        rw [pow_succ]
        have power : (0 : Int) < 2 ^ k := by positivity
        have : ((4096 * (2 ^ k * 2) : Nat) : Int) < size := by
          push_cast
          omega
        exact_mod_cast this

end Ucore
