import Mathlib

/-! How many places point to a thing, and how the number changes when one place is written. -/

namespace Ucore.Lib

universe u v

variable {ι : Type u} {F : Type v} [DecidableEq F]

/-- The number of the places of `s` that point to `f`. -/
def pointers (s : Finset ι) (target : ι → Option F) (f : F) : ℤ := (s.filter fun place => target place = some f).card

variable {s : Finset ι} {target after : ι → Option F} {f : F} {place : ι}

theorem pointers_congr (same : ∀ other ∈ s, after other = target other) : pointers s after f = pointers s target f := by
  unfold pointers
  rw [Finset.filter_congr fun other inside => by rw [same other inside]]

theorem pointers_widen {wider : Finset ι} (less : s ⊆ wider) (away : ∀ place ∈ wider, place ∉ s → target place ≠ some f) :
    pointers wider target f = pointers s target f := by
  have same : wider.filter (fun place => target place = some f) = s.filter fun place => target place = some f := by
    ext place
    rw [Finset.mem_filter, Finset.mem_filter]
    constructor
    · rintro ⟨inside, here⟩
      refine ⟨?_, here⟩
      by_contra outside
      exact away place inside outside here
    · exact fun both => ⟨less both.1, both.2⟩
  rw [pointers, pointers, same]

theorem pointers_eq_zero : pointers s target f = 0 ↔ ∀ place ∈ s, target place ≠ some f := by
  rw [pointers, Nat.cast_eq_zero, Finset.card_eq_zero, Finset.filter_eq_empty_iff]

theorem pointers_nonneg : 0 ≤ pointers s target f := Int.natCast_nonneg _

theorem pointers_pos (inside : place ∈ s) (here : target place = some f) : 0 < pointers s target f :=
  lt_of_le_of_ne pointers_nonneg fun zero => pointers_eq_zero.mp zero.symm place inside here

theorem pointers_write [DecidableEq ι] (inside : place ∈ s) (same : ∀ other ∈ s, other ≠ place → after other = target other) :
    pointers s after f =
      pointers s target f - (if target place = some f then 1 else 0) + (if after place = some f then 1 else 0) := by
  have rest : ∑ other ∈ s.erase place, (if after other = some f then 1 else 0) =
      ∑ other ∈ s.erase place, (if target other = some f then (1 : ℤ) else 0) := by
    apply Finset.sum_congr rfl
    intro other member
    rw [same other (Finset.mem_of_mem_erase member) (Finset.ne_of_mem_erase member)]
  have before := Finset.add_sum_erase s (fun other => if target other = some f then (1 : ℤ) else 0) inside
  have behind := Finset.add_sum_erase s (fun other => if after other = some f then (1 : ℤ) else 0) inside
  rw [pointers, pointers, Finset.natCast_card_filter, Finset.natCast_card_filter, ← before, ← behind, rest]
  ring

theorem pointers_single (once : pointers s target f = 1) (inside : place ∈ s) (here : target place = some f) {other : ι} (member : other ∈ s)
    (there : target other = some f) : other = place := by
  have card : (s.filter fun place => target place = some f).card = 1 := by
    rw [pointers] at once
    exact_mod_cast once
  exact Finset.card_le_one.mp card.le other (Finset.mem_filter.mpr ⟨member, there⟩) place (Finset.mem_filter.mpr ⟨inside, here⟩)

theorem pointers_one (inside : place ∈ s) (here : target place = some f) (only : ∀ other ∈ s, target other = some f → other = place) :
    pointers s target f = 1 := by
  have single : (s.filter fun place => target place = some f) = {place} := by
    ext other
    rw [Finset.mem_filter, Finset.mem_singleton]
    constructor
    · exact fun both => only other both.1 both.2
    · rintro rfl
      exact ⟨inside, here⟩
  rw [pointers, single, Finset.card_singleton]
  rfl

end Ucore.Lib
