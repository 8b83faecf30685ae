import Mathlib

/-! The longest part in front of a list whose elements meet a test, and what stands behind it. -/

namespace Ucore.Lib

universe u

theorem exists_run {α : Type u} (test : α → Bool) (items : List α) :
    ∃ run rest, items = run ++ rest ∧ (∀ item ∈ run, test item = true) ∧ ∀ item ∈ rest.head?, test item = false := by
  refine ⟨items.takeWhile test, items.dropWhile test, List.takeWhile_append_dropWhile.symm, ?_, ?_⟩
  · intro item member
    exact List.mem_takeWhile_imp member
  · intro item member
    have stop := List.head?_dropWhile_not test items
    rw [Option.mem_def.mp member] at stop
    simpa using stop

end Ucore.Lib
