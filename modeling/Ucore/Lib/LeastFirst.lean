import Mathlib

/-! Competitors with a value each, of which one with the least value is chosen again and
again; its value then grows by its pass. -/

namespace Ucore.Lib

universe u

variable {α : Type u} [DecidableEq α]

/-- From the values `value`, `chosen` are chosen one after the other, the first one in
front. -/
inductive LeastFirst (members : List α) (pass : α → Nat) : (α → Nat) → List α → (α → Nat) → Prop where
  | done (value : α → Nat) : LeastFirst members pass value [] value
  | next {value after : α → Nat} {next : α} {chosen : List α} (member : next ∈ members)
      (least : ∀ other ∈ members, value next ≤ value other)
      (rest : LeastFirst members pass (Function.update value next (value next + pass next)) chosen after) :
      LeastFirst members pass value (next :: chosen) after

namespace LeastFirst

variable {members chosen : List α} {pass value after : α → Nat} {target : α}

theorem subset (run : LeastFirst members pass value chosen after) : chosen ⊆ members := by
  induction run with
  | done value => exact List.nil_subset _
  | next member _ _ ih => exact List.cons_subset.mpr ⟨member, ih⟩

theorem value_eq (run : LeastFirst members pass value chosen after) (item : α) :
    after item = value item + chosen.count item * pass item := by
  induction run with
  | done value => simp
  | @next value after next chosen _ _ _ ih =>
    rw [ih]
    by_cases same : next = item
    · rw [same, Function.update_self, List.count_cons_self, Nat.succ_mul]
      omega
    · rw [Function.update_of_ne (Ne.symm same), List.count_cons_of_ne same]

/-- Nobody is ahead of another one by more than its own pass. -/
theorem share (run : LeastFirst members pass value chosen after)
    (start : ∀ one ∈ members, ∀ other ∈ members, value one ≤ value other + pass one) :
    ∀ one ∈ members, ∀ other ∈ members, after one ≤ after other + pass one := by
  induction run with
  | done value => exact start
  | @next value after next chosen member least rest ih =>
    apply ih
    intro one first other second
    have ahead := start one first other second
    by_cases left : one = next
    · by_cases right : other = next
      · rw [left, right]
        exact Nat.le_add_right _ _
      · rw [left, Function.update_self, Function.update_of_ne right]
        exact Nat.add_le_add_right (least other second) _
    · by_cases right : other = next
      · rw [right, Function.update_self, Function.update_of_ne left]
        rw [right] at ahead
        omega
      · rw [Function.update_of_ne left, Function.update_of_ne right]
        exact ahead

/-- How far the values are below the one of `target`, all together. -/
def gap (members : List α) (value : α → Nat) (target : α) : Nat := (members.map fun item => value target + 1 - value item).sum

omit [DecidableEq α] in
theorem gap_le {bound : Nat} (near : ∀ item ∈ members, value target ≤ value item + bound) :
    gap members value target ≤ members.length * (bound + 1) := by
  have each : ∀ term ∈ members.map fun item => value target + 1 - value item, term ≤ bound + 1 := by
    intro term inside
    obtain ⟨item, member, rfl⟩ := List.mem_map.mp inside
    have distance := near item member
    omega
  have total := List.sum_le_card_nsmul _ _ each
  rw [List.length_map, smul_eq_mul] at total
  exact total

theorem length_lt (run : LeastFirst members pass value chosen after) (positive : ∀ item ∈ members, 0 < pass item)
    (member : target ∈ members) (absent : target ∉ chosen) : chosen.length < gap members value target := by
  induction run with
  | done value =>
    have own : value target + 1 - value target ≤ gap members value target :=
      List.single_le_sum (fun _ _ => Nat.zero_le _) _ (List.mem_map.mpr ⟨target, member, rfl⟩)
    rw [List.length_nil]
    omega
  | @next value after next chosen inside least rest ih =>
    obtain ⟨away, absent⟩ := List.ne_and_not_mem_of_not_mem_cons absent
    have shorter := ih absent
    have step : gap members (Function.update value next (value next + pass next)) target < gap members value target := by
      apply List.sum_lt_sum
      · intro item _
        rw [Function.update_of_ne away]
        by_cases same : item = next
        · rw [same, Function.update_self]
          omega
        · rw [Function.update_of_ne same]
      · refine ⟨next, inside, ?_⟩
        rw [Function.update_of_ne away, Function.update_self]
        have below := least target member
        have grows := positive next inside
        omega
    rw [List.length_cons]
    omega

end LeastFirst

end Ucore.Lib
