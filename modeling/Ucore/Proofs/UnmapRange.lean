import Mathlib
import Ucore.Proofs.RefCount
import Ucore.Proofs.Release

/-! `unmap_range`: all leaves of the range become invalid, and nothing else changes in the
page tables. -/

namespace Ucore
open Lib

variable {roots : Finset Frame} {held other : Set Frame} {m m' m'' : Mem} {r t : Frame} {v lo mid hi start stop fuel : Nat}

theorem page_next (low : v < userPages) : wrap (v * pgSize + pgSize) = (v + 1) * pgSize := by
  unfold userPages top at low
  unfold wrap pgSize
  omega

theorem table_next (low : v < userPages) : roundDown (wrap (v * pgSize + ptSize)) ptSize = (v / 512 + 1) * 512 * pgSize := by
  unfold userPages top at low
  unfold wrap roundDown ptSize pgSize
  omega

theorem page_of (v : Nat) : v * pgSize / pgSize = v := Nat.mul_div_cancel v (by decide)

theorem ptx_page (v : Nat) : ptx (v * pgSize) = v % 512 := by
  unfold ptx pgSize
  omega

theorem page_user (low : v < userPages) : v * pgSize < userTop := by
  unfold userPages top at low
  unfold userTop pgSize
  omega

theorem tableOf_page (v : Nat) : tableOf r (v * pgSize) = .table r (v / 512) := by
  rw [tableOf, page_of]

theorem target_missing (missing : m.node (.table r (v / 512)) = none) : m.target (r, v) = none := by
  have nothing : m.leaf r v = 0 := Radix.leafAt_none missing
  rw [Mem.target, nothing]
  exact entry_zero

/-- The pages of `r` from `lo` on and before `hi` are unmapped between the two states. -/
structure Unmapped (roots : Finset Frame) (r : Frame) (lo hi : Nat) (m m' : Mem) : Prop where
  node : ∀ n : Node Frame, n.Inside top 512 → n.owner ∈ roots → m'.node n = m.node n
  target : ∀ r' ∈ roots, ∀ v < userPages, m'.target (r', v) = if r' = r ∧ lo ≤ v ∧ v < hi then none else m.target (r', v)

theorem Unmapped.nothing (empty : ∀ v, lo ≤ v → v < hi → m.target (r, v) = none) : Unmapped roots r lo hi m m := by
  refine ⟨fun _ _ _ => rfl, ?_⟩
  intro r' root v inside
  split
  next here =>
    obtain ⟨rfl, low, high⟩ := here
    exact empty v low high
  next => rfl

theorem Unmapped.trans (first : Unmapped roots r lo mid m m') (second : Unmapped roots r mid hi m' m'') (before : lo ≤ mid)
    (behind : mid ≤ hi) : Unmapped roots r lo hi m m'' := by
  refine ⟨fun n inside owned => (second.node n inside owned).trans (first.node n inside owned), ?_⟩
  intro r' root v inside
  rw [second.target r' root v inside, first.target r' root v inside]
  by_cases own : r' = r
  · by_cases late : mid ≤ v
    · have all : (r' = r ∧ lo ≤ v ∧ v < hi) ↔ (r' = r ∧ mid ≤ v ∧ v < hi) := by
        refine and_congr_right fun _ => and_congr_left fun _ => ?_
        exact ⟨fun _ => late, fun _ => le_trans before late⟩
      have early : ¬ (r' = r ∧ lo ≤ v ∧ v < mid) := fun both => absurd both.2.2 (not_lt.mpr late)
      simp only [all, if_neg early]
    · have late' : ¬ (r' = r ∧ mid ≤ v ∧ v < hi) := fun both => late both.2.1
      have all : (r' = r ∧ lo ≤ v ∧ v < hi) ↔ (r' = r ∧ lo ≤ v ∧ v < mid) := by
        refine and_congr_right fun _ => and_congr_right fun _ => ?_
        exact ⟨fun _ => not_le.mp late, fun high => lt_of_lt_of_le high behind⟩
      simp only [all, if_neg late']
  · simp only [own, false_and, if_false]

section Loop

variable (counted : Counted roots held other m) (root : r ∈ roots)
include counted root

private theorem Counted.unmapThere (inside : v < userPages) (found : m.node (.table r (v / 512)) = some t) :
    ∃ m', onlyIf (m.pte (t, v % 512) ≠ 0) (Mem.pageRemovePte (t, v % 512)) m = .ok m' ∧ Counted roots held other m' ∧
      Unmapped roots r v (v + 1) m m' := by
  have here : m.pte (t, v % 512) = m.leaf r v := (Radix.leafAt_some found).symm
  have only : ∀ {x}, v ≤ x → x < v + 1 → x = v := fun low high => Nat.le_antisymm (Nat.le_of_lt_succ high) low
  by_cases isValid : valid (m.leaf r v) = true
  · have present : m.pte (t, v % 512) ≠ 0 := by
      intro zero
      rw [← here, zero] at isValid
      exact absurd isValid (by decide)
    obtain ⟨inUse, range, _⟩ := counted.mapped _ ⟨r, root, v, inside, target_some isValid⟩
    rw [← here] at isValid inUse range
    rw [onlyIf, if_pos present, pageRemovePte_valid isValid range.1 range.2 fun _ => inUse]
    rw [here] at isValid ⊢
    obtain ⟨written, others, same⟩ := setPte_word (m.dropped (pteFrame (m.leaf r v))) (t, v % 512) 0
    have wrote : Wrote r v 0 m ((m.dropped (pteFrame (m.leaf r v))).setPte (t, v % 512) 0) t := ⟨found, written, others, same, rfl, rfl, rfl⟩
    refine ⟨_, rfl, (counted.removed root inside wrote entry_zero (target_some isValid) rfl rfl).1, ?_, ?_⟩
    · exact wrote.node counted.paged.unique root inside
    · intro r' root' v' inside'
      rw [Mem.target, wrote.leaf counted.paged.unique root inside inside' root']
      by_cases own : r' = r ∧ v' = v
      · rw [if_pos own, if_pos ⟨own.1, own.2.ge, by omega⟩]
        exact entry_zero
      · rw [if_neg own, if_neg fun both => own ⟨both.1, only both.2.1 both.2.2⟩]
        rfl
  · have kept : onlyIf (m.pte (t, v % 512) ≠ 0) (Mem.pageRemovePte (t, v % 512)) m = .ok m := by
      unfold onlyIf
      split
      · rw [← here] at isValid
        exact pageRemovePte_invalid isValid
      · rfl
    refine ⟨m, kept, counted, .nothing ?_⟩
    intro x low high
    rw [only low high]
    exact target_none isValid

theorem Counted.unmapLoop (below : hi ≤ userPages) (more : v < hi) (enough : hi - v < fuel) :
    ∃ m', m.unmapLoop r (hi * pgSize) fuel (v * pgSize) = .ok m' ∧ Counted roots held other m' ∧ Unmapped roots r v hi m m' := by
  induction fuel generalizing v m with
  | zero => exact absurd enough (Nat.not_lt_zero _)
  | succ fuel ih =>
    have inside : v < userPages := lt_of_lt_of_le more below
    have looked := getPte_find counted.paged.addressable root (page_user inside)
    rw [tableOf_page, ptx_page] at looked
    rw [Mem.unmapLoop, Mem.unmapPage, looked, ok_bind]
    cases found : m.node (.table r (v / 512)) with
    | none =>
      have empty : ∀ x, v ≤ x → x < (v / 512 + 1) * 512 → m.target (r, x) = none := by
        intro x low high
        refine target_missing ?_
        rw [show x / 512 = v / 512 by omega]
        exact found
      rw [Option.map_none]
      dsimp only
      rw [ok_bind]
      dsimp only
      rw [table_next inside]
      by_cases again : (v / 512 + 1) * 512 < hi
      · have goes : (v / 512 + 1) * 512 * pgSize ≠ 0 ∧ (v / 512 + 1) * 512 * pgSize < hi * pgSize := by
          unfold pgSize
          omega
        rw [if_pos goes]
        obtain ⟨m', looped, counted', unmapped⟩ := ih counted again (by omega)
        exact ⟨m', looped, counted', (Unmapped.nothing empty).trans unmapped (by omega) again.le⟩
      · have ends : ¬ ((v / 512 + 1) * 512 * pgSize ≠ 0 ∧ (v / 512 + 1) * 512 * pgSize < hi * pgSize) := by
          unfold pgSize
          omega
        rw [if_neg ends]
        exact ⟨m, rfl, counted, .nothing fun x low high => empty x low (lt_of_lt_of_le high (not_lt.mp again))⟩
    | some t =>
      obtain ⟨m₁, removed, counted₁, unmapped₁⟩ := counted.unmapThere root inside found
      rw [Option.map_some]
      dsimp only
      rw [removed, ok_bind, ok_bind]
      dsimp only
      rw [page_next inside]
      by_cases again : v + 1 < hi
      · have goes : (v + 1) * pgSize ≠ 0 ∧ (v + 1) * pgSize < hi * pgSize := by
          unfold pgSize
          omega
        rw [if_pos goes]
        obtain ⟨m', looped, counted', unmapped⟩ := ih counted₁ again (by omega)
        exact ⟨m', looped, counted', unmapped₁.trans unmapped (by omega) again.le⟩
      · have ends : ¬ ((v + 1) * pgSize ≠ 0 ∧ (v + 1) * pgSize < hi * pgSize) := by
          unfold pgSize
          omega
        have last : v + 1 = hi := by omega
        rw [if_neg ends]
        rw [last] at unmapped₁
        exact ⟨m₁, rfl, counted₁, unmapped₁⟩

theorem Counted.unmapRange (passed : Mem.assertRange start stop = .ok ()) :
    ∃ m', m.unmapRange r start stop = .ok m' ∧ Counted roots held other m' ∧ Unmapped roots r (start / pgSize) (stop / pgSize) m m' := by
  obtain ⟨low, high, user⟩ := assertRange_ok passed
  have first : start = start / pgSize * pgSize := (Nat.div_mul_cancel (Nat.dvd_of_mod_eq_zero low)).symm
  have last : stop = stop / pgSize * pgSize := (Nat.div_mul_cancel (Nat.dvd_of_mod_eq_zero high)).symm
  have below : stop / pgSize ≤ userPages := by
    have limit := user.2.2
    unfold userTop at limit
    unfold userPages top pgSize
    omega
  have more : start / pgSize < stop / pgSize := by
    have order := user.2.1
    unfold pgSize at first last ⊢
    omega
  have enough : stop / pgSize - start / pgSize < Mem.pageFuel stop := Nat.lt_succ_of_le (Nat.sub_le _ _)
  obtain ⟨m', looped, rest⟩ := counted.unmapLoop root below more enough
  refine ⟨m', ?_, rest⟩
  rw [← first, ← last] at looped
  rw [Mem.unmapRange, passed, ok_bind]
  exact looped

end Loop

end Ucore
