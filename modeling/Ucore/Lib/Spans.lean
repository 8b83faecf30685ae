import Mathlib

/-! Lists of half-open spans that stand in the order of their places and do not
overlap: looking up the span a point is in, and putting a span between two others. -/

namespace Ucore.Lib

universe u v

variable {α : Type u} {β : Type v} [LinearOrder β] {lo hi : α → β} {item first second : α}
  {items before after : List α} {point : β} {inside : α → Bool}

/-- `item` stands for the points from `lo item` on that are less than `hi item`. -/
structure Spans (lo hi : α → β) (items : List α) : Prop where
  nonempty : ∀ item ∈ items, lo item < hi item
  apart : items.Pairwise fun first second => hi first ≤ lo second

namespace Spans

theorem nil : Spans lo hi [] where
  nonempty _ none := absurd none List.not_mem_nil
  apart := List.Pairwise.nil

theorem ordered (spans : Spans lo hi items) : items.Pairwise fun first second => lo first < lo second := by
  refine spans.apart.imp_of_mem ?_
  intro first second member _ before
  exact lt_of_lt_of_le (spans.nonempty first member) before

theorem unique (spans : Spans lo hi items) (firstIn : first ∈ items) (secondIn : second ∈ items)
    (inFirst : lo first ≤ point ∧ point < hi first) (inSecond : lo second ≤ point ∧ point < hi second) : first = second := by
  obtain ⟨i, inRange, rfl⟩ := List.getElem_of_mem firstIn
  obtain ⟨j, inRange', rfl⟩ := List.getElem_of_mem secondIn
  have apart := List.pairwise_iff_getElem.mp spans.apart
  rcases lt_trichotomy i j with before | rfl | behind
  · have := apart i j inRange inRange' before
    exact absurd (inFirst.2.trans_le (this.trans inSecond.1)) (lt_irrefl point)
  · rfl
  · have := apart j i inRange' inRange behind
    exact absurd (inSecond.2.trans_le (this.trans inFirst.1)) (lt_irrefl point)

theorem find_iff (spans : Spans lo hi items) (decides : ∀ item, inside item = true ↔ lo item ≤ point ∧ point < hi item) :
    items.find? inside = some item ↔ item ∈ items ∧ lo item ≤ point ∧ point < hi item := by
  constructor
  · intro found
    exact ⟨List.mem_of_find?_eq_some found, (decides item).mp (List.find?_some found)⟩
  · rintro ⟨member, within⟩
    cases found : items.find? inside with
    | none => exact absurd ((decides item).mpr within) (List.find?_eq_none.mp found item member)
    | some other =>
      have otherIn := (decides other).mp (List.find?_some found)
      rw [spans.unique (List.mem_of_find?_eq_some found) member otherIn within]

theorem left (spans : Spans lo hi (before ++ after)) : Spans lo hi before where
  nonempty item member := spans.nonempty item (List.mem_append_left _ member)
  apart := (List.pairwise_append.mp spans.apart).1

theorem right (spans : Spans lo hi (before ++ after)) : Spans lo hi after where
  nonempty item member := spans.nonempty item (List.mem_append_right _ member)
  apart := (List.pairwise_append.mp spans.apart).2.1

theorem le_of_last (spans : Spans lo hi items) (bound : ∀ last ∈ items.getLast?, hi last ≤ point) :
    ∀ item ∈ items, hi item ≤ point := by
  intro item member
  obtain rfl | ⟨front, last, rfl⟩ := List.eq_nil_or_concat items
  · exact absurd member List.not_mem_nil
  · have lastBound : hi last ≤ point := bound last (by simp)
    have places : (front ++ [last]).Pairwise fun first second => hi first ≤ lo second := by simpa using spans.apart
    have size : lo last < hi last := spans.nonempty last (by simp)
    have cases : item ∈ front ∨ item = last := by simpa using member
    rcases cases with inFront | rfl
    · have := (List.pairwise_append.mp places).2.2 item inFront last List.mem_cons_self
      exact this.trans (size.le.trans lastBound)
    · exact lastBound

theorem le_of_head (spans : Spans lo hi items) (bound : ∀ head ∈ items.head?, point ≤ lo head) :
    ∀ item ∈ items, point ≤ lo item := by
  intro item member
  cases items with
  | nil => exact absurd member List.not_mem_nil
  | cons head rest =>
    have headBound : point ≤ lo head := bound head rfl
    rcases List.mem_cons.mp member with rfl | inRest
    · exact headBound
    · have := (List.pairwise_cons.mp spans.apart).1 item inRest
      exact headBound.trans ((spans.nonempty head List.mem_cons_self).le.trans this)

/-- It is enough to compare a new span with its two neighbours. -/
theorem insert (spans : Spans lo hi (before ++ after)) (size : lo item < hi item)
    (behind : ∀ last ∈ before.getLast?, hi last ≤ lo item) (ahead : ∀ head ∈ after.head?, hi item ≤ lo head) :
    Spans lo hi (before ++ item :: after) where
  nonempty other member := by
    rcases List.mem_append.mp member with inBefore | inAfter
    · exact spans.nonempty other (List.mem_append_left _ inBefore)
    · rcases List.mem_cons.mp inAfter with rfl | inAfter
      · exact size
      · exact spans.nonempty other (List.mem_append_right _ inAfter)
  apart := by
    have old := List.pairwise_append.mp spans.apart
    refine List.pairwise_append.mpr ⟨old.1, List.pairwise_cons.mpr ⟨?_, old.2.1⟩, ?_⟩
    · exact spans.right.le_of_head ahead
    · intro other inBefore second inSecond
      rcases List.mem_cons.mp inSecond with rfl | inAfter
      · exact spans.left.le_of_last behind other inBefore
      · exact old.2.2 other inBefore second inAfter

end Spans

theorem behind_lt (member : item ∈ items) (further : point < hi item) :
    (items.filter fun other => hi item < hi other).length < (items.filter fun other => point < hi other).length := by
  have narrower : (items.filter fun other => point < hi other).filter (fun other => hi item < hi other) =
      items.filter fun other => hi item < hi other := by
    rw [List.filter_filter]
    refine List.filter_congr fun other _ => ?_
    by_cases behind : hi item < hi other
    · simp [behind, further.trans behind]
    · simp [behind]
  rw [← narrower]
  refine List.length_filter_lt_length_iff_exists.mpr ⟨item, ?_, ?_⟩
  · simpa using And.intro member further
  · simp

end Ucore.Lib
