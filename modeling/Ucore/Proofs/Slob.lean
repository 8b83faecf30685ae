import Mathlib
import Ucore.Kmalloc
import Ucore.Lib.Cycle

/-! The SLOB heap as chunks of units: those on the free list in address order, and those
that are taken. -/

namespace Ucore
open Lib Heap

structure Chunk where
  start : Nat
  units : Nat
  deriving DecidableEq

namespace Chunk

def stop (c : Chunk) : Nat := plus c.start c.units

def Apart (a b : Chunk) : Prop := a.stop ≤ b.start ∨ b.stop ≤ a.start

/-- Every byte of the chunk is in one of the pages. -/
def InPages (grown : List Nat) (c : Chunk) : Prop := ∀ x, c.start ≤ x → x < c.stop → ∃ kva ∈ grown, kva ≤ x ∧ x < kva + pgSize

end Chunk

theorem Chunk.stop_eq (c : Chunk) : c.stop = c.start + 16 * c.units := rfl

theorem plus_eq (a : Nat) (units : Nat) : plus a units = a + 16 * units := rfl

/-- The page neither contains nor touches `arena`. -/
def Clear (arena kva : Nat) : Prop := kva + pgSize < arena ∨ plus arena 1 < kva

/-- The chunks are disjoint, the free ones are in address order, and all but `arena` lie in
the pages. -/
structure Layout (arena : Nat) (grown : List Nat) (free taken : List Chunk) : Prop where
  ordered : free.Pairwise fun a b => a.stop ≤ b.start
  freeSized : ∀ c ∈ free, 0 < c.units
  takenSized : ∀ c ∈ taken, 0 < c.units
  apart : ∀ a ∈ free, ∀ b ∈ taken, a.Apart b
  disjoint : taken.Pairwise Chunk.Apart
  sentinel : ⟨arena, 1⟩ ∈ free
  freePaged : ∀ c ∈ free, c ≠ ⟨arena, 1⟩ → c.InPages grown
  takenPaged : ∀ c ∈ taken, c.InPages grown
  total : (free.map Chunk.units).sum + (taken.map Chunk.units).sum = 1 + 256 * grown.length
  clear : ∀ kva ∈ grown, Clear arena kva

namespace Layout

variable {arena kva : Nat} {grown : List Nat} {free taken taken' front back : List Chunk} {a b c : Chunk}

theorem off_arena (clear : ∀ kva ∈ grown, Clear arena kva) (sized : 0 < c.units) (paged : c.InPages grown) :
    c.stop ≠ arena ∧ plus arena 1 ≠ c.start ∧ c.start ≠ arena := by
  rw [Chunk.stop_eq, plus_eq]
  obtain ⟨first, firstIn, low, high⟩ := paged c.start (Nat.le_refl _) (by rw [Chunk.stop_eq]; omega)
  obtain ⟨last, lastIn, low', high'⟩ := paged (c.stop - 1) (by rw [Chunk.stop_eq]; omega) (by rw [Chunk.stop_eq]; omega)
  rw [Chunk.stop_eq] at low' high'
  have away := clear first firstIn
  have away' := clear last lastIn
  rw [Clear, plus_eq, pgSize] at away away'
  rw [pgSize] at high high'
  refine ⟨?_, ?_, ?_⟩ <;> omega

theorem perm (layout : Layout arena grown free taken) (same : taken.Perm taken') : Layout arena grown free taken' where
  ordered := layout.ordered
  freeSized := layout.freeSized
  takenSized c member := layout.takenSized c (same.mem_iff.mpr member)
  apart a first b second := layout.apart a first b (same.mem_iff.mpr second)
  disjoint := by
    refine (same.pairwise_iff ?_).mp layout.disjoint
    intro a b apart
    exact apart.symm
  sentinel := layout.sentinel
  freePaged := layout.freePaged
  takenPaged c member := layout.takenPaged c (same.mem_iff.mpr member)
  total := by rw [← (same.map Chunk.units).sum_eq]; exact layout.total
  clear := layout.clear

theorem taken_unique {x : Nat} (layout : Layout arena grown free taken) (first : a ∈ taken) (second : b ∈ taken)
    (inFirst : a.start ≤ x ∧ x < a.stop) (inSecond : b.start ≤ x ∧ x < b.stop) : a = b := by
  obtain ⟨i, inRange, rfl⟩ := List.getElem_of_mem first
  obtain ⟨j, inRange', rfl⟩ := List.getElem_of_mem second
  have disjoint := List.pairwise_iff_getElem.mp layout.disjoint
  rcases lt_trichotomy i j with before | rfl | behind
  · have apart := disjoint i j inRange inRange' before
    rw [Chunk.Apart] at apart
    omega
  · rfl
  · have apart := disjoint j i inRange' inRange behind
    rw [Chunk.Apart] at apart
    omega

theorem distinct (layout : Layout arena grown free taken) : (free.map Chunk.start).Nodup := by
  refine List.pairwise_map.mpr (layout.ordered.imp_of_mem ?_)
  intro a b member _ order
  have size := layout.freeSized a member
  rw [Chunk.stop_eq] at order
  exact Nat.ne_of_lt (by omega)

theorem length_le (layout : Layout arena grown free taken) : free.length ≤ 1 + 256 * grown.length := by
  have count : ∀ chunks : List Chunk, (∀ c ∈ chunks, 0 < c.units) → chunks.length ≤ (chunks.map Chunk.units).sum := by
    intro chunks sized
    induction chunks with
    | nil => exact Nat.le_refl _
    | cons c chunks ih =>
      have first := sized c List.mem_cons_self
      have rest := ih fun other member => sized other (List.mem_cons_of_mem _ member)
      rw [List.length_cons, List.map_cons, List.sum_cons]
      omega
  have bound := count free layout.freeSized
  have total := layout.total
  omega

theorem split (layout : Layout arena grown free (b :: taken)) :
    ∃ front back, free = front ++ back ∧ (∀ c ∈ front, c.stop ≤ b.start) ∧ ∀ c ∈ back, b.stop ≤ c.start := by
  have ordered := layout.ordered
  have sized := layout.freeSized
  have apart : ∀ c ∈ free, c.Apart b := fun c member => layout.apart c member b List.mem_cons_self
  clear layout
  induction free with
  | nil => exact ⟨[], [], rfl, by simp, by simp⟩
  | cons c free ih =>
    obtain ⟨first, rest⟩ := List.pairwise_cons.mp ordered
    rcases apart c List.mem_cons_self with below | above
    · obtain ⟨front, back, rfl, before, behind⟩ := ih rest (fun d member => sized d (List.mem_cons_of_mem _ member))
        fun d member => apart d (List.mem_cons_of_mem _ member)
      refine ⟨c :: front, back, rfl, ?_, behind⟩
      intro d member
      rcases List.mem_cons.mp member with rfl | member
      · exact below
      · exact before d member
    · refine ⟨[], c :: free, rfl, by simp, ?_⟩
      intro d member
      rcases List.mem_cons.mp member with rfl | member
      · exact above
      · have order := first d member
        have size := sized c List.mem_cons_self
        rw [Chunk.stop_eq] at order
        omega

theorem release (layout : Layout arena grown (front ++ back) (b :: taken)) (before : ∀ c ∈ front, c.stop ≤ b.start)
    (behind : ∀ c ∈ back, b.stop ≤ c.start) : Layout arena grown (front ++ b :: back) taken := by
  obtain ⟨apart, disjoint⟩ := List.pairwise_cons.mp layout.disjoint
  have inside : ∀ c, c ∈ front ++ b :: back ↔ c = b ∨ c ∈ front ++ back := by
    intro c
    simp only [List.mem_append, List.mem_cons]
    tauto
  constructor
  · have old := List.pairwise_append.mp layout.ordered
    refine List.pairwise_append.mpr ⟨old.1, List.pairwise_cons.mpr ⟨behind, old.2.1⟩, ?_⟩
    intro c first d second
    rcases List.mem_cons.mp second with rfl | second
    · exact before c first
    · exact old.2.2 c first d second
  · intro c member
    rcases (inside c).mp member with rfl | member
    · exact layout.takenSized _ List.mem_cons_self
    · exact layout.freeSized c member
  · exact fun c member => layout.takenSized c (List.mem_cons_of_mem _ member)
  · intro c member d second
    rcases (inside c).mp member with rfl | member
    · exact apart d second
    · exact layout.apart c member d (List.mem_cons_of_mem _ second)
  · exact disjoint
  · exact (inside _).mpr (Or.inr layout.sentinel)
  · intro c member other
    rcases (inside c).mp member with rfl | member
    · exact layout.takenPaged _ List.mem_cons_self
    · exact layout.freePaged c member other
  · exact fun c member => layout.takenPaged c (List.mem_cons_of_mem _ member)
  · have total := layout.total
    simp only [List.map_append, List.map_cons, List.sum_append, List.sum_cons] at total ⊢
    omega
  · exact layout.clear

/-- Two free chunks that touch, neither of them `arena`, become one. -/
theorem merge (layout : Layout arena grown (front ++ a :: b :: back) taken) (touch : a.stop = b.start)
    (first : a.start ≠ arena) (second : b.start ≠ arena) :
    Layout arena grown (front ++ ⟨a.start, a.units + b.units⟩ :: back) taken := by
  rw [Chunk.stop_eq] at touch
  have old := List.pairwise_append.mp layout.ordered
  simp only [List.pairwise_cons, List.mem_cons, forall_eq_or_imp] at old
  have inside : ∀ c, c ∈ front ++ ⟨a.start, a.units + b.units⟩ :: back ↔ c = ⟨a.start, a.units + b.units⟩ ∨ c ∈ front ++ back := by
    intro c
    simp only [List.mem_append, List.mem_cons]
    tauto
  have kept : ∀ c ∈ front ++ back, c ∈ front ++ a :: b :: back := by
    intro c member
    simp only [List.mem_append, List.mem_cons] at member ⊢
    tauto
  have aIn : a ∈ front ++ a :: b :: back := List.mem_append_right _ List.mem_cons_self
  have bIn : b ∈ front ++ a :: b :: back := List.mem_append_right _ (List.mem_cons_of_mem _ List.mem_cons_self)
  constructor
  · refine List.pairwise_append.mpr ⟨old.1, List.pairwise_cons.mpr ⟨?_, old.2.1.2.2⟩, ?_⟩
    · intro c member
      have order := old.2.1.2.1 c member
      rw [Chunk.stop_eq] at order ⊢
      simp only
      omega
    · intro c inFront d inBack
      rcases List.mem_cons.mp inBack with rfl | inBack
      · exact (old.2.2 c inFront).1
      · exact (old.2.2 c inFront).2.2 d inBack
  · intro c member
    rcases (inside c).mp member with rfl | member
    · have size := layout.freeSized a aIn
      simp only
      omega
    · exact layout.freeSized c (kept c member)
  · exact layout.takenSized
  · intro c member d taken
    rcases (inside c).mp member with rfl | member
    · have left := layout.apart a aIn d taken
      have right := layout.apart b bIn d taken
      have size := layout.takenSized d taken
      rw [Chunk.Apart, Chunk.stop_eq, Chunk.stop_eq] at left right ⊢
      simp only
      omega
    · exact layout.apart c (kept c member) d taken
  · exact layout.disjoint
  · apply (inside _).mpr
    right
    have member := layout.sentinel
    simp only [List.mem_append, List.mem_cons] at member ⊢
    rcases member with inFront | same | same | inBack
    · exact Or.inl inFront
    · exact absurd (congrArg Chunk.start same).symm first
    · exact absurd (congrArg Chunk.start same).symm second
    · exact Or.inr inBack
  · intro c member other
    rcases (inside c).mp member with rfl | member
    · have left := layout.freePaged a aIn fun same => first (congrArg Chunk.start same)
      have right := layout.freePaged b bIn fun same => second (congrArg Chunk.start same)
      intro x low high
      rw [Chunk.stop_eq] at high
      simp only at low high
      by_cases inner : x < a.stop
      · exact left x low inner
      · rw [Chunk.stop_eq] at inner
        exact right x (by omega) (by rw [Chunk.stop_eq]; omega)
    · exact layout.freePaged c (kept c member) other
  · exact layout.takenPaged
  · have total := layout.total
    simp only [List.map_append, List.map_cons, List.sum_append, List.sum_cons] at total ⊢
    omega
  · exact layout.clear

/-- The first units of a free chunk are taken. -/
theorem cut {units : Nat} (layout : Layout arena grown (front ++ c :: back) taken) (other : c.start ≠ arena) (some : 0 < units)
    (less : units < c.units) :
    Layout arena grown (front ++ ⟨plus c.start units, c.units - units⟩ :: back) (⟨c.start, units⟩ :: taken) := by
  have old := List.pairwise_append.mp layout.ordered
  simp only [List.pairwise_cons, List.mem_cons, forall_eq_or_imp] at old
  have inside : ∀ d, d ∈ front ++ ⟨plus c.start units, c.units - units⟩ :: back ↔
      d = ⟨plus c.start units, c.units - units⟩ ∨ d ∈ front ++ back := by
    intro d
    simp only [List.mem_append, List.mem_cons]
    tauto
  have kept : ∀ d ∈ front ++ back, d ∈ front ++ c :: back := by
    intro d member
    simp only [List.mem_append, List.mem_cons] at member ⊢
    tauto
  have cIn : c ∈ front ++ c :: back := List.mem_append_right _ List.mem_cons_self
  have apart : ∀ d ∈ front ++ back, d.stop ≤ c.start ∨ c.stop ≤ d.start := by
    intro d member
    rcases List.mem_append.mp member with inFront | inBack
    · exact Or.inl (old.2.2 d inFront).1
    · exact Or.inr (old.2.1.1 d inBack)
  have paged := layout.freePaged c cIn fun same => other (congrArg Chunk.start same)
  constructor
  · refine List.pairwise_append.mpr ⟨old.1, List.pairwise_cons.mpr ⟨?_, old.2.1.2⟩, ?_⟩
    · intro d member
      have order := old.2.1.1 d member
      rw [Chunk.stop_eq] at order ⊢
      simp only [plus_eq]
      omega
    · intro d inFront e inBack
      have order := (old.2.2 d inFront).1
      rcases List.mem_cons.mp inBack with rfl | inBack
      · simp only [plus_eq]
        omega
      · exact (old.2.2 d inFront).2 e inBack
  · intro d member
    rcases (inside d).mp member with rfl | member
    · simp only
      omega
    · exact layout.freeSized d (kept d member)
  · intro d member
    rcases List.mem_cons.mp member with rfl | member
    · exact some
    · exact layout.takenSized d member
  · intro d member e taken
    rcases (inside d).mp member with rfl | member
    · rcases List.mem_cons.mp taken with rfl | taken
      · exact Or.inr (Nat.le_refl _)
      · have away := layout.apart c cIn e taken
        rw [Chunk.Apart, Chunk.stop_eq, Chunk.stop_eq] at away ⊢
        simp only [plus_eq]
        omega
    · rcases List.mem_cons.mp taken with rfl | taken
      · have away := apart d member
        rw [Chunk.Apart]
        rw [Chunk.stop_eq, Chunk.stop_eq] at away ⊢
        simp only
        omega
      · exact layout.apart d (kept d member) e taken
  · refine List.pairwise_cons.mpr ⟨?_, layout.disjoint⟩
    intro d taken
    have away := layout.apart c cIn d taken
    rw [Chunk.Apart, Chunk.stop_eq, Chunk.stop_eq] at away ⊢
    simp only
    omega
  · apply (inside _).mpr
    right
    have member := layout.sentinel
    simp only [List.mem_append, List.mem_cons] at member ⊢
    rcases member with inFront | same | inBack
    · exact Or.inl inFront
    · exact absurd (congrArg Chunk.start same).symm other
    · exact Or.inr inBack
  · intro d member away
    rcases (inside d).mp member with rfl | member
    · intro x low high
      rw [Chunk.stop_eq] at high
      simp only [plus_eq] at low high
      exact paged x (by omega) (by rw [Chunk.stop_eq]; omega)
    · exact layout.freePaged d (kept d member) away
  · intro d member
    rcases List.mem_cons.mp member with rfl | member
    · intro x low high
      rw [Chunk.stop_eq] at high
      simp only at low high
      exact paged x low (by rw [Chunk.stop_eq]; omega)
    · exact layout.takenPaged d member
  · have total := layout.total
    simp only [List.map_append, List.map_cons, List.sum_append, List.sum_cons] at total ⊢
    omega
  · exact layout.clear

theorem remove (layout : Layout arena grown (front ++ c :: back) taken) (other : c.start ≠ arena) :
    Layout arena grown (front ++ back) (c :: taken) := by
  have old := List.pairwise_append.mp layout.ordered
  simp only [List.pairwise_cons, List.mem_cons, forall_eq_or_imp] at old
  have kept : ∀ d ∈ front ++ back, d ∈ front ++ c :: back := by
    intro d member
    simp only [List.mem_append, List.mem_cons] at member ⊢
    tauto
  have cIn : c ∈ front ++ c :: back := List.mem_append_right _ List.mem_cons_self
  constructor
  · exact layout.ordered.sublist ((List.sublist_cons_self c back).append_left front)
  · exact fun d member => layout.freeSized d (kept d member)
  · intro d member
    rcases List.mem_cons.mp member with rfl | member
    · exact layout.freeSized _ cIn
    · exact layout.takenSized d member
  · intro d member e taken
    rcases List.mem_cons.mp taken with rfl | taken
    · rcases List.mem_append.mp member with inFront | inBack
      · exact Or.inl (old.2.2 d inFront).1
      · exact Or.inr (old.2.1.1 d inBack)
    · exact layout.apart d (kept d member) e taken
  · exact List.pairwise_cons.mpr ⟨fun d taken => layout.apart c cIn d taken, layout.disjoint⟩
  · have member := layout.sentinel
    simp only [List.mem_append, List.mem_cons] at member ⊢
    rcases member with inFront | same | inBack
    · exact Or.inl inFront
    · exact absurd (congrArg Chunk.start same).symm other
    · exact Or.inr inBack
  · exact fun d member away => layout.freePaged d (kept d member) away
  · intro d member
    rcases List.mem_cons.mp member with rfl | member
    · exact layout.freePaged _ cIn fun same => other (congrArg Chunk.start same)
    · exact layout.takenPaged d member
  · have total := layout.total
    simp only [List.map_append, List.map_cons, List.sum_append, List.sum_cons] at total ⊢
    omega
  · exact layout.clear

/-- A new page comes as a taken chunk of 256 units. -/
theorem grow (layout : Layout arena grown free taken) (clear : Clear arena kva)
    (fresh : ∀ old ∈ grown, old + pgSize ≤ kva ∨ kva + pgSize ≤ old) :
    Layout arena (kva :: grown) free (⟨kva, 256⟩ :: taken) := by
  have more : ∀ c : Chunk, c.InPages grown → c.InPages (kva :: grown) := by
    intro c paged x low high
    obtain ⟨page, member, bounds⟩ := paged x low high
    exact ⟨page, List.mem_cons_of_mem _ member, bounds⟩
  have away : ∀ c : Chunk, 0 < c.units → c.InPages grown → c.Apart ⟨kva, 256⟩ := by
    intro c sized paged
    by_contra overlap
    rw [Chunk.Apart, Chunk.stop_eq, Chunk.stop_eq] at overlap
    simp only [not_or, not_le] at overlap
    obtain ⟨page, member, low, high⟩ := paged (max c.start kva) (Nat.le_max_left _ _) (by rw [Chunk.stop_eq]; omega)
    have bound := fresh page member
    rw [pgSize] at bound high
    omega
  constructor
  · exact layout.ordered
  · exact layout.freeSized
  · intro c member
    rcases List.mem_cons.mp member with rfl | member
    · exact Nat.zero_lt_succ 255
    · exact layout.takenSized c member
  · intro a first b second
    rcases List.mem_cons.mp second with rfl | second
    · by_cases own : a = ⟨arena, 1⟩
      · rw [own, Chunk.Apart, Chunk.stop_eq, Chunk.stop_eq]
        rw [Clear, plus_eq, pgSize] at clear
        simp only
        omega
      · exact away a (layout.freeSized a first) (layout.freePaged a first own)
    · exact layout.apart a first b second
  · refine List.pairwise_cons.mpr ⟨?_, layout.disjoint⟩
    intro c member
    exact (away c (layout.takenSized c member) (layout.takenPaged c member)).symm
  · exact layout.sentinel
  · exact fun c member other => more c (layout.freePaged c member other)
  · intro c member
    rcases List.mem_cons.mp member with rfl | member
    · intro x low high
      exact ⟨kva, List.mem_cons_self, low, high⟩
    · exact more c (layout.takenPaged c member)
  · have total := layout.total
    simp only [List.map_cons, List.sum_cons, List.length_cons]
    omega
  · intro page member
    rcases List.mem_cons.mp member with rfl | member
    · exact clear
    · exact layout.clear page member

end Layout

end Ucore
