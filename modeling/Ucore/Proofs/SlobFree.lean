import Ucore.Proofs.Slob

/-! `slob_free` puts a chunk back into the list in address order and merges it with the
chunks that it touches. -/

namespace Ucore
open Lib

/-- The condition under which the search of `slob_free` stops. -/
def Exits (next : Nat → Nat) (b cur : Nat) : Prop := b > cur ∧ b < next cur ∨ cur ≥ next cur ∧ (b > cur ∨ b < next cur)

section Search

variable {next : Nat → Nat} {front back : List Nat} {b p x : Nat}

theorem exits_before (cyclic : Cyclic next (front ++ back)) (sorted : (front ++ back).Pairwise (· < ·)) (below : ∀ a ∈ front, a < b)
    (above : ∀ a ∈ back, b < a) (before : Before p front back) : Exits next b p := by
  rcases before with ⟨start, rfl⟩ | ⟨rfl, start, rfl⟩
  · have lower := below p (by simp)
    cases back with
    | nil =>
      rw [List.append_nil] at cyclic sorted
      have found := cyclic.next_last
      right
      refine ⟨?_, Or.inl lower⟩
      rw [found]
      cases start with
      | nil => exact Nat.le_refl p
      | cons first start => exact Nat.le_of_lt ((List.pairwise_cons.mp sorted).1 p (by simp))
    | cons second back =>
      have found := cyclic.next_before (Or.inl ⟨start, rfl⟩)
      left
      rw [found]
      exact ⟨lower, above second List.mem_cons_self⟩
  · rw [List.nil_append] at cyclic sorted
    have found := cyclic.next_last
    right
    rw [found]
    cases start with
    | nil => exact ⟨Nat.le_refl p, Or.inr (above p List.mem_cons_self)⟩
    | cons first start =>
      exact ⟨Nat.le_of_lt ((List.pairwise_cons.mp sorted).1 p (by simp)), Or.inr (above first List.mem_cons_self)⟩

theorem not_exits (cyclic : Cyclic next (front ++ back)) (sorted : (front ++ back).Pairwise (· < ·)) (below : ∀ a ∈ front, a < b)
    (above : ∀ a ∈ back, b < a) (before : Before p front back) (inside : x ∈ front ++ back) (other : x ≠ p) : ¬ Exits next b x := by
  rcases List.mem_append.mp inside with inFront | inBack
  · obtain ⟨start, rest, rfl⟩ := List.append_of_mem inFront
    cases rest with
    | nil =>
      rcases before with ⟨start', split⟩ | ⟨empty, -⟩
      · exact absurd (List.append_inj_right' split rfl) (by simpa using other)
      · simp at empty
    | cons y rest =>
      have lower := below y (by simp)
      have split : start ++ x :: y :: rest ++ back = (start ++ [x]) ++ y :: (rest ++ back) := by simp
      rw [split] at cyclic sorted
      have found := cyclic.next_before (Or.inl ⟨start, rfl⟩)
      have order : x < y := (List.pairwise_append.mp sorted).2.2 x (by simp) y (by simp)
      rw [Exits, found]
      omega
  · obtain ⟨start, rest, rfl⟩ := List.append_of_mem inBack
    have upper := above x (by simp)
    cases rest with
    | nil =>
      cases front with
      | nil =>
        rcases before with ⟨start', split⟩ | ⟨-, start', split⟩
        · simp at split
        · exact absurd (List.append_inj_right' split rfl) (by simpa using other)
      | cons first front =>
        have lower := below first List.mem_cons_self
        have split : first :: front ++ (start ++ [x]) = (first :: front ++ start) ++ [x] := by simp
        rw [split] at cyclic
        have found := cyclic.next_last
        rw [List.cons_append, List.cons_append, List.headD_cons] at found
        rw [Exits, found]
        omega
    | cons y rest =>
      have split : front ++ (start ++ x :: y :: rest) = (front ++ start ++ [x]) ++ y :: rest := by simp
      rw [split] at cyclic sorted
      have found := cyclic.next_before (Or.inl ⟨front ++ start, rfl⟩)
      have order : x < y := (List.pairwise_append.mp sorted).2.2 x (by simp) y (by simp)
      rw [Exits, found]
      omega

end Search

namespace Heap

variable {h : Heap} {b p cur fuel : Nat} {nodes : List Nat}

theorem slobFreeLoop_succ (b : Nat) (h : Heap) (fuel cur : Nat) [Decidable (Exits h.next b cur)] :
    h.slobFreeLoop b (fuel + 1) cur = if Exits h.next b cur then .ok cur else h.slobFreeLoop b fuel (h.next cur) := by
  rw [slobFreeLoop]
  by_cases between : b > cur ∧ b < h.next cur
  · have exits : Exits h.next b cur := Or.inl between
    rw [if_pos between, if_pos exits]
  · rw [if_neg between]
    by_cases round : cur ≥ h.next cur ∧ (b > cur ∨ b < h.next cur)
    · have exits : Exits h.next b cur := Or.inr round
      rw [if_pos round, if_pos exits]
    · have stays : ¬ Exits h.next b cur := fun exits => exits.elim between round
      rw [if_neg round, if_neg stays]

open Classical in
theorem slobFreeLoop_path (path : Path h.next cur nodes p) (stays : ∀ x ∈ cur :: nodes, ¬ Exits h.next b x)
    (exits : Exits h.next b p) (enough : nodes.length + 1 < fuel) : h.slobFreeLoop b fuel cur = .ok p := by
  induction nodes generalizing cur fuel with
  | nil =>
    obtain ⟨fuel, rfl⟩ := Nat.exists_eq_add_of_lt enough
    have found : h.next cur = p := path
    rw [show [].length + 1 + fuel + 1 = (fuel + 1) + 1 by simp [Nat.add_comm], slobFreeLoop_succ, if_neg (stays cur List.mem_cons_self),
      found, slobFreeLoop_succ, if_pos exits]
  | cons node nodes ih =>
    cases fuel with
    | zero => omega
    | succ fuel =>
      rw [slobFreeLoop_succ, if_neg (stays cur List.mem_cons_self), path.1]
      exact ih path.2 (fun x inside => stays x (List.mem_cons_of_mem _ inside)) (Nat.lt_of_succ_lt_succ enough)

open Classical in
theorem slobFreeLoop_here (exits : Exits h.next b p) (enough : 0 < fuel) : h.slobFreeLoop b fuel p = .ok p := by
  obtain ⟨fuel, rfl⟩ := Nat.exists_eq_add_of_lt enough
  rw [show 0 + fuel + 1 = fuel + 1 by omega, slobFreeLoop_succ, if_pos exits]

end Heap

/-- What `slob_free` leaves when `b` is not merged into `p`. -/
def Heap.linked (b p : Nat) (h : Heap) : Heap := { (h.joinNext b p).setNext p b with slobfree := p }

private theorem linked_touch {h : Heap} {b p : Nat} (touch : Heap.plus b (h.units b) = h.next p) :
    h.linked b p = { h with
      units := Function.update h.units b (h.units b + h.units (h.next p))
      next := Function.update (Function.update h.next b (h.next (h.next p))) p b
      slobfree := p } := by
  rw [Heap.linked, Heap.joinNext, if_pos touch]
  rfl

private theorem linked_apart {h : Heap} {b p : Nat} (apart : Heap.plus b (h.units b) ≠ h.next p) :
    h.linked b p = { h with next := Function.update (Function.update h.next b (h.next p)) p b, slobfree := p } := by
  rw [Heap.linked, Heap.joinNext, if_neg apart]
  rfl

/-- The list of the heap leads through the free chunks. -/
structure Threaded (h : Heap) (free taken : List Chunk) : Prop where
  cyclic : Cyclic h.next (free.map Chunk.start)
  start : h.slobfree ∈ free.map Chunk.start
  units : ∀ c ∈ free, h.units c.start = c.units
  layout : Layout h.arena h.grown free taken

/-- In addition no two free chunks touch. -/
structure Integrity (h : Heap) (free taken : List Chunk) : Prop extends Threaded h free taken where
  strict : free.Pairwise fun a b => a.stop < b.start
  paged : ∀ kva ∈ h.grown, ∃ page, kva = page2kva page

/-- The heaps differ in the free list and the units of chunks only. -/
def Heap.SameElse (h h' : Heap) : Prop := h' = { h with units := h'.units, next := h'.next, slobfree := h'.slobfree }

namespace Threaded

variable {h h' : Heap} {free taken front back : List Chunk} {b c p x : Chunk}

theorem sorted (whole : Threaded h free taken) : (free.map Chunk.start).Pairwise (· < ·) := by
  refine List.pairwise_map.mpr (whole.layout.ordered.imp_of_mem ?_)
  intro a b member _ order
  have size := whole.layout.freeSized a member
  rw [Chunk.stop_eq] at order
  omega

theorem free_eq (whole : Threaded h free taken) (first : b ∈ free) (second : c ∈ free) (same : b.start = c.start) : b = c :=
  List.inj_on_of_nodup_map whole.layout.distinct first second same

theorem arena_eq (whole : Threaded h free taken) (member : c ∈ free) (same : c.start = h.arena) : c = ⟨h.arena, 1⟩ :=
  whole.free_eq member whole.layout.sentinel same

/-- The search of `slob_free` ends at the chunk in front of the place of `b`. -/
theorem search (whole : Threaded h (front ++ back) (b :: taken)) (below : ∀ c ∈ front, c.stop ≤ b.start)
    (above : ∀ c ∈ back, b.stop ≤ c.start) (before : Before p.start (front.map Chunk.start) (back.map Chunk.start)) :
    h.slobFreeLoop b.start h.fuel h.slobfree = .ok p.start := by
  have size := whole.layout.takenSized b List.mem_cons_self
  have cyclic := whole.cyclic
  have sorted := whole.sorted
  have start := whole.start
  rw [List.map_append] at cyclic sorted start
  have lower : ∀ a ∈ front.map Chunk.start, a < b.start := by
    intro a member
    obtain ⟨c, inside, rfl⟩ := List.mem_map.mp member
    have order := below c inside
    have positive := whole.layout.freeSized c (List.mem_append_left _ inside)
    rw [Chunk.stop_eq] at order
    omega
  have upper : ∀ a ∈ back.map Chunk.start, b.start < a := by
    intro a member
    obtain ⟨c, inside, rfl⟩ := List.mem_map.mp member
    have order := above c inside
    rw [Chunk.stop_eq] at order
    omega
  have exits := exits_before cyclic sorted lower upper before
  have stays := fun x => not_exits (x := x) cyclic sorted lower upper before
  have length := whole.layout.length_le
  by_cases here : h.slobfree = p.start
  · rw [here]
    exact Heap.slobFreeLoop_here exits (Nat.succ_pos _)
  · obtain ⟨first, rest, split⟩ := List.append_of_mem start
    have cycle := cyclic first h.slobfree rest split
    have member : p.start ∈ rest ++ first := by
      have inside := before.mem
      rw [split] at inside
      simp only [List.mem_append, List.mem_cons] at inside ⊢
      rcases inside with inFirst | same | inRest
      · exact Or.inr inFirst
      · exact absurd same.symm here
      · exact Or.inl inRest
    obtain ⟨visited, later, order⟩ := List.append_of_mem member
    have path := cycle.path
    rw [order] at path
    have distinct := cycle.distinct
    rw [order] at distinct
    have nodes : ∀ y, y ∈ h.slobfree :: (visited ++ p.start :: later) → y ∈ front.map Chunk.start ++ back.map Chunk.start := by
      intro y inside
      rw [← order] at inside
      rw [split]
      simp only [List.mem_cons, List.mem_append] at inside ⊢
      tauto
    apply Heap.slobFreeLoop_path (Path.append.mp path).1
    · intro y inside
      apply stays y (nodes y (by simp only [List.mem_cons, List.mem_append] at inside ⊢; tauto))
      rintro rfl
      rcases List.mem_cons.mp inside with same | inVisited
      · exact here same.symm
      · have apart := (List.nodup_append.mp (List.nodup_cons.mp distinct).2).2.2
        exact apart _ inVisited _ List.mem_cons_self rfl
    · exact exits
    · have count : (visited ++ p.start :: later).length + 1 = (front ++ back).length := by
        have total := congrArg List.length split
        have parts := congrArg List.length order
        simp only [List.length_append, List.length_cons, List.length_map] at total parts ⊢
        omega
      simp only [List.length_append, List.length_cons] at count length
      rw [Heap.fuel]
      omega

theorem pred (whole : Threaded h (front ++ back) taken) :
    ∃ p ∈ front ++ back, (∃ start, front = start ++ [p]) ∨ front = [] ∧ ∃ start, back = start ++ [p] := by
  rcases List.eq_nil_or_concat front with rfl | ⟨start, p, rfl⟩
  · rcases List.eq_nil_or_concat back with rfl | ⟨start, p, rfl⟩
    · cases whole.layout.sentinel
    · exact ⟨p, by simp, .inr ⟨rfl, start, by simp⟩⟩
  · exact ⟨p, by simp, .inl ⟨start, by simp⟩⟩

/-- `p` is the chunk in front of the place between `front` and `back`. -/
def Pred (p : Chunk) (front back : List Chunk) : Prop :=
  (∃ start, front = start ++ [p]) ∨ front = [] ∧ ∃ start, back = start ++ [p]

theorem pred_starts (pred : Pred p front back) : Before p.start (front.map Chunk.start) (back.map Chunk.start) := by
  rcases pred with ⟨start, rfl⟩ | ⟨rfl, start, rfl⟩
  · exact .inl ⟨start.map Chunk.start, by simp⟩
  · exact .inr ⟨rfl, start.map Chunk.start, by simp⟩

theorem taken_start (whole : Threaded h free (b :: taken)) (member : c ∈ free) : c.start ≠ b.start := by
  have apart := whole.layout.apart c member b List.mem_cons_self
  have size := whole.layout.takenSized b List.mem_cons_self
  have size' := whole.layout.freeSized c member
  rw [Chunk.Apart, Chunk.stop_eq, Chunk.stop_eq] at apart
  omega

private theorem pred_ne (whole : Threaded h (front ++ c :: back) (b :: taken)) (pred : Pred p front (c :: back))
    (touch : b.stop = c.start) : p.start ≠ c.start := by
  intro same
  have distinct := whole.layout.distinct
  rcases pred with ⟨start, rfl⟩ | ⟨rfl, start, split⟩
  · simp only [List.append_assoc, List.singleton_append, List.map_append, List.map_cons, same] at distinct
    exact (List.nodup_cons.mp (List.nodup_append.mp distinct).2.1).1 List.mem_cons_self
  · cases start with
    | nil =>
      obtain ⟨rfl, rfl⟩ := List.cons.inj split
      have own := List.mem_singleton.mp whole.layout.sentinel
      have away := Layout.off_arena whole.layout.clear (whole.layout.takenSized b List.mem_cons_self)
        (whole.layout.takenPaged b List.mem_cons_self)
      rw [← own] at touch
      exact away.1 touch
    | cons first start =>
      obtain ⟨rfl, rfl⟩ := List.cons.inj split
      simp only [List.nil_append, List.map_cons, ← same] at distinct
      exact (List.nodup_cons.mp distinct).1 (by simp)

/-- `b` comes into the list behind `p`, and takes in the chunk that it touches. -/
theorem link (whole : Threaded h (front ++ back) (b :: taken)) (strict : back.Pairwise fun a b => a.stop < b.start)
    (own : h.units b.start = b.units) (below : ∀ c ∈ front, c.stop ≤ b.start) (above : ∀ c ∈ back, b.stop ≤ c.start)
    (pred : Pred p front back) (member : p ∈ front ++ back) :
    ∃ x rest, x.start = b.start ∧ b.units ≤ x.units ∧
      Threaded (h.linked b.start p.start) (front ++ x :: rest) taken ∧
      (∀ c ∈ rest, x.stop < c.start) ∧ rest.Pairwise fun a b => a.stop < b.start := by
  have away := Layout.off_arena whole.layout.clear (whole.layout.takenSized b List.mem_cons_self)
    (whole.layout.takenPaged b List.mem_cons_self)
  have fresh : ∀ c ∈ front ++ back, c.start ≠ b.start := fun c member => taken_start whole member
  have other : p.start ≠ b.start := fresh p member
  have released := whole.layout.release below above
  have before := pred_starts pred
  have cyclic := whole.cyclic
  rw [List.map_append] at cyclic
  by_cases touch : b.stop = h.next p.start
  · -- `b` touches the chunk behind its place, which is not the first one of the list
    cases back with
    | nil =>
      have inside := cyclic.next_mem (List.mem_append_left _ (by simpa using List.mem_map_of_mem member))
      rw [← touch, List.map_nil, List.append_nil] at inside
      obtain ⟨c, inFront, same⟩ := List.mem_map.mp inside
      have low := below c inFront
      have size := whole.layout.takenSized b List.mem_cons_self
      have size' := whole.layout.freeSized c (List.mem_append_left _ inFront)
      rw [Chunk.stop_eq] at low same
      omega
    | cons c back =>
      have behind : h.next p.start = c.start := cyclic.next_before before
      rw [behind] at touch
      have distinct := pred_ne whole pred touch
      have cIn : c ∈ front ++ c :: back := List.mem_append_right _ List.mem_cons_self
      have eq : h.linked b.start p.start = { h with
          units := Function.update h.units b.start (h.units b.start + h.units c.start)
          next := Function.update (Function.update h.next b.start (h.next c.start)) p.start b.start
          slobfree := p.start } := by
        rw [linked_touch (by rw [own, behind]; exact touch), behind]
      have kept : ∀ d, d ∈ front ++ back → d ∈ front ++ c :: back := by
        intro d inside
        simp only [List.mem_append, List.mem_cons] at inside ⊢
        tauto
      have away' : c.start ≠ h.arena := by
        rw [← touch]
        exact away.1
      refine ⟨⟨b.start, b.units + c.units⟩, back, rfl, Nat.le_add_right _ _, ⟨?_, ?_, ?_, ?_⟩, ?_, (List.pairwise_cons.mp strict).2⟩
      · rw [eq, List.map_append, List.map_cons]
        refine cyclic.replace before distinct ?_ ?_ ?_ ?_
        · rw [← List.map_append]
          intro inside
          obtain ⟨d, inList, same⟩ := List.mem_map.mp inside
          exact fresh d (kept d inList) same
        · simp
        · simp [Function.update_of_ne other.symm]
        · rw [← List.map_append]
          intro node inside apart
          obtain ⟨d, inList, rfl⟩ := List.mem_map.mp inside
          simp [Function.update_of_ne apart, Function.update_of_ne (fresh d (kept d inList))]
      · rw [eq]
        simp only [List.map_append, List.map_cons]
        have inside := before.mem
        simp only [List.map_cons, List.mem_append, List.mem_cons] at inside ⊢
        tauto
      · intro d inside
        rw [eq]
        simp only [List.mem_append, List.mem_cons] at inside
        by_cases isNew : d = ⟨b.start, b.units + c.units⟩
        · simp [isNew, own, whole.units c cIn]
        · have old : d ∈ front ++ c :: back := kept d (by simp only [List.mem_append]; tauto)
          simp [Function.update_of_ne (fresh d old), whole.units d old]
      · rw [eq]
        exact released.merge touch away.2.2 away'
      · intro d inside
        have order := (List.pairwise_cons.mp strict).1 d inside
        rw [Chunk.stop_eq] at order touch ⊢
        simp only
        omega
  · have eq : h.linked b.start p.start = { h with
        next := Function.update (Function.update h.next b.start (h.next p.start)) p.start b.start
        slobfree := p.start } := linked_apart (by rw [own]; exact touch)
    refine ⟨b, back, rfl, Nat.le_refl _, ⟨?_, ?_, ?_, ?_⟩, ?_, strict⟩
    · rw [eq, List.map_append, List.map_cons]
      refine cyclic.insert before ?_ ?_ ?_ ?_
      · rw [← List.map_append]
        intro inside
        obtain ⟨d, inList, same⟩ := List.mem_map.mp inside
        exact fresh d inList same
      · simp
      · simp [Function.update_of_ne other.symm]
      · rw [← List.map_append]
        intro node inside apart
        obtain ⟨d, inList, rfl⟩ := List.mem_map.mp inside
        simp [Function.update_of_ne apart, Function.update_of_ne (fresh d inList)]
    · rw [eq]
      have inside := before.mem
      simp only [List.map_append, List.map_cons, List.mem_append, List.mem_cons] at inside ⊢
      tauto
    · intro d inside
      rw [eq]
      simp only [List.mem_append, List.mem_cons] at inside
      by_cases isNew : d = b
      · rw [isNew]
        exact own
      · exact whole.units d (by simp only [List.mem_append]; tauto)
    · rw [eq]
      exact released
    · intro d inside
      have order := above d inside
      refine Nat.lt_of_le_of_ne order ?_
      intro same
      cases back with
      | nil => cases inside
      | cons c back =>
        have behind : h.next p.start = c.start := cyclic.next_before before
        rcases List.mem_cons.mp inside with rfl | inside
        · exact touch (same.trans behind.symm)
        · have first := above c List.mem_cons_self
          have second := (List.pairwise_cons.mp strict).1 d inside
          rw [Chunk.stop_eq] at second
          have size := whole.layout.freeSized c (by simp)
          omega

end Threaded

/-- No two chunks touch if the new one touches none. -/
theorem strict_join {front back : List Chunk} {x : Chunk} (first : front.Pairwise fun a b => a.stop < b.start)
    (second : back.Pairwise fun a b => a.stop < b.start) (left : ∀ c ∈ front, c.stop < x.start) (right : ∀ c ∈ back, x.stop < c.start) :
    (front ++ x :: back).Pairwise fun a b => a.stop < b.start := by
  refine List.pairwise_append.mpr ⟨first, List.pairwise_cons.mpr ⟨right, second⟩, ?_⟩
  intro a inFront c inBack
  have before := left a inFront
  rcases List.mem_cons.mp inBack with rfl | inBack
  · exact before
  · have behind := right c inBack
    rw [Chunk.stop_eq] at behind
    omega

private theorem linked_units {h : Heap} {b p a : Nat} (other : a ≠ b) : (h.linked b p).units a = h.units a := by
  unfold Heap.linked Heap.joinNext
  split
  · exact Function.update_of_ne other _ _
  · rfl

private theorem linked_else {h : Heap} {b p : Nat} : h.SameElse (h.linked b p) := by
  unfold Heap.linked Heap.joinNext
  split <;> rfl

private theorem joined_eq {h : Heap} {b p : Nat} (other : p ≠ b) :
    ({ (h.joinNext b p).joinPrev b p with slobfree := p } : Heap) =
      if Heap.plus p ((h.linked b p).units p) = b then
        { h.linked b p with
          units := Function.update (h.linked b p).units p ((h.linked b p).units p + (h.linked b p).units b)
          next := Function.update (h.linked b p).next p ((h.linked b p).next b) }
      else h.linked b p := by
  have next : (h.linked b p).next b = (h.joinNext b p).next b := Function.update_of_ne other.symm _ _
  rw [next]
  unfold Heap.joinPrev Heap.linked
  by_cases touch : Heap.plus p ((h.joinNext b p).units p) = b
  · rw [if_pos touch, if_pos (by exact touch)]
    simp only [Heap.setNext, Heap.setUnits, Function.update_idem]
  · rw [if_neg touch, if_neg (by exact touch)]

namespace Integrity

variable {h : Heap} {free taken start rest : List Chunk} {b p x : Chunk}

private theorem absorb {g : Heap} (whole : Threaded g ((start ++ [p]) ++ x :: rest) taken)
    (touch : p.stop = x.start) (first : p.start ≠ g.arena) (second : x.start ≠ g.arena) (here : g.slobfree = p.start) :
    Threaded { g with
        units := Function.update g.units p.start (g.units p.start + g.units x.start)
        next := Function.update g.next p.start (g.next x.start) }
      (start ++ ⟨p.start, p.units + x.units⟩ :: rest) taken := by
  have pIn : p ∈ (start ++ [p]) ++ x :: rest := by simp
  have xIn : x ∈ (start ++ [p]) ++ x :: rest := by simp
  have distinct := whole.layout.distinct
  have cyclic := whole.cyclic
  have layout := whole.layout
  have away : p.start ≠ x.start := by
    rw [← touch, Chunk.stop_eq]
    have size := layout.freeSized p pIn
    omega
  rw [List.map_append, List.map_cons] at cyclic
  have merged : (start ++ ⟨p.start, p.units + x.units⟩ :: rest).map Chunk.start =
      (start ++ [p]).map Chunk.start ++ rest.map Chunk.start := by simp
  refine ⟨?_, ?_, ?_, ?_⟩
  · rw [merged]
    refine cyclic.unlink (.inl ⟨start.map Chunk.start, by simp⟩) away (by simp) ?_
    intro node _ other
    exact Function.update_of_ne other _ _
  · rw [here]
    simp
  · intro d inside
    by_cases isNew : d = ⟨p.start, p.units + x.units⟩
    · simp [isNew, whole.units p pIn, whole.units x xIn]
    · have inOthers : d ∈ start ++ rest := by
        simp only [List.mem_append, List.mem_cons] at inside ⊢
        tauto
      have old : d ∈ (start ++ [p]) ++ x :: rest := by
        simp only [List.mem_append, List.mem_cons] at inOthers ⊢
        tauto
      have other : d.start ≠ p.start := by
        intro same
        obtain rfl := whole.free_eq old pIn same
        simp only [List.append_assoc, List.singleton_append, List.map_append, List.map_cons] at distinct
        have unique := List.nodup_append.mp distinct
        rcases List.mem_append.mp inOthers with inStart | inRest
        · exact unique.2.2 _ (List.mem_map_of_mem inStart) _ List.mem_cons_self rfl
        · exact (List.nodup_cons.mp unique.2.1).1 (List.mem_cons_of_mem _ (List.mem_map_of_mem inRest))
      simp [Function.update_of_ne other, whole.units d old]
  · rw [List.append_assoc, List.singleton_append] at layout
    exact layout.merge touch first second

/-- `slob_free` of a chunk with its own number of units gives it back to the list. -/
theorem reinsert (whole : Integrity h free (b :: taken)) (own : h.units b.start = b.units) :
    ∃ h' free', h.reinsert b.start = .ok h' ∧ Integrity h' free' taken ∧ h.SameElse h' ∧
      (∀ d ∈ taken, h'.units d.start = h.units d.start) ∧ ∃ c ∈ free', b.units ≤ c.units ∧ c.start ≠ h.arena := by
  obtain ⟨front, back, rfl, below, above⟩ := whole.layout.split
  obtain ⟨p, member, pred⟩ := whole.pred
  have strict := List.pairwise_append.mp whole.strict
  have other : p.start ≠ b.start := Threaded.taken_start whole.toThreaded member
  have away := Layout.off_arena whole.layout.clear (whole.layout.takenSized b List.mem_cons_self)
    (whole.layout.takenPaged b List.mem_cons_self)
  have outside : ∀ d ∈ taken, d.start ≠ b.start ∧ d.start ≠ p.start := by
    intro d inTaken
    have apart := (List.pairwise_cons.mp whole.layout.disjoint).1 d inTaken
    have apart' := whole.layout.apart p member d (List.mem_cons_of_mem _ inTaken)
    have size := whole.layout.takenSized d (List.mem_cons_of_mem _ inTaken)
    have size' := whole.layout.takenSized b List.mem_cons_self
    have size'' := whole.layout.freeSized p member
    rw [Chunk.Apart, Chunk.stop_eq, Chunk.stop_eq] at apart apart'
    omega
  obtain ⟨x, rest, xStart, larger, threaded, right, strictRest⟩ :=
    whole.toThreaded.link strict.2.1 own below above pred member
  have searched := whole.toThreaded.search below above (Threaded.pred_starts pred)
  have arena : (h.linked b.start p.start).arena = h.arena := by rw [linked_else]
  have grown : (h.linked b.start p.start).grown = h.grown := by rw [linked_else]
  have xArena : x.start ≠ h.arena := by rw [xStart]; exact away.2.2
  have found : h.reinsert b.start = .ok { (h.joinNext b.start p.start).joinPrev b.start p.start with slobfree := p.start } := by
    rw [Heap.reinsert, searched]
    rfl
  rw [joined_eq other] at found
  by_cases touch : Heap.plus p.start ((h.linked b.start p.start).units p.start) = b.start
  · -- `p` is in front of `b`, since it ends where `b` begins
    rw [if_pos touch] at found
    rcases pred with ⟨start, rfl⟩ | ⟨rfl, start, rfl⟩
    swap
    · have order := above p member
      have size := whole.layout.takenSized b List.mem_cons_self
      rw [Chunk.stop_eq] at order
      rw [plus_eq] at touch
      omega
    have pUnits := threaded.units p (by simp)
    rw [pUnits] at touch
    have pArena : p.start ≠ h.arena := by
      intro same
      have own := whole.arena_eq member same
      have last : Heap.plus h.arena 1 = b.start := by rw [← touch, own]
      exact away.2.1 last
    refine ⟨_, start ++ ⟨p.start, p.units + x.units⟩ :: rest, found, ⟨?_, ?_, ?_⟩, ?_, ?_, ?_⟩
    · have joined := absorb threaded (touch.trans xStart.symm) (by rw [arena]; exact pArena) (by rw [arena]; exact xArena) rfl
      rwa [xStart] at joined
    · have inner := List.pairwise_append.mp strict.1
      refine strict_join inner.1 strictRest ?_ ?_
      · intro c inside
        exact inner.2.2 c inside p List.mem_cons_self
      · intro c inside
        have order := right c inside
        have size := threaded.layout.freeSized p (by simp)
        have touching : p.stop = x.start := touch.trans xStart.symm
        rw [Chunk.stop_eq] at order touching ⊢
        simp only
        omega
    · intro kva inside
      exact whole.paged kva (by rw [← grown]; exact inside)
    · have same : h.SameElse (h.linked b.start p.start) := linked_else
      rw [Heap.SameElse] at same ⊢
      rw [same]
    · intro d inTaken
      exact (Function.update_of_ne (outside d inTaken).2 _ _).trans (linked_units (outside d inTaken).1)
    · exact ⟨⟨p.start, p.units + x.units⟩, by simp, by simp only; omega, pArena⟩
  · rw [if_neg touch] at found
    refine ⟨_, front ++ x :: rest, found, ⟨threaded, ?_, by rw [grown]; exact whole.paged⟩, linked_else, ?_, ?_⟩
    · refine strict_join strict.1 strictRest ?_ right
      intro c inside
      rw [xStart]
      refine Nat.lt_of_le_of_ne (below c inside) ?_
      intro same
      rcases pred with ⟨start, rfl⟩ | ⟨rfl, _⟩
      · have pUnits := threaded.units p (by simp)
        rw [pUnits] at touch
        rcases List.mem_append.mp inside with inStart | isLast
        · have order := (List.pairwise_append.mp strict.1).2.2 c inStart p List.mem_cons_self
          have last := below p (by simp)
          have size := whole.layout.freeSized p member
          rw [Chunk.stop_eq] at last
          omega
        · rw [List.mem_singleton.mp isLast] at same
          exact touch same
      · cases inside
    · intro d inTaken
      exact linked_units (outside d inTaken).1
    · exact ⟨x, by simp, larger, xArena⟩

theorem setUnits (whole : Integrity h free taken) (member : b ∈ taken) (value : Nat) : Integrity (h.setUnits b.start value) free taken where
  cyclic := whole.cyclic
  start := whole.start
  units c inside := by
    have apart := whole.layout.apart c inside b member
    have size := whole.layout.takenSized b member
    have size' := whole.layout.freeSized c inside
    rw [Chunk.Apart, Chunk.stop_eq, Chunk.stop_eq] at apart
    have other : c.start ≠ b.start := by omega
    exact (Function.update_of_ne other _ _).trans (whole.units c inside)
  layout := whole.layout
  strict := whole.strict
  paged := whole.paged

theorem nonzero (whole : Integrity h free taken) (member : b ∈ taken) : b.start ≠ 0 := by
  have size := whole.layout.takenSized b member
  obtain ⟨kva, inside, low, high⟩ := whole.layout.takenPaged b member b.start (Nat.le_refl _) (by rw [Chunk.stop_eq]; omega)
  obtain ⟨page, rfl⟩ := whole.paged kva inside
  rw [page2kva, physicalMemoryOffset] at low
  omega

/-- `slob_free` of a taken chunk, when `size` or the field of the chunk says its units. -/
theorem slobFree {size : Nat} (whole : Integrity h free (b :: taken))
    (own : size ≠ 0 ∧ slobUnits size = b.units ∨ size = 0 ∧ h.units b.start = b.units) :
    ∃ h' free', h.slobFree b.start size = .ok h' ∧ Integrity h' free' taken ∧ h.SameElse h' ∧
      (∀ d ∈ taken, h'.units d.start = h.units d.start) ∧ ∃ c ∈ free', b.units ≤ c.units ∧ c.start ≠ h.arena := by
  have address := whole.nonzero List.mem_cons_self
  rcases own with ⟨given, units⟩ | ⟨rfl, units⟩
  · have set := whole.setUnits List.mem_cons_self b.units
    obtain ⟨h', free', done, whole', same, kept, room⟩ := set.reinsert (by simp [Heap.setUnits])
    refine ⟨h', free', ?_, whole', ?_, ?_, room⟩
    · rw [Heap.slobFree, if_neg address, if_pos given, units]
      exact done
    · rw [Heap.SameElse] at same ⊢
      rw [same]
      rfl
    · intro d inTaken
      have apart := (List.pairwise_cons.mp whole.layout.disjoint).1 d inTaken
      have size' := whole.layout.takenSized d (List.mem_cons_of_mem _ inTaken)
      have size'' := whole.layout.takenSized b List.mem_cons_self
      rw [Chunk.Apart, Chunk.stop_eq, Chunk.stop_eq] at apart
      have other : d.start ≠ b.start := by omega
      rw [kept d inTaken]
      exact Function.update_of_ne other _ _
  · obtain ⟨h', free', done, whole', same, kept, room⟩ := whole.reinsert units
    exact ⟨h', free', by rw [Heap.slobFree, if_neg address, if_neg (not_not.mpr rfl), done], whole', same, kept, room⟩

end Integrity

end Ucore
