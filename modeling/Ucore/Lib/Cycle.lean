import Mathlib

/-! Circular singly linked lists. The nodes are given as a list that begins anywhere, and
an edit happens at the pointer of one node, the predecessor of the place. -/

namespace Ucore.Lib

variable {α : Type*}

/-- From `first` the pointers lead through `nodes` to `last`. -/
def Path (next : α → α) : α → List α → α → Prop
  | first, [], last => next first = last
  | first, node :: nodes, last => next first = node ∧ Path next node nodes last

/-- From `start` the pointers lead through `rest` and back to `start`. -/
structure Cycle (next : α → α) (start : α) (rest : List α) : Prop where
  path : Path next start rest start
  distinct : (start :: rest).Nodup

/-- The pointers lead from each node of the list to the one behind it, and from the last
node to the first. -/
def Cyclic (next : α → α) (nodes : List α) : Prop :=
  ∀ front node back, nodes = front ++ node :: back → Cycle next node (back ++ front)

variable {next other : α → α} {first last node p c x : α} {nodes rest front back : List α}

theorem Path.append : Path next first (front ++ node :: back) last ↔ Path next first front node ∧ Path next node back last := by
  induction front generalizing first with
  | nil => rfl
  | cons second front ih => rw [List.cons_append, Path, Path, ih, and_assoc]

theorem Path.frame (path : Path next first nodes last) (same : ∀ node ∈ first :: nodes, other node = next node) :
    Path other first nodes last := by
  induction nodes generalizing first with
  | nil => exact (same first List.mem_cons_self).trans path
  | cons node nodes ih =>
    refine ⟨(same first List.mem_cons_self).trans path.1, ih path.2 ?_⟩
    exact fun inner inside => same inner (List.mem_cons_of_mem _ inside)

theorem Path.reach (path : Path next first nodes last) (member : node ∈ nodes ++ [last]) : ∃ steps, next^[steps] first = node := by
  induction nodes generalizing first with
  | nil => exact ⟨1, path.trans (List.mem_singleton.mp member).symm⟩
  | cons second nodes ih =>
    rcases List.mem_cons.mp member with rfl | inside
    · exact ⟨1, path.1⟩
    · obtain ⟨steps, there⟩ := ih path.2 inside
      refine ⟨steps + 1, ?_⟩
      rw [Function.iterate_succ_apply, path.1]
      exact there

theorem Path.next_eq (path : Path next first nodes last) : next first = nodes.headD last := by
  cases nodes with
  | nil => exact path
  | cons node nodes => exact path.1

namespace Cycle

theorem next_eq (cycle : Cycle next first rest) : next first = rest.headD first := cycle.path.next_eq

theorem rotate (cycle : Cycle next first (front ++ node :: back)) : Cycle next node (back ++ first :: front) := by
  obtain ⟨before, behind⟩ := Path.append.mp cycle.path
  refine ⟨Path.append.mpr ⟨behind, before⟩, ?_⟩
  have same : (node :: (back ++ first :: front)).Perm (first :: (front ++ node :: back)) := by
    calc node :: (back ++ first :: front)
      _ = (node :: back) ++ (first :: front) := rfl
      List.Perm _ ((first :: front) ++ (node :: back)) := List.perm_append_comm
      _ = first :: (front ++ node :: back) := rfl
  exact same.nodup_iff.mpr cycle.distinct

theorem insert (cycle : Cycle next first rest) (fresh : node ∉ first :: rest) (here : other first = node)
    (there : other node = next first) (same : ∀ inner ∈ rest, other inner = next inner) : Cycle other first (node :: rest) := by
  have swapped : (first :: node :: rest).Nodup := by
    rw [(List.Perm.swap node first rest).nodup_iff]
    exact List.nodup_cons.mpr ⟨fresh, cycle.distinct⟩
  refine ⟨⟨here, ?_⟩, swapped⟩
  cases rest with
  | nil => exact there.trans cycle.path
  | cons second rest =>
    exact ⟨there.trans cycle.path.1, cycle.path.2.frame same⟩

theorem unlink (cycle : Cycle next first (node :: rest)) (here : other first = next node)
    (same : ∀ inner ∈ rest, other inner = next inner) : Cycle other first rest := by
  refine ⟨?_, cycle.distinct.sublist ((List.sublist_cons_self node rest).cons_cons first)⟩
  cases rest with
  | nil => exact here.trans cycle.path.2
  | cons second rest => exact ⟨here.trans cycle.path.2.1, cycle.path.2.2.frame same⟩

theorem replace (cycle : Cycle next first (node :: rest)) (fresh : x ∉ first :: rest) (here : other first = x)
    (there : other x = next node) (same : ∀ inner ∈ rest, other inner = next inner) : Cycle other first (x :: rest) := by
  have apart := List.nodup_cons.mp (cycle.distinct.sublist ((List.sublist_cons_self node rest).cons_cons first))
  have swapped : (first :: x :: rest).Nodup := by
    rw [(List.Perm.swap x first rest).nodup_iff]
    exact List.nodup_cons.mpr ⟨fresh, List.nodup_cons.mpr apart⟩
  refine ⟨⟨here, ?_⟩, swapped⟩
  cases rest with
  | nil => exact there.trans cycle.path.2
  | cons second rest => exact ⟨there.trans cycle.path.2.1, cycle.path.2.2.frame same⟩

theorem cyclic (cycle : Cycle next node (back ++ front)) : Cyclic next (front ++ node :: back) := by
  intro before x behind split
  rcases List.append_eq_append_iff.mp split with ⟨middle, eqs, tail⟩ | ⟨middle, eqs, tail⟩
  · cases middle with
    | nil =>
      rw [List.nil_append, List.cons.injEq] at tail
      rw [eqs, List.append_nil, ← tail.1, ← tail.2]
      exact cycle
    | cons y middle =>
      rw [List.cons_append, List.cons.injEq] at tail
      obtain ⟨rfl, rfl⟩ := tail
      rw [List.append_assoc, List.cons_append] at cycle
      have turned := cycle.rotate
      rwa [eqs, ← List.append_assoc]
  · cases middle with
    | nil =>
      rw [List.nil_append, List.cons.injEq] at tail
      rw [List.append_nil] at eqs
      rw [← eqs, tail.1, tail.2]
      exact cycle
    | cons y middle =>
      rw [List.cons_append, List.cons.injEq] at tail
      obtain ⟨rfl, rfl⟩ := tail
      rw [eqs, ← List.append_assoc] at cycle
      have turned := cycle.rotate
      rw [List.append_assoc, List.cons_append]
      exact turned

end Cycle

/-- `p` is the node in front of the place between `front` and `back`. -/
def Before (p : α) (front back : List α) : Prop :=
  (∃ start, front = start ++ [p]) ∨ front = [] ∧ ∃ start, back = start ++ [p]

theorem Before.mem (before : Before p front back) : p ∈ front ++ back := by
  rcases before with ⟨start, rfl⟩ | ⟨rfl, start, rfl⟩ <;> simp

namespace Cyclic

theorem single (self : next node = node) : Cyclic next [node] := by
  have cycle : Cycle next node ([] ++ []) := ⟨self, List.nodup_singleton node⟩
  exact cycle.cyclic

theorem frame (cyclic : Cyclic next nodes) (same : ∀ node ∈ nodes, other node = next node) : Cyclic other nodes := by
  rintro front node back rfl
  have cycle := cyclic front node back rfl
  refine ⟨cycle.path.frame ?_, cycle.distinct⟩
  intro inner inside
  exact same inner (by grind)

theorem distinct (cyclic : Cyclic next nodes) : nodes.Nodup := by
  cases nodes with
  | nil => exact List.nodup_nil
  | cons node nodes =>
    have cycle := cyclic [] node nodes rfl
    rw [List.append_nil] at cycle
    exact cycle.distinct

theorem next_before (cyclic : Cyclic next (front ++ node :: back)) (before : Before p front (node :: back)) : next p = node := by
  rcases before with ⟨start, rfl⟩ | ⟨rfl, start, split⟩
  · exact (cyclic start p (node :: back) (by simp)).next_eq
  · rw [List.nil_append, split] at cyclic
    have found := (cyclic start p [] rfl).next_eq
    rw [found, List.nil_append]
    cases start with
    | nil =>
      rw [List.nil_append, List.cons.injEq] at split
      exact split.1.symm
    | cons first start =>
      rw [List.cons_append, List.cons.injEq] at split
      exact split.1.symm

theorem next_mem (cyclic : Cyclic next nodes) (member : node ∈ nodes) : next node ∈ nodes := by
  obtain ⟨front, back, rfl⟩ := List.append_of_mem member
  rw [(cyclic front node back rfl).next_eq]
  cases back with
  | nil => cases front <;> simp
  | cons second back => simp

theorem next_ne (cyclic : Cyclic next nodes) (member : node ∈ nodes) (another : x ∈ nodes) (away : x ≠ node) : next node ≠ node := by
  obtain ⟨front, back, rfl⟩ := List.append_of_mem member
  have cycle := cyclic front node back rfl
  have absent := (List.nodup_cons.mp cycle.distinct).1
  have nonempty : x ∈ back ++ front := by
    simp only [List.mem_append, List.mem_cons] at another ⊢
    tauto
  rw [cycle.next_eq]
  cases rest : back ++ front with
  | nil => rw [rest] at nonempty; cases nonempty
  | cons second rest' =>
    intro same
    obtain rfl : second = node := same
    rw [rest] at absent
    exact absent List.mem_cons_self

theorem before_of_next (cyclic : Cyclic next (front ++ node :: back)) (member : p ∈ front ++ node :: back)
    (leads : next p = node) : Before p front (node :: back) := by
  have distinct := cyclic.distinct
  obtain ⟨start, rest, split⟩ := List.append_of_mem member
  have found := (cyclic start p rest split).next_eq
  rw [leads] at found
  cases rest with
  | nil =>
    cases start with
    | nil =>
      have only : front ++ node :: back = [p] := split
      rw [found]
      obtain ⟨rfl, rest⟩ : front = [] ∧ node :: back = [p] := by
        cases front with
        | nil => exact ⟨rfl, only⟩
        | cons first front => simp at only
      exact .inr ⟨rfl, [], by rw [← found, rest]; rfl⟩
    | cons first start =>
      obtain rfl : node = first := found
      cases front with
      | nil => exact .inr ⟨rfl, node :: start, split⟩
      | cons other front =>
        obtain rfl := (List.cons.inj split).1
        exact absurd (by simp) (List.nodup_cons.mp distinct).1
  | cons second rest =>
    obtain rfl : node = second := found
    have turned : front ++ node :: back = (start ++ [p]) ++ node :: rest := by simp [split]
    refine .inl ⟨start, ?_⟩
    have apart := List.nodup_append.mp distinct
    refine (List.append_cons_inj_of_notMem ?_ ?_).mp turned |>.1
    · exact fun inside => apart.2.2 _ inside _ List.mem_cons_self rfl
    · exact (List.nodup_cons.mp apart.2.1).1

theorem next_last (cyclic : Cyclic next (front ++ [p])) : next p = (front ++ [p]).headD p := by
  have found := (cyclic front p [] rfl).next_eq
  rw [found, List.nil_append]
  cases front <;> rfl

theorem insert (cyclic : Cyclic next (front ++ back)) (before : Before p front back) (fresh : x ∉ front ++ back)
    (here : other p = x) (there : other x = next p) (same : ∀ node ∈ front ++ back, node ≠ p → other node = next node) :
    Cyclic other (front ++ x :: back) := by
  rcases before with ⟨start, rfl⟩ | ⟨rfl, start, rfl⟩
  · rw [List.append_assoc, List.singleton_append] at *
    have cycle : Cycle next p (back ++ start) := cyclic start p back rfl
    have distinct := cycle.distinct
    have turned : Cycle other p ((x :: back) ++ start) := by
      apply cycle.insert (by grind) here there
      intro inner inside
      exact same inner (by grind) (by grind)
    exact turned.cyclic
  · have cycle : Cycle next p start := cyclic start p [] rfl
    have distinct := cycle.distinct
    have turned : Cycle other p ([] ++ x :: start) := by
      apply cycle.insert (by grind) here there
      intro inner inside
      exact same inner (by grind) (by grind)
    exact turned.cyclic

theorem unlink (cyclic : Cyclic next (front ++ c :: back)) (before : Before p front (c :: back)) (away : p ≠ c)
    (here : other p = next c) (same : ∀ node ∈ front ++ back, node ≠ p → other node = next node) :
    Cyclic other (front ++ back) := by
  rcases before with ⟨start, rfl⟩ | ⟨rfl, start, split⟩
  · rw [List.append_assoc, List.singleton_append] at *
    have cycle : Cycle next p (c :: (back ++ start)) := cyclic start p (c :: back) rfl
    have distinct := cycle.distinct
    have turned : Cycle other p (back ++ start) := by
      apply cycle.unlink here
      intro inner inside
      exact same inner (by grind) (by grind)
    exact turned.cyclic
  · cases start with
    | nil =>
      rw [List.nil_append, List.cons.injEq] at split
      exact absurd split.1.symm away
    | cons first start =>
      rw [List.cons_append, List.cons.injEq] at split
      obtain ⟨rfl, rfl⟩ := split
      have cycle : Cycle next p (c :: start) := cyclic (c :: start) p [] rfl
      have distinct := cycle.distinct
      have turned : Cycle other p ([] ++ start) := by
        apply cycle.unlink here
        intro inner inside
        exact same inner (by grind) (by grind)
      exact turned.cyclic

theorem replace (cyclic : Cyclic next (front ++ c :: back)) (before : Before p front (c :: back)) (away : p ≠ c)
    (fresh : x ∉ front ++ back) (here : other p = x) (there : other x = next c)
    (same : ∀ node ∈ front ++ back, node ≠ p → other node = next node) : Cyclic other (front ++ x :: back) := by
  rcases before with ⟨start, rfl⟩ | ⟨rfl, start, split⟩
  · rw [List.append_assoc, List.singleton_append] at *
    have cycle : Cycle next p (c :: (back ++ start)) := cyclic start p (c :: back) rfl
    have distinct := cycle.distinct
    have turned : Cycle other p ((x :: back) ++ start) := by
      apply cycle.replace (by grind) here there
      intro inner inside
      exact same inner (by grind) (by grind)
    exact turned.cyclic
  · cases start with
    | nil =>
      rw [List.nil_append, List.cons.injEq] at split
      exact absurd split.1.symm away
    | cons first start =>
      rw [List.cons_append, List.cons.injEq] at split
      obtain ⟨rfl, rfl⟩ := split
      have cycle : Cycle next p (c :: start) := cyclic (c :: start) p [] rfl
      have distinct := cycle.distinct
      have turned : Cycle other p ([] ++ x :: start) := by
        apply cycle.replace (by grind) here there
        intro inner inside
        exact same inner (by grind) (by grind)
      exact turned.cyclic

end Cyclic

end Ucore.Lib
