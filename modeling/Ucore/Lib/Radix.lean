import Mathlib

/-! Trees of three levels in a memory of tables: the words of a root point to directories,
the words of a directory to tables, and the words of a table are the leaves.
`entry` reads a word as a pointer, and a table has `fan` words. -/

namespace Ucore.Lib

universe u v

/-- A place in a tree where a table can stand: the root that it belongs to and its number
among the places of its level. -/
inductive Node (F : Type u) where
  | root (r : F)
  | dir (r : F) (i : ℕ)
  | table (r : F) (s : ℕ)
  deriving DecidableEq

namespace Node

variable {F : Type u}

def owner : Node F → F
  | root r => r
  | dir r _ => r
  | table r _ => r

/-- Only the first `top` words of a root are looked at. -/
def Inside (top fan : ℕ) : Node F → Prop
  | root _ => True
  | dir _ i => i < top
  | table _ s => s < top * fan

/-- The place whose words point to this one. -/
def parent (fan : ℕ) : Node F → Node F
  | root r => root r
  | dir r _ => root r
  | table r s => dir r (s / fan)

/-- The number of the word of the parent. -/
def index (fan : ℕ) : Node F → ℕ
  | root _ => 0
  | dir _ i => i
  | table _ s => s % fan

def Proper : Node F → Prop
  | root _ => False
  | dir _ _ => True
  | table _ _ => True

end Node

namespace Radix

variable {F : Type u} {W : Type v}

/-- The table that stands at a place. -/
def nodeAt (entry : W → Option F) (fan : ℕ) (word : F → ℕ → W) : Node F → Option F
  | .root r => some r
  | .dir r i => entry (word r i)
  | .table r s => (entry (word r (s / fan))).bind fun d => entry (word d (s % fan))

/-- The leaf number `v` of the tree at `r`, which is `zero` where a table is missing. -/
def leafAt (entry : W → Option F) (fan : ℕ) (word : F → ℕ → W) (zero : W) (r : F) (v : ℕ) : W :=
  match nodeAt entry fan word (.table r (v / fan)) with
  | some t => word t (v % fan)
  | none => zero

/-- Nothing is shared between the places of the trees at `roots`. -/
def Unique (entry : W → Option F) (fan : ℕ) (word : F → ℕ → W) (top : ℕ) (roots : Finset F) : Prop :=
  ∀ n n' : Node F, n.Inside top fan → n'.Inside top fan → n.owner ∈ roots → n'.owner ∈ roots →
    ∀ f, nodeAt entry fan word n = some f → nodeAt entry fan word n' = some f → n = n'

variable {entry : W → Option F} {fan top : ℕ} {word after : F → ℕ → W} {zero x : W} {roots : Finset F}
  {r d t q f : F} {i j s v : ℕ} {n n' : Node F}

section Places

theorem parent_inside (inside : n.Inside top fan) : (n.parent fan).Inside top fan := by
  cases n with
  | root r => trivial
  | dir r i => trivial
  | table r s => exact Nat.div_lt_of_lt_mul (by rw [mul_comm]; exact inside)

theorem parent_owner : (n.parent fan).owner = n.owner := by
  cases n <;> rfl

theorem slot_inside (inside : v < top * fan * fan) : (Node.table r (v / fan)).Inside top fan :=
  Nat.div_lt_of_lt_mul (by rw [mul_comm]; exact inside)

theorem place_eq (proper : n.Proper) (proper' : n'.Proper) (parent : n.parent fan = n'.parent fan)
    (index : n.index fan = n'.index fan) : n = n' := by
  cases n with
  | root r => cases proper
  | dir r i =>
    cases n' with
    | root r' => cases proper'
    | dir r' i' =>
      obtain rfl := Node.root.inj parent
      exact congrArg (Node.dir r) index
    | table r' s' => cases parent
  | table r s =>
    cases n' with
    | root r' => cases proper'
    | dir r' i' => cases parent
    | table r' s' =>
      obtain ⟨rfl, quotient⟩ := Node.dir.inj parent
      have remainder : s % fan = s' % fan := index
      rw [← Nat.div_add_mod s fan, ← Nat.div_add_mod s' fan, quotient, remainder]

theorem proper_ne_parent (proper : n.Proper) : n ≠ n.parent fan := by
  cases n with
  | root r => cases proper
  | dir r i => exact fun same => by cases same
  | table r s => exact fun same => by cases same

end Places

theorem nodeAt_proper (proper : n.Proper) :
    nodeAt entry fan word n = (nodeAt entry fan word (n.parent fan)).bind fun f => entry (word f (n.index fan)) := by
  cases n with
  | root r => cases proper
  | dir r i => rfl
  | table r s => rfl

theorem nodeAt_some (proper : n.Proper) (found : nodeAt entry fan word (n.parent fan) = some f) :
    nodeAt entry fan word n = entry (word f (n.index fan)) := by
  rw [nodeAt_proper proper, found]
  rfl

theorem nodeAt_none (proper : n.Proper) (missing : nodeAt entry fan word (n.parent fan) = none) :
    nodeAt entry fan word n = none := by
  rw [nodeAt_proper proper, missing]
  rfl

theorem leafAt_some (found : nodeAt entry fan word (.table r (v / fan)) = some t) :
    leafAt entry fan word zero r v = word t (v % fan) := by
  rw [leafAt, found]

theorem leafAt_none (missing : nodeAt entry fan word (.table r (v / fan)) = none) :
    leafAt entry fan word zero r v = zero := by
  rw [leafAt, missing]

theorem leafAt_congr (node : nodeAt entry fan after (.table r (v / fan)) = nodeAt entry fan word (.table r (v / fan)))
    (same : ∀ t, nodeAt entry fan word (.table r (v / fan)) = some t → after t (v % fan) = word t (v % fan)) :
    leafAt entry fan after zero r v = leafAt entry fan word zero r v := by
  cases found : nodeAt entry fan word (.table r (v / fan)) with
  | none => rw [leafAt_none found, leafAt_none (node.trans found)]
  | some t => rw [leafAt_some found, leafAt_some (node.trans found), same t found]

/-- A place that some tree of `roots` uses. -/
def Placed (entry : W → Option F) (fan : ℕ) (word : F → ℕ → W) (top : ℕ) (roots : Finset F) (f : F) : Prop :=
  ∃ n : Node F, n.Inside top fan ∧ n.owner ∈ roots ∧ nodeAt entry fan word n = some f

theorem nodeAt_frame (inside : n.Inside top fan) (owned : n.owner ∈ roots)
    (same : ∀ f, Placed entry fan word top roots f → after f = word f) : nodeAt entry fan after n = nodeAt entry fan word n := by
  have proper_case : ∀ m : Node F, m.Inside top fan → m.owner ∈ roots → m.Proper →
      nodeAt entry fan after (m.parent fan) = nodeAt entry fan word (m.parent fan) →
      nodeAt entry fan after m = nodeAt entry fan word m := by
    intro m inside owned proper above
    cases found : nodeAt entry fan word (m.parent fan) with
    | none => rw [nodeAt_none proper found, nodeAt_none proper (above.trans found)]
    | some f =>
      have placed : Placed entry fan word top roots f := ⟨_, parent_inside inside, by rw [parent_owner]; exact owned, found⟩
      rw [nodeAt_some proper found, nodeAt_some proper (above.trans found), same f placed]
  cases n with
  | root r => rfl
  | dir r i => exact proper_case _ inside owned trivial rfl
  | table r s => exact proper_case _ inside owned trivial (proper_case _ (parent_inside inside) owned trivial rfl)

theorem leafAt_frame (inside : v < top * fan * fan) (owned : r ∈ roots)
    (same : ∀ f, Placed entry fan word top roots f → after f = word f) :
    leafAt entry fan after zero r v = leafAt entry fan word zero r v := by
  have within : (Node.table r (v / fan)).Inside top fan := slot_inside inside
  refine leafAt_congr (nodeAt_frame within owned same) ?_
  intro t found
  rw [same t ⟨_, within, owned, found⟩]

theorem nodeAt_shrink (less : ∀ q j, after q j = word q j ∨ entry (after q j) = none) (found : nodeAt entry fan after n = some f) :
    nodeAt entry fan word n = some f := by
  have kept (q : F) (j : ℕ) (target : F) (there : entry (after q j) = some target) : entry (word q j) = some target := by
    rcases less q j with same | gone
    · rw [← same]
      exact there
    · rw [gone] at there
      cases there
  cases n with
  | root r => exact found
  | dir r i => exact kept r i f found
  | table r s =>
    obtain ⟨d, above, here⟩ := Option.bind_eq_some_iff.mp found
    exact Option.bind_eq_some_iff.mpr ⟨d, kept _ _ _ above, kept _ _ _ here⟩

section Link

/-- `after` differs from `word` in the word that points to the place `n` and in memory that is
not part of the trees. -/
structure Relinked (entry : W → Option F) (fan : ℕ) (word : F → ℕ → W) (top : ℕ) (roots : Finset F) (n : Node F) (f : F)
    (after : F → ℕ → W) : Prop where
  proper : n.Proper
  inside : n.Inside top fan
  owned : n.owner ∈ roots
  above : nodeAt entry fan word (n.parent fan) = some f
  same : ∀ q j, Placed entry fan word top roots q → ¬ (q = f ∧ j = n.index fan) → after q j = word q j

variable (unique : Unique entry fan word top roots) (relinked : Relinked entry fan word top roots n f after)
include unique relinked

theorem Relinked.other (inside' : n'.Inside top fan) (owned' : n'.owner ∈ roots) (other : n' ≠ n) (apart : n'.parent fan ≠ n) :
    nodeAt entry fan after n' = nodeAt entry fan word n' := by
  have parentOwned : (n.parent fan).owner ∈ roots := by
    rw [parent_owner]
    exact relinked.owned
  have proper_case : ∀ m : Node F, m.Inside top fan → m.owner ∈ roots → m.Proper → m ≠ n →
      nodeAt entry fan after (m.parent fan) = nodeAt entry fan word (m.parent fan) →
      nodeAt entry fan after m = nodeAt entry fan word m := by
    intro m inside owned proper other above
    cases found : nodeAt entry fan word (m.parent fan) with
    | none => rw [nodeAt_none proper found, nodeAt_none proper (above.trans found)]
    | some q =>
      have ownedParent : (m.parent fan).owner ∈ roots := by
        rw [parent_owner]
        exact owned
      rw [nodeAt_some proper found, nodeAt_some proper (above.trans found)]
      refine congrArg entry (relinked.same q _ ⟨_, parent_inside inside, ownedParent, found⟩ ?_)
      intro here
      obtain ⟨rfl, index⟩ := here
      have parents := unique _ _ (parent_inside inside) (parent_inside relinked.inside) ownedParent parentOwned q found relinked.above
      exact other (place_eq proper relinked.proper parents index)
  cases n' with
  | root r => rfl
  | dir r i => exact proper_case _ inside' owned' trivial other rfl
  | table r s =>
    refine proper_case _ inside' owned' trivial other ?_
    exact proper_case _ (parent_inside inside') owned' trivial apart rfl

theorem Relinked.still : nodeAt entry fan after (n.parent fan) = some f := by
  rw [← relinked.above]
  refine relinked.other unique (parent_inside relinked.inside) (by rw [parent_owner]; exact relinked.owned)
    (proper_ne_parent relinked.proper).symm ?_
  have proper := relinked.proper
  cases n with
  | root r => cases proper
  | dir r i => exact fun same => by cases same
  | table r s => exact fun same => by cases same

theorem Relinked.here : nodeAt entry fan after n = entry (after f (n.index fan)) :=
  nodeAt_some relinked.proper (relinked.still unique)

theorem Relinked.below (proper : n'.Proper) (under : n'.parent fan = n) :
    nodeAt entry fan after n' = (entry (after f (n.index fan))).bind fun d => entry (after d (n'.index fan)) := by
  rw [nodeAt_proper proper, under, relinked.here unique]

theorem Relinked.leaf (inside' : v < top * fan * fan) (owned' : r ∈ roots) (other : .table r (v / fan) ≠ n)
    (apart : .dir r (v / fan / fan) ≠ n) : leafAt entry fan after zero r v = leafAt entry fan word zero r v := by
  have within : (Node.table r (v / fan)).Inside top fan := slot_inside inside'
  refine leafAt_congr (relinked.other unique within owned' other apart) ?_
  intro t found
  refine relinked.same t _ ⟨_, within, owned', found⟩ ?_
  intro here
  obtain ⟨rfl, _⟩ := here
  have place := unique _ _ within (parent_inside relinked.inside) owned' (by rw [parent_owner]; exact relinked.owned) t found relinked.above
  have proper := relinked.proper
  cases n with
  | root r => cases proper
  | dir r i => cases place
  | table r s => cases place

end Link

section Leaf

variable (unique : Unique entry fan word top roots)
include unique

/-- A write to a table changes no place. -/
theorem nodeAt_write_leaf (inside : (Node.table r s).Inside top fan) (root : r ∈ roots)
    (found : nodeAt entry fan word (.table r s) = some t) (inside' : n.Inside top fan) (owned : n.owner ∈ roots)
    (same : ∀ q, q ≠ t → after q = word q) : nodeAt entry fan after n = nodeAt entry fan word n := by
  have proper_case : ∀ m : Node F, m.Inside top fan → m.owner ∈ roots → m.Proper →
      nodeAt entry fan after (m.parent fan) = nodeAt entry fan word (m.parent fan) →
      nodeAt entry fan after m = nodeAt entry fan word m := by
    intro m insideM ownedM proper above
    cases foundM : nodeAt entry fan word (m.parent fan) with
    | none => rw [nodeAt_none proper foundM, nodeAt_none proper (above.trans foundM)]
    | some q =>
      have other : q ≠ t := by
        rintro rfl
        have place := unique _ _ inside (parent_inside insideM) root (by rw [parent_owner]; exact ownedM) q found foundM
        cases m with
        | root r => cases proper
        | dir r i => cases place
        | table r s => cases place
      rw [nodeAt_some proper foundM, nodeAt_some proper (above.trans foundM), same q other]
  cases n with
  | root r => rfl
  | dir r i => exact proper_case _ inside' owned trivial rfl
  | table r s => exact proper_case _ inside' owned trivial (proper_case _ (parent_inside inside') owned trivial rfl)

/-- A write to a word of a table changes one leaf. -/
theorem leafAt_write_leaf [DecidableEq F] (inside : v < top * fan * fan) (root : r ∈ roots)
    (found : nodeAt entry fan word (.table r (v / fan)) = some t) (same : ∀ q, q ≠ t → after q = word q)
    (others : ∀ j, j ≠ v % fan → after t j = word t j) {r' : F} {v' : ℕ} (inside' : v' < top * fan * fan) (root' : r' ∈ roots) :
    leafAt entry fan after zero r' v' = if r' = r ∧ v' = v then after t (v % fan) else leafAt entry fan word zero r' v' := by
  have node := nodeAt_write_leaf unique (slot_inside inside) root found (slot_inside inside' : (Node.table r' (v' / fan)).Inside top fan)
    root' same
  by_cases here : r' = r ∧ v' = v
  · obtain ⟨rfl, rfl⟩ := here
    rw [leafAt_some (node.trans found), if_pos ⟨rfl, rfl⟩]
  · rw [if_neg here]
    refine leafAt_congr node ?_
    intro t' found'
    by_cases own : t' = t
    · subst own
      have place := unique _ _ (slot_inside inside) (slot_inside inside') root root' t' found found'
      obtain ⟨rfl, quotient⟩ := Node.table.inj place
      refine others _ fun remainder => here ⟨rfl, ?_⟩
      rw [← Nat.div_add_mod v' fan, ← Nat.div_add_mod v fan, quotient, remainder]
    · rw [same t' own]

end Leaf

end Radix

end Ucore.Lib
