import Mathlib
import Ucore.Lib.Chain
import Ucore.ProcTable

/-! The tree of parents and children, and what linking, unlinking and giving away
a child do to it. `kids` are the children of each process, the latest first. -/

namespace Ucore.ProcTable
open Lib

def ParentOf (table : ProcTable) (procs : List Ptr) (child parent : Ptr) : Prop :=
  child ∈ procs ∧ table.parent child = some parent

def Descends (table : ProcTable) (idle : Ptr) (procs : List Ptr) (proc : Ptr) : Prop :=
  Relation.ReflTransGen (table.ParentOf procs) proc idle

/-- The child and sibling pointers agree with `parent`. The `yptr`s below `moving`
may be out of date. -/
structure Tree (table : ProcTable) (idle : Ptr) (moving : Option Ptr) (procs : List Ptr) (kids : Ptr → List Ptr) : Prop where
  eldest : ∀ proc ∈ idle :: procs, table.cptr proc = (kids proc).head?
  older : ∀ proc ∈ idle :: procs, Forward table.optr (kids proc)
  younger : ∀ proc ∈ idle :: procs, some proc ≠ moving → Backward table.yptr none (kids proc)
  distinct : ∀ proc ∈ idle :: procs, (kids proc).Nodup
  family : ∀ proc ∈ idle :: procs, ∀ child, child ∈ kids proc ↔ table.ParentOf procs child proc
  rooted : ∀ proc ∈ procs, table.Descends idle procs proc
  top : table.parent idle = none

variable {table other : ProcTable} {idle proc parent : Ptr} {moving : Option Ptr} {procs after : List Ptr}
  {kids : Ptr → List Ptr}

section Descent

/-- A path to the idle process is kept if every process on it keeps its parent or
has a new path. -/
theorem Descends.carry (descends : table.Descends idle procs proc)
    (steps : ∀ inner ∈ procs, (inner ∈ after ∧ other.parent inner = table.parent inner) ∨ other.Descends idle after inner) :
    other.Descends idle after proc := by
  induction descends using Relation.ReflTransGen.head_induction_on with
  | refl => exact Relation.ReflTransGen.refl
  | head edge _ ih =>
    rcases steps _ edge.1 with ⟨member, same⟩ | path
    · exact Relation.ReflTransGen.head ⟨member, same.trans edge.2⟩ ih
    · exact path

/-- A process without children is on nobody else's path. -/
theorem Descends.erase {inner : Ptr} (descends : table.Descends idle procs inner) (distinct : procs.Nodup)
    (childless : ∀ child, ¬ table.ParentOf procs child proc) (same : other.parent = table.parent) (away : inner ≠ proc) :
    other.Descends idle (procs.erase proc) inner := by
  induction descends using Relation.ReflTransGen.head_induction_on with
  | refl => exact Relation.ReflTransGen.refl
  | head edge _ ih =>
    refine Relation.ReflTransGen.head ⟨distinct.mem_erase_iff.mpr ⟨away, edge.1⟩, same ▸ edge.2⟩ (ih ?_)
    rintro rfl
    exact childless _ edge

end Descent

namespace Tree

theorem parent_live (tree : table.Tree idle moving procs kids) (root : idle ∉ procs) (member : proc ∈ procs) :
    ∃ parent ∈ idle :: procs, table.parent proc = some parent := by
  rcases Relation.ReflTransGen.cases_head (tree.rooted proc member) with rfl | ⟨parent, edge, rest⟩
  · exact absurd member root
  · refine ⟨parent, ?_, edge.2⟩
    rcases Relation.ReflTransGen.cases_head rest with rfl | ⟨_, next, _⟩
    · exact List.mem_cons_self
    · exact List.mem_cons_of_mem _ next.1

theorem parent_ne (tree : table.Tree idle moving procs kids) (root : idle ∉ procs) (member : proc ∈ procs) :
    table.parent proc ≠ some proc := by
  intro loop
  have stuck : ∀ {inner}, table.Descends idle procs inner → inner ≠ proc := by
    intro inner path
    induction path using Relation.ReflTransGen.head_induction_on with
    | refl => exact (ne_of_mem_of_not_mem member root).symm
    | head edge _ ih =>
      rintro rfl
      exact ih (Option.some.inj (edge.2.symm.trans loop))
  exact stuck (tree.rooted proc member) rfl

theorem kids_member (tree : table.Tree idle moving procs kids) (member : proc ∈ idle :: procs) {child : Ptr}
    (inside : child ∈ kids proc) : child ∈ procs :=
  ((tree.family proc member child).mp inside).1

theorem disjoint (tree : table.Tree idle moving procs kids) {first second child : Ptr} (firstIn : first ∈ idle :: procs)
    (secondIn : second ∈ idle :: procs) (inFirst : child ∈ kids first) (inSecond : child ∈ kids second) : first = second := by
  have one := ((tree.family first firstIn child).mp inFirst).2
  have two := ((tree.family second secondIn child).mp inSecond).2
  exact Option.some.inj (one.symm.trans two)

theorem loosen (tree : table.Tree idle none procs kids) (moving : Option Ptr) : table.Tree idle moving procs kids :=
  { tree with younger := fun proc member _ => tree.younger proc member nofun }

/-- With no children left below it, the moving process is like all others. -/
theorem settle {giver : Ptr} (tree : table.Tree idle (some giver) procs kids) (empty : kids giver = []) :
    table.Tree idle none procs kids where
  eldest := tree.eldest
  older := tree.older
  younger proc member _ := by
    by_cases same : proc = giver
    · rw [same, empty]
      trivial
    · exact tree.younger proc member (fun eq => same (Option.some.inj eq))
  distinct := tree.distinct
  family := tree.family
  rooted := tree.rooted
  top := tree.top

theorem frame (tree : table.Tree idle moving procs kids)
    (parents : ∀ proc ∈ idle :: procs, other.parent proc = table.parent proc)
    (cptr : ∀ proc ∈ idle :: procs, other.cptr proc = table.cptr proc)
    (optr : ∀ proc ∈ procs, other.optr proc = table.optr proc)
    (yptr : ∀ proc ∈ procs, other.yptr proc = table.yptr proc) : other.Tree idle moving procs kids where
  eldest proc member := (cptr proc member).trans (tree.eldest proc member)
  older proc member := (tree.older proc member).frame (fun child inside => optr child (tree.kids_member member inside))
  younger proc member still :=
    (tree.younger proc member still).frame (fun child inside => yptr child (tree.kids_member member inside))
  distinct := tree.distinct
  family proc member child := by
    rw [tree.family proc member child]
    refine and_congr_right (fun inside => ?_)
    rw [parents child (List.mem_cons_of_mem _ inside)]
  rooted proc member :=
    (tree.rooted proc member).carry (fun inner inside => Or.inl ⟨inside, parents inner (List.mem_cons_of_mem _ inside)⟩)
  top := (parents idle List.mem_cons_self).trans tree.top

end Tree

/-- The sibling pointers after `proc` has become the first child of `parent`. -/
structure Pushes (table other : ProcTable) (proc parent : Ptr) : Prop where
  optr : other.optr = Function.update table.optr proc (table.cptr parent)
  youngest : other.yptr proc = none
  elder : ∀ older ∈ table.cptr parent, other.yptr older = some proc
  same : ∀ inner, inner ≠ proc → inner ∉ table.cptr parent → other.yptr inner = table.yptr inner

namespace Pushes

variable {nodes : List Ptr}

theorem older (pushes : Pushes table other proc parent) (forward : Forward table.optr nodes) (fresh : proc ∉ nodes) :
    Forward other.optr nodes := by
  apply forward.frame
  intro inner inside
  rw [pushes.optr, Function.update_of_ne (ne_of_mem_of_not_mem inside fresh)]

theorem younger (pushes : Pushes table other proc parent) (backward : Backward table.yptr none nodes)
    (fresh : proc ∉ nodes) (apart : ∀ older ∈ table.cptr parent, older ∉ nodes) : Backward other.yptr none nodes := by
  apply backward.frame
  intro inner inside
  exact pushes.same inner (ne_of_mem_of_not_mem inside fresh) (fun top => apart inner top inside)

theorem older_push (pushes : Pushes table other proc parent) (eldest : table.cptr parent = nodes.head?)
    (forward : Forward table.optr nodes) (fresh : proc ∉ nodes) : Forward other.optr (proc :: nodes) := by
  refine ⟨?_, pushes.older forward fresh⟩
  rw [pushes.optr, Function.update_self, eldest]

theorem younger_push (pushes : Pushes table other proc parent) (eldest : table.cptr parent = nodes.head?)
    (backward : Backward table.yptr none nodes) (distinct : nodes.Nodup) (fresh : proc ∉ nodes) :
    Backward other.yptr none (proc :: nodes) := by
  refine ⟨pushes.youngest, backward.redirect ?_ ?_⟩
  · exact fun inner top => pushes.elder inner (eldest ▸ top)
  · intro inner inside
    apply pushes.same inner (ne_of_mem_of_not_mem (List.mem_of_mem_tail inside) fresh)
    intro top
    rw [eldest] at top
    cases nodes with
    | nil => cases top
    | cons head nodes =>
      cases top
      exact (List.nodup_cons.mp distinct).1 inside

end Pushes

namespace Tree

/-- `set_links` of a process that is not in the table. -/
theorem link (tree : table.Tree idle none procs kids) (root : idle ∉ procs) (fresh : proc ∉ idle :: procs) (live : parent ∈ idle :: procs)
    (childless : table.cptr proc = none) (own : other.parent proc = some parent)
    (parents : ∀ inner ∈ idle :: procs, other.parent inner = table.parent inner)
    (cptr : other.cptr = Function.update table.cptr parent (some proc)) (pushes : Pushes table other proc parent) :
    other.Tree idle none (proc :: procs) (Function.update (Function.update kids proc []) parent (proc :: kids parent)) := by
  have apart : parent ≠ proc := ne_of_mem_of_not_mem live fresh
  have new : proc ∉ procs := fun inside => fresh (List.mem_cons_of_mem _ inside)
  have kidsFresh : ∀ inner ∈ idle :: procs, proc ∉ kids inner := fun inner member inside =>
    new (tree.kids_member member inside)
  have live' : ∀ inner ∈ idle :: proc :: procs, inner ≠ proc → inner ∈ idle :: procs := by
    intro inner member away
    simpa [away] using member
  have heads : ∀ inner ∈ idle :: procs, inner ≠ parent → ∀ older ∈ table.cptr parent, older ∉ kids inner := by
    intro inner member away older top inside
    rw [tree.eldest parent live] at top
    exact away (tree.disjoint member live inside (List.mem_of_head? top))
  have ownKids : Function.update (Function.update kids proc []) parent (proc :: kids parent) proc = [] := by
    rw [Function.update_of_ne apart.symm, Function.update_self]
  have otherKids : ∀ inner, inner ≠ proc → inner ≠ parent →
      Function.update (Function.update kids proc []) parent (proc :: kids parent) inner = kids inner := by
    intro inner notProc notParent
    rw [Function.update_of_ne notParent, Function.update_of_ne notProc]
  have path : ∀ inner ∈ procs, other.Descends idle (proc :: procs) inner := fun inner inside =>
    (tree.rooted inner inside).carry
      (fun step member => Or.inl ⟨List.mem_cons_of_mem _ member, parents step (List.mem_cons_of_mem _ member)⟩)
  constructor
  case eldest =>
    intro inner member
    rw [cptr]
    by_cases isParent : inner = parent
    · rw [isParent, Function.update_self, Function.update_self]
      rfl
    · rw [Function.update_of_ne isParent]
      by_cases isProc : inner = proc
      · rw [isProc, ownKids, childless]
        rfl
      · rw [otherKids inner isProc isParent]
        exact tree.eldest inner (live' inner member isProc)
  case older =>
    intro inner member
    by_cases isParent : inner = parent
    · rw [isParent, Function.update_self]
      exact pushes.older_push (tree.eldest parent live) (tree.older parent live) (kidsFresh parent live)
    · by_cases isProc : inner = proc
      · rw [isProc, ownKids]
        trivial
      · rw [otherKids inner isProc isParent]
        have old := live' inner member isProc
        exact pushes.older (tree.older inner old) (kidsFresh inner old)
  case younger =>
    intro inner member _
    by_cases isParent : inner = parent
    · rw [isParent, Function.update_self]
      exact pushes.younger_push (tree.eldest parent live) (tree.younger parent live nofun) (tree.distinct parent live)
        (kidsFresh parent live)
    · by_cases isProc : inner = proc
      · rw [isProc, ownKids]
        trivial
      · rw [otherKids inner isProc isParent]
        have old := live' inner member isProc
        exact pushes.younger (tree.younger inner old nofun) (kidsFresh inner old) (heads inner old isParent)
  case distinct =>
    intro inner member
    by_cases isParent : inner = parent
    · rw [isParent, Function.update_self]
      exact List.nodup_cons.mpr ⟨kidsFresh parent live, tree.distinct parent live⟩
    · by_cases isProc : inner = proc
      · rw [isProc, ownKids]
        exact List.nodup_nil
      · rw [otherKids inner isProc isParent]
        exact tree.distinct inner (live' inner member isProc)
  case family =>
    intro inner member child
    by_cases isChild : child = proc
    · subst isChild
      have edge : other.ParentOf (child :: procs) child inner ↔ inner = parent := by
        rw [ParentOf, own]
        simp [eq_comm]
      rw [edge]
      by_cases isParent : inner = parent
      · simp [isParent]
      · simp only [isParent, iff_false]
        by_cases isProc : inner = child
        · rw [isProc, ownKids]
          exact List.not_mem_nil
        · rw [otherKids inner isProc isParent]
          exact kidsFresh inner (live' inner member isProc)
    · have edge : other.ParentOf (proc :: procs) child inner ↔ table.ParentOf procs child inner := by
        rw [ParentOf, ParentOf, List.mem_cons]
        simp only [isChild, false_or]
        refine and_congr_right (fun inside => ?_)
        rw [parents child (List.mem_cons_of_mem _ inside)]
      rw [edge]
      by_cases isParent : inner = parent
      · rw [isParent, Function.update_self, List.mem_cons]
        simp only [isChild, false_or]
        exact tree.family parent live child
      · by_cases isProc : inner = proc
        · rw [isProc, ownKids]
          refine ⟨fun inside => absurd inside List.not_mem_nil, fun ⟨inside, up⟩ => ?_⟩
          obtain ⟨holder, holderLive, holds⟩ := tree.parent_live root inside
          rw [Option.some.inj (holds.symm.trans up)] at holderLive
          exact absurd holderLive fresh
        · rw [otherKids inner isProc isParent]
          exact tree.family inner (live' inner member isProc) child
  case rooted =>
    intro inner member
    rcases List.mem_cons.mp member with rfl | old
    · refine Relation.ReflTransGen.head ⟨List.mem_cons_self, own⟩ ?_
      rcases List.mem_cons.mp live with rfl | inside
      · exact Relation.ReflTransGen.refl
      · exact path parent inside
    · exact path inner old
  case top => exact (parents idle List.mem_cons_self).trans tree.top

/-- The loop of `do_exit` gives the first child `proc` of `giver` to `parent`, which
is a child of the idle process. -/
theorem move {giver : Ptr} {rest : List Ptr} (tree : table.Tree idle (some giver) procs kids) (root : idle ∉ procs)
    (source : giver ∈ procs) (first : kids giver = proc :: rest) (live : parent ∈ procs) (apart : parent ≠ giver)
    (top : table.parent parent = some idle)
    (parents : other.parent = Function.update table.parent proc (some parent))
    (cptr : other.cptr = Function.update (Function.update table.cptr giver rest.head?) parent (some proc))
    (pushes : Pushes table other proc parent) :
    other.Tree idle (some giver) procs (Function.update (Function.update kids giver rest) parent (proc :: kids parent)) := by
  have sourceLive : giver ∈ idle :: procs := List.mem_cons_of_mem _ source
  have parentLive : parent ∈ idle :: procs := List.mem_cons_of_mem _ live
  have inSource : proc ∈ kids giver := first ▸ List.mem_cons_self
  have edge := (tree.family giver sourceLive proc).mp inSource
  have sourceDistinct := tree.distinct giver sourceLive
  rw [first, List.nodup_cons] at sourceDistinct
  have elsewhere : ∀ inner ∈ idle :: procs, inner ≠ giver → proc ∉ kids inner := fun inner member away inside =>
    away (tree.disjoint member sourceLive inside inSource)
  have ownKids : Function.update (Function.update kids giver rest) parent (proc :: kids parent) giver = rest := by
    rw [Function.update_of_ne apart.symm, Function.update_self]
  have otherKids : ∀ inner, inner ≠ giver → inner ≠ parent →
      Function.update (Function.update kids giver rest) parent (proc :: kids parent) inner = kids inner := by
    intro inner notSource notParent
    rw [Function.update_of_ne notParent, Function.update_of_ne notSource]
  have heads : ∀ inner ∈ idle :: procs, inner ≠ parent → ∀ older ∈ table.cptr parent, older ∉ kids inner := by
    intro inner member away older top inside
    rw [tree.eldest parent parentLive] at top
    exact away (tree.disjoint member parentLive inside (List.mem_of_head? top))
  have parentAway : parent ≠ proc := by
    rintro rfl
    rw [edge.2] at top
    exact root (Option.some.inj top ▸ source)
  constructor
  case eldest =>
    intro inner member
    rw [cptr]
    by_cases isParent : inner = parent
    · rw [isParent, Function.update_self, Function.update_self]
      rfl
    · rw [Function.update_of_ne isParent]
      by_cases isSource : inner = giver
      · rw [isSource, Function.update_self, ownKids]
      · rw [Function.update_of_ne isSource, otherKids inner isSource isParent]
        exact tree.eldest inner member
  case older =>
    intro inner member
    by_cases isParent : inner = parent
    · rw [isParent, Function.update_self]
      exact pushes.older_push (tree.eldest parent parentLive) (tree.older parent parentLive)
        (elsewhere parent parentLive apart)
    · by_cases isSource : inner = giver
      · rw [isSource, ownKids]
        have forward := tree.older giver sourceLive
        rw [first] at forward
        exact pushes.older forward.2 sourceDistinct.1
      · rw [otherKids inner isSource isParent]
        exact pushes.older (tree.older inner member) (elsewhere inner member isSource)
  case younger =>
    intro inner member still
    have isSource : inner ≠ giver := fun same => still (congrArg some same)
    by_cases isParent : inner = parent
    · rw [isParent, Function.update_self]
      exact pushes.younger_push (tree.eldest parent parentLive)
        (tree.younger parent parentLive (fun same => apart (Option.some.inj same)))
        (tree.distinct parent parentLive) (elsewhere parent parentLive apart)
    · rw [otherKids inner isSource isParent]
      exact pushes.younger (tree.younger inner member still) (elsewhere inner member isSource) (heads inner member isParent)
  case distinct =>
    intro inner member
    by_cases isParent : inner = parent
    · rw [isParent, Function.update_self]
      exact List.nodup_cons.mpr ⟨elsewhere parent parentLive apart, tree.distinct parent parentLive⟩
    · by_cases isSource : inner = giver
      · rw [isSource, ownKids]
        exact sourceDistinct.2
      · rw [otherKids inner isSource isParent]
        exact tree.distinct inner member
  case family =>
    intro inner member child
    rw [ParentOf, parents]
    by_cases isChild : child = proc
    · subst isChild
      rw [Function.update_self]
      by_cases isParent : inner = parent
      · simp [isParent, edge.1]
      · have away : ¬ (some parent = some inner) := fun same => isParent (Option.some.inj same).symm
        simp only [away, and_false, iff_false]
        by_cases isSource : inner = giver
        · rw [isSource, ownKids]
          exact sourceDistinct.1
        · rw [otherKids inner isSource isParent]
          exact elsewhere inner member isSource
    · rw [Function.update_of_ne isChild]
      by_cases isParent : inner = parent
      · rw [isParent, Function.update_self, List.mem_cons]
        simp only [isChild, false_or]
        exact tree.family parent parentLive child
      · by_cases isSource : inner = giver
        · rw [isSource, ownKids]
          have old := tree.family giver sourceLive child
          rw [first, List.mem_cons] at old
          simp only [isChild, false_or] at old
          exact old
        · rw [otherKids inner isSource isParent]
          exact tree.family inner member child
  case rooted =>
    have up : other.Descends idle procs parent := by
      refine Relation.ReflTransGen.single ⟨live, ?_⟩
      rw [parents, Function.update_of_ne parentAway, top]
    intro inner member
    apply (tree.rooted inner member).carry
    intro step inside
    by_cases isProc : step = proc
    · right
      refine Relation.ReflTransGen.head ⟨inside, ?_⟩ up
      rw [parents, isProc, Function.update_self]
    · left
      refine ⟨inside, ?_⟩
      rw [parents, Function.update_of_ne isProc]
  case top =>
    rw [parents, Function.update_of_ne (ne_of_mem_of_not_mem edge.1 root).symm]
    exact tree.top

/-- `remove_links` of a process without children. -/
theorem unlink (tree : table.Tree idle none procs kids) (member : proc ∈ procs) (listed : procs.Nodup)
    (childless : kids proc = []) (live : parent ∈ idle :: procs) (up : table.parent proc = some parent)
    (parents : other.parent = table.parent)
    (cptr : other.cptr = match table.yptr proc with
      | some _ => table.cptr
      | none => Function.update table.cptr parent (table.optr proc))
    (optrNew : ∀ younger ∈ table.yptr proc, other.optr younger = table.optr proc)
    (optrSame : ∀ inner, inner ∉ table.yptr proc → other.optr inner = table.optr inner)
    (yptrNew : ∀ older ∈ table.optr proc, other.yptr older = table.yptr proc)
    (yptrSame : ∀ inner, inner ∉ table.optr proc → other.yptr inner = table.yptr inner) :
    other.Tree idle none (procs.erase proc) (Function.update kids parent ((kids parent).erase proc)) := by
  have parentDistinct := tree.distinct parent live
  have parentOlder := tree.older parent live
  have parentYounger := tree.younger parent live nofun
  have parentEldest := tree.eldest parent live
  have parentFamily := tree.family parent live
  have inside : proc ∈ kids parent := (parentFamily proc).mpr ⟨member, up⟩
  have within : ∀ inner ∈ idle :: procs.erase proc, inner ∈ idle :: procs := by
    intro inner old
    rcases List.mem_cons.mp old with rfl | rest
    · exact List.mem_cons_self
    · exact List.mem_cons_of_mem _ (List.mem_of_mem_erase rest)
  have otherKids : ∀ inner, inner ≠ parent → Function.update kids parent ((kids parent).erase proc) inner = kids inner :=
    fun inner away => Function.update_of_ne away _ _
  have elsewhere : ∀ inner ∈ idle :: procs, inner ≠ parent → ∀ child ∈ kids inner, child ∉ kids parent :=
    fun inner old away child below beside => away (tree.disjoint old live below beside)
  obtain ⟨front, back, split⟩ := List.append_of_mem inside
  rw [split] at parentDistinct parentOlder parentYounger parentEldest
  have outside : proc ∉ front := fun early => (List.nodup_append.mp parentDistinct).2.2 proc early proc List.mem_cons_self rfl
  have erased : (kids parent).erase proc = front ++ back := by
    rw [split, List.erase_append_right _ outside, List.erase_cons_head]
  have optr : table.optr proc = back.head? := parentOlder.next_node
  have yptr : table.yptr proc = front.getLast? := by rw [parentYounger.prev_node, Option.or_none]
  have lastIn : ∀ inner ∈ front.getLast?, inner ∈ kids parent := fun inner top =>
    split ▸ List.mem_append_left _ (List.mem_of_getLast? top)
  have headIn : ∀ inner ∈ back.head?, inner ∈ kids parent := fun inner top =>
    split ▸ List.mem_append_right _ (List.mem_cons_of_mem _ (List.mem_of_head? top))
  rw [yptr] at optrNew optrSame yptrNew cptr
  rw [optr] at optrNew yptrNew yptrSame cptr
  constructor
  case eldest =>
    intro inner old
    rw [cptr]
    by_cases isParent : inner = parent
    · rw [isParent, Function.update_self, erased]
      cases front with
      | nil => exact Function.update_self _ _ _
      | cons first front =>
        rw [List.getLast?_cons]
        exact parentEldest
    · rw [otherKids inner isParent, ← tree.eldest inner (within inner old)]
      cases front.getLast? with
      | none => exact Function.update_of_ne isParent _ _
      | some last => rfl
  case older =>
    intro inner old
    by_cases isParent : inner = parent
    · rw [isParent, Function.update_self, erased]
      refine parentOlder.unlink parentDistinct ?_ (fun child _ away => optrSame child away)
      exact fun child top => (optrNew child top).trans optr.symm
    · rw [otherKids inner isParent]
      refine (tree.older inner (within inner old)).frame (fun child below => optrSame child ?_)
      exact fun top => elsewhere inner (within inner old) isParent child below (lastIn child top)
  case younger =>
    intro inner old _
    by_cases isParent : inner = parent
    · rw [isParent, Function.update_self, erased]
      refine parentYounger.unlink parentDistinct ?_ (fun child _ away => yptrSame child away)
      exact fun child top => (yptrNew child top).trans yptr.symm
    · rw [otherKids inner isParent]
      refine (tree.younger inner (within inner old) nofun).frame (fun child below => yptrSame child ?_)
      exact fun top => elsewhere inner (within inner old) isParent child below (headIn child top)
  case distinct =>
    intro inner old
    by_cases isParent : inner = parent
    · rw [isParent, Function.update_self]
      exact (tree.distinct parent live).erase proc
    · rw [otherKids inner isParent]
      exact tree.distinct inner (within inner old)
  case family =>
    intro inner old child
    rw [ParentOf, parents, listed.mem_erase_iff]
    by_cases isParent : inner = parent
    · rw [isParent, Function.update_self, (tree.distinct parent live).mem_erase_iff, parentFamily child, and_assoc]
      rfl
    · rw [otherKids inner isParent, tree.family inner (within inner old) child, ParentOf, and_assoc]
      refine ⟨fun ⟨below, edge⟩ => ⟨?_, below, edge⟩, fun ⟨_, below, edge⟩ => ⟨below, edge⟩⟩
      rintro rfl
      exact isParent (Option.some.inj (edge.symm.trans up))
  case rooted =>
    intro inner rest
    obtain ⟨away, old⟩ := listed.mem_erase_iff.mp rest
    apply (tree.rooted inner old).erase listed ?_ parents away
    intro child edge
    have below := (tree.family proc (List.mem_cons_of_mem _ member) child).mpr edge
    rw [childless] at below
    exact List.not_mem_nil below
  case top => rw [parents]; exact tree.top

end Tree

end Ucore.ProcTable
