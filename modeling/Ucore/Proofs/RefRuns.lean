import Mathlib
import Ucore.Proofs.CopyRange
import Ucore.Proofs.ExitMmap

/-! Reference counts over whole runs of the functions that map and unmap user pages. -/

namespace Ucore
open Lib

/-- The calls that change user mappings. `alloc_page` is one of them when it is asked for a page
that is to be mapped. -/
inductive PageCall where
  | allocPage
  | pageInsert (pgdir page : Frame) (la : Nat) (perm : BitVec 32)
  | pageRemove (pgdir : Frame) (la : Nat)
  | pgdirAllocPage (pgdir : Frame) (la : Nat) (perm : BitVec 32)
  | copyRange (target source : Frame) (start stop : Nat)
  | unmapRange (pgdir : Frame) (start stop : Nat)
  | exitMmap (mm : MmStruct)

/-- The memory, and the frames that are used as user memory: they were allocated to be mapped and
were not given back. -/
structure UserPages where
  mem : Mem
  user : Set Frame

namespace PageCall

def run : PageCall → Mem → Kern Mem
  | allocPage, m => .ok m.allocPage.2
  | pageInsert pgdir page la perm, m => (m.pageInsert pgdir page la perm).map Prod.snd
  | pageRemove pgdir la, m => m.pageRemove pgdir la
  | pgdirAllocPage pgdir la perm, m => (m.pgdirAllocPage pgdir la perm).map Prod.snd
  | copyRange target source start stop, m => (m.copyRange target source start stop).map Prod.snd
  | unmapRange pgdir start stop, m => m.unmapRange pgdir start stop
  | exitMmap mm, m => mm.exitMmap m

/-- A caller maps user memory at user addresses, with permissions that are flags of an entry. -/
def Allowed (roots : Finset Frame) (user : Set Frame) : PageCall → Prop
  | allocPage => True
  | pageInsert pgdir page la perm => pgdir ∈ roots ∧ page ∈ user ∧ la < userTop ∧ perm.toNat < 2 ^ 10
  | pageRemove pgdir la => pgdir ∈ roots ∧ la < userTop
  | pgdirAllocPage pgdir la perm => pgdir ∈ roots ∧ la < userTop ∧ perm.toNat < 2 ^ 10
  | copyRange target source _ _ => target ∈ roots ∧ source ∈ roots
  | unmapRange pgdir _ _ => pgdir ∈ roots
  | exitMmap mm => ∃ pgdir ∈ roots, mm.pgdir = some pgdir

/-- The page that `alloc_page` gives to its caller. -/
def given : PageCall → Mem → Option Frame
  | allocPage, m => m.allocPage.1
  | _, _ => none

/-- No `exit_mmap` gives back a directory below which a page is mapped that is in none of the areas. -/
def Tidy (call : PageCall) (m : Mem) : Prop := ∀ mm, call = exitMmap mm → ∀ pgdir ∈ mm.pgdir, m.Tidy pgdir mm.mmapList

/-- The user memory behind a call from `s` that ends in the memory `m'`. -/
def userAfter (roots : Finset Frame) (call : PageCall) (s : UserPages) (m' : Mem) : Set Frame :=
  {f | f ∈ m'.used ∧ ¬ m'.IsTable roots f ∧ (f ∈ s.user ∨ call.given s.mem = some f ∨ m'.Mapped roots f)}

/-- A call that returns. -/
structure Runs (roots : Finset Frame) (call : PageCall) (s s' : UserPages) : Prop where
  allowed : call.Allowed roots s.user
  returned : call.run s.mem = .ok s'.mem
  user : s'.user = call.userAfter roots s s'.mem

end PageCall

/-- A run of calls. -/
def PageRun (roots : Finset Frame) : UserPages → UserPages → Prop :=
  Relation.ReflTransGen fun s s' => ∃ call : PageCall, call.Runs roots s s'

/-- A run in which each `exit_mmap` is tidy. -/
def TidyRun (roots : Finset Frame) : UserPages → UserPages → Prop :=
  Relation.ReflTransGen fun s s' => ∃ call : PageCall, call.Runs roots s s' ∧ call.Tidy s.mem

/-- Page directories below which nothing is mapped, and no user memory yet. -/
structure Blank (roots : Finset Frame) (s : UserPages) : Prop where
  inUse : ∀ r ∈ roots, r ∈ s.mem.used
  managed : ∀ r ∈ roots, nbase ≤ r ∧ r < s.mem.npage
  zero : ∀ r ∈ roots, ∀ i < top, s.mem.word r i = 0
  free : ∀ f, f ∉ s.mem.used → s.mem.ref f = 0
  user : s.user = ∅

/-- The `ref` of user memory is the number of its mappings, and what is mapped is user memory. -/
structure Exact (roots : Finset Frame) (s : UserPages) : Prop where
  ref : ∀ f ∈ s.user, s.mem.ref f = s.mem.mappings roots f
  mapped : ∀ f, s.mem.Mapped roots f → f ∈ s.user ∧ f ∈ s.mem.used

/-- A frame was given back exactly if its last mapping is gone. It may have become a page table since. -/
def FreesLast (roots : Finset Frame) (s s' : UserPages) : Prop :=
  ∀ f ∈ s.user, (f ∉ s'.mem.used ∨ s'.mem.IsTable roots f) ↔ (s.mem.Mapped roots f ∧ ¬ s'.mem.Mapped roots f)

/-- The books of a run. -/
structure UserBooks (roots : Finset Frame) (other : Set Frame) (s : UserPages) : Prop where
  counted : Counted roots {f | f ∈ s.user ∧ ¬ s.mem.Mapped roots f} other s.mem
  mapped : ∀ f, s.mem.Mapped roots f → f ∈ s.user

variable {roots : Finset Frame} {held other : Set Frame} {m m' : Mem} {s s' : UserPages} {r page f : Frame} {la : Nat}
  {call : PageCall} {perm : BitVec 32}

section Bare

variable (missing : ∀ r ∈ roots, ∀ i < top, m.node (.dir r i) = none)
include missing

private theorem only_root {n : Node Frame} (inside : n.Inside top 512) (owned : n.owner ∈ roots) (found : m.node n = some f) :
    n = .root f := by
  cases n with
  | root r =>
    obtain rfl : r = f := Option.some.inj found
    rfl
  | dir r i =>
    rw [missing r owned i inside] at found
    cases found
  | table r i =>
    have above : m.node (.dir r (i / 512)) = none := missing r owned _ (Radix.parent_inside inside)
    rw [table_missing above] at found
    cases found

private theorem isTable_root : m.IsTable roots f ↔ f ∈ roots := by
  constructor
  · intro table
    obtain ⟨n, inside, owned, found⟩ := table
    rw [only_root missing inside owned found] at owned
    exact owned
  · exact fun root => ⟨.root f, trivial, root, rfl⟩

private theorem nothing_mapped : ¬ m.Mapped roots f := by
  intro mapped
  obtain ⟨r, root, v, inside, here⟩ := mapped
  have absent : m.node (.table r (v / 512)) = none := by
    by_contra present
    obtain ⟨t, found⟩ := Option.ne_none_iff_exists'.mp present
    cases only_root missing (Radix.slot_inside inside) root found
  rw [target_missing absent] at here
  cases here

end Bare

theorem Blank.books (blank : Blank roots s) : UserBooks roots {f | f ∈ s.mem.used ∧ f ∉ roots} s := by
  have missing : ∀ r ∈ roots, ∀ i < top, s.mem.node (.dir r i) = none := by
    intro r root i low
    rw [Mem.node, Radix.nodeAt, blank.zero r root i low]
    exact entry_zero
  have tables : ∀ f, s.mem.IsTable roots f ↔ f ∈ roots := fun _ => isTable_root missing
  have unmapped : ∀ f, ¬ s.mem.Mapped roots f := fun _ => nothing_mapped missing
  have nobody : {f | f ∈ s.user ∧ ¬ s.mem.Mapped roots f} = (∅ : Set Frame) := by
    rw [blank.user]
    exact Set.eq_empty_of_forall_notMem fun f inside => inside.1
  refine ⟨?_, fun f mapped => absurd mapped (unmapped f)⟩
  rw [nobody]
  constructor
  · constructor
    · intro n n' inside inside' owned owned' f found found'
      rw [only_root missing inside owned found, only_root missing inside' owned' found']
    · intro f table
      have root := (tables f).mp table
      exact ⟨blank.inUse f root, blank.managed f root⟩
  · intro f inUse
    rw [tables]
    by_cases root : f ∈ roots
    · exact .inl root
    · exact .inr (.inr (.inr ⟨inUse, root⟩))
  · exact fun f mapped => absurd mapped (unmapped f)
  · exact fun f mapped => absurd mapped (unmapped f)
  · exact fun f impossible => absurd impossible (Set.notMem_empty f)
  · intro f inOther
    rw [tables]
    exact inOther
  · exact blank.free

private theorem map_snd {α : Type} {answer : Kern (α × Mem)} (returned : answer.map Prod.snd = .ok m') :
    ∃ value, answer = .ok (value, m') := by
  cases answer with
  | error halt => cases returned
  | ok result =>
    obtain rfl : result.2 = m' := Except.ok.inj returned
    exact ⟨result.1, rfl⟩

/-- What one call does to the books. -/
theorem Counted.runs (counted : Counted roots held other m) {user : Set Frame}
    (mine : ∀ f ∈ user, f ∈ held ∨ m.Mapped roots f) (allowed : call.Allowed roots user) (returned : call.run m = .ok m') (tidy : call.Tidy m) :
    ∃ held' other', Counted roots held' other' m' ∧ (∀ f ∈ held', f ∈ held ∨ call.given m = some f) ∧
      (∀ f ∈ held, f ∈ held' ∨ m'.Mapped roots f) ∧ ∀ f ∈ other', f ∈ other ∨ m.IsTable roots f := by
  have keep {m' : Mem} (counted' : Counted roots held other m') : ∃ held' other', Counted roots held' other' m' ∧
      (∀ f ∈ held', f ∈ held ∨ call.given m = some f) ∧ (∀ f ∈ held, f ∈ held' ∨ m'.Mapped roots f) ∧
      ∀ f ∈ other', f ∈ other ∨ m.IsTable roots f :=
    ⟨held, other, counted', fun _ => .inl, fun _ => .inl, fun _ => .inl⟩
  cases call with
  | allocPage =>
    cases asked : m.allocPage with
    | mk answer m₁ =>
      obtain rfl : m₁ = m' := by
        rw [PageCall.run, asked] at returned
        exact Except.ok.inj returned
      cases answer with
      | none => exact keep (counted.asked asked)
      | some page =>
        refine ⟨_, other, counted.alloc asked, ?_, fun f inHeld => .inl (Set.mem_insert_of_mem page inHeld), fun _ => .inl⟩
        intro f inHeld
        rcases Set.mem_insert_iff.mp inHeld with rfl | inHeld
        · refine .inr ?_
          rw [PageCall.given, asked]
        · exact .inl inHeld
  | pageInsert pgdir page la perm =>
    obtain ⟨root, isUser, low, flags⟩ := allowed
    obtain ⟨code, inserted⟩ := map_snd returned
    obtain ⟨m₁, grown, ⟨_, _, counted', _⟩ | ⟨_, counted', _, t, wrote⟩⟩ := counted.pageInsert root low flags (mine page isUser) inserted
    · exact keep counted'
    · refine ⟨_, other, counted', fun f inHeld => .inl inHeld.1, ?_, fun _ => .inl⟩
      intro f inHeld
      by_cases same : f = page
      · have inside := page_of_user low
        have small : page < 2 ^ 52 := lt_of_lt_of_le (counted.managed (mine page isUser)).2.2 m.npage_le
        refine .inr ⟨pgdir, root, la / pgSize, inside, ?_⟩
        rw [Mem.target, wrote.leaf grown.paged.unique root inside inside root, if_pos ⟨rfl, rfl⟩, same]
        exact entry_pteCreate small (or_flags flags)
      · exact .inl ⟨inHeld, same⟩
  | pageRemove pgdir la => exact keep (counted.pageRemove allowed.1 allowed.2 returned)
  | pgdirAllocPage pgdir la perm =>
    obtain ⟨root, low, flags⟩ := allowed
    obtain ⟨found, m₁, allocated, counted', _⟩ := counted.pgdirAllocPage root low flags
    rw [PageCall.run, allocated] at returned
    obtain rfl : m₁ = m' := Except.ok.inj returned
    exact keep counted'
  | copyRange target source start stop =>
    obtain ⟨code, copied⟩ := map_snd returned
    exact keep (counted.copyRange allowed.1 allowed.2 copied).1
  | unmapRange pgdir start stop =>
    obtain ⟨⟨⟩, passed, _⟩ := bind_ok returned
    obtain ⟨m₁, unmapped, counted', _⟩ := counted.unmapRange allowed passed
    obtain rfl : m₁ = m' := Except.ok.inj (unmapped.symm.trans returned)
    exact keep counted'
  | exitMmap mm =>
    obtain ⟨pgdir, root, place⟩ := allowed
    obtain ⟨counted', _⟩ := counted.exitMmap root place (tidy mm rfl pgdir place) returned
    refine ⟨held, _, counted', fun _ => .inl, fun _ => .inl, ?_⟩
    intro f inOther
    rcases inOther with old | lost
    · exact .inl old
    · exact .inr lost.1

private theorem given_unused (given : call.given m = some f) : f ∉ m.used := by
  cases call with
  | allocPage =>
    cases asked : m.allocPage with
    | mk answer m₁ =>
      rw [PageCall.given, asked] at given
      obtain rfl : answer = some f := given
      exact (allocPage_some asked).1
  | _ => cases given

theorem UserBooks.step (books : UserBooks roots other s) (step : call.Runs roots s s') (tidy : call.Tidy s.mem) :
    (∃ other', UserBooks roots other' s') ∧ FreesLast roots s s' := by
  have mine : ∀ f ∈ s.user, f ∈ {f | f ∈ s.user ∧ ¬ s.mem.Mapped roots f} ∨ s.mem.Mapped roots f := by
    intro f isUser
    by_cases mapped : s.mem.Mapped roots f
    · exact .inr mapped
    · exact .inl ⟨isUser, mapped⟩
  -- User memory is no table and nothing else either.
  have apart : ∀ f ∈ s.user, f ∈ s.mem.used ∧ ¬ s.mem.IsTable roots f ∧ f ∉ other := by
    intro f isUser
    rcases mine f isUser with inHeld | mapped
    · obtain ⟨inUse, _, notTable, notOther, _⟩ := books.counted.held f inHeld
      exact ⟨inUse, notTable, notOther⟩
    · obtain ⟨inUse, _, notTable, _, notOther⟩ := books.counted.mapped f mapped
      exact ⟨inUse, notTable, notOther⟩
  obtain ⟨held', other', counted', fewer, kept, lost⟩ := books.counted.runs mine step.allowed step.returned tidy
  have member : ∀ f, f ∈ s'.user ↔ f ∈ s'.mem.used ∧ ¬ s'.mem.IsTable roots f ∧
      (f ∈ s.user ∨ call.given s.mem = some f ∨ s'.mem.Mapped roots f) := by
    intro f
    rw [step.user]
    exact Iff.rfl
  have strange : ∀ f ∈ other', f ∉ s.user ∧ call.given s.mem ≠ some f := by
    intro f inOther
    rcases lost f inOther with old | table
    · exact ⟨fun isUser => (apart f isUser).2.2 old, fun given => given_unused given (books.counted.other f old).1⟩
    · exact ⟨fun isUser => (apart f isUser).2.1 table, fun given => given_unused given (books.counted.paged.sound f table).1⟩
  have same : held' = {f | f ∈ s'.user ∧ ¬ s'.mem.Mapped roots f} := by
    ext f
    constructor
    · intro inHeld
      obtain ⟨inUse, _, notTable, _, _⟩ := counted'.held f inHeld
      refine ⟨(member f).mpr ⟨inUse, notTable, ?_⟩, fun mapped => (counted'.mapped f mapped).2.2.2.1 inHeld⟩
      rcases fewer f inHeld with before | given
      · exact .inl before.1
      · exact .inr (.inl given)
    · rintro ⟨isUser, unmapped⟩
      obtain ⟨inUse, notTable, origin⟩ := (member f).mp isUser
      rcases counted'.classes f inUse with table | mapped | inHeld | inOther
      · exact absurd table notTable
      · exact absurd mapped unmapped
      · exact inHeld
      · rcases origin with before | given | mapped
        · exact absurd before (strange f inOther).1
        · exact absurd given (strange f inOther).2
        · exact absurd mapped unmapped
  refine ⟨⟨other', ?_, ?_⟩, ?_⟩
  · rw [← same]
    exact counted'
  · intro f mapped
    obtain ⟨inUse, _, notTable, _⟩ := counted'.mapped f mapped
    exact (member f).mpr ⟨inUse, notTable, .inr (.inr mapped)⟩
  · intro f isUser
    constructor
    · intro gone
      have away : ∀ {P : Prop}, f ∈ s'.mem.used → ¬ s'.mem.IsTable roots f → P := by
        intro P inUse notTable
        rcases gone with unused | table
        · exact absurd inUse unused
        · exact absurd table notTable
      refine ⟨?_, fun mapped => away (counted'.mapped f mapped).1 (counted'.mapped f mapped).2.2.1⟩
      rcases mine f isUser with inHeld | mapped
      · rcases kept f inHeld with still | mapped
        · exact away (counted'.held f still).1 (counted'.held f still).2.2.1
        · exact away (counted'.mapped f mapped).1 (counted'.mapped f mapped).2.2.1
      · exact mapped
    · rintro ⟨mapped, unmapped⟩
      by_contra still
      rw [not_or, not_not] at still
      rcases counted'.classes f still.1 with table | mapped' | inHeld | inOther
      · exact still.2 table
      · exact unmapped mapped'
      · rcases fewer f inHeld with before | given
        · exact before.2 mapped
        · exact given_unused given (apart f isUser).1
      · exact (strange f inOther).1 isUser

theorem TidyRun.pageRun (run : TidyRun roots s s') : PageRun roots s s' := by
  induction run with
  | refl => exact .refl
  | tail _ last ih =>
    obtain ⟨call, step, _⟩ := last
    exact ih.tail ⟨call, step⟩

theorem UserBooks.run (books : UserBooks roots other s) (run : TidyRun roots s s') : ∃ other', UserBooks roots other' s' := by
  induction run with
  | refl => exact ⟨other, books⟩
  | tail _ last ih =>
    obtain ⟨_, books⟩ := ih
    obtain ⟨call, step, tidy⟩ := last
    exact (books.step step tidy).1

theorem UserBooks.exact (books : UserBooks roots other s) : Exact roots s := by
  refine ⟨?_, fun f mapped => ⟨books.mapped f mapped, (books.counted.mapped f mapped).1⟩⟩
  intro f isUser
  by_cases mapped : s.mem.Mapped roots f
  · exact books.counted.count f mapped
  · rw [(books.counted.held f ⟨isUser, mapped⟩).2.2.2.2]
    exact (not_not.mp fun counts => mapped (mapped_iff.mpr counts)).symm

/-- A page that is mapped again where it is mapped keeps its count. -/
theorem Counted.again {code : Int} (counted : Counted roots held other m) (root : r ∈ roots) (low : la < userTop)
    (flags : perm.toNat < 2 ^ 10) (here : m.target (r, la / pgSize) = some page)
    (inserted : m.pageInsert r page la perm = .ok (code, m')) : m'.ref page = m.ref page := by
  have inside := page_of_user low
  have mapped : m.Mapped roots page := ⟨r, root, la / pgSize, inside, here⟩
  have small : page < 2 ^ 52 := lt_of_lt_of_le (counted.mapped page mapped).2.1.2 m.npage_le
  obtain ⟨m₁, grown, ⟨_, rfl, _⟩ | ⟨_, counted', _, t, wrote⟩⟩ := counted.pageInsert root low flags (.inr mapped) inserted
  · exact grown.ref page fun fresh => fresh.2 (counted.mapped page mapped).1
  · have targets : ∀ r ∈ roots, ∀ v < userPages, m₁.target (r, v) = m.target (r, v) :=
      fun r root v inside => congrArg entry (grown.leaf r root v inside)
    have number : m'.mappings roots page = m.mappings roots page := by
      rw [mappings_wrote grown.paged.unique root inside wrote, targets r root _ inside, here, entry_pteCreate small (or_flags flags),
        if_pos rfl, sub_add_cancel, mappings_congr targets]
    have still : m'.Mapped roots page := by
      rw [mapped_iff, number]
      exact mapped_iff.mp mapped
    rw [counted'.count page still, number, counted.count page mapped]

/-- In a run whose `exit_mmap` calls are tidy the reference counts are exact, and each call frees the pages that it unmaps last.
A page that is mapped again keeps its count, and `pgdir_alloc_page` returns. -/
theorem ref_exact (blank : Blank roots s) (run : TidyRun roots s s') :
    Exact roots s' ∧ (∀ (call : PageCall) s'', call.Runs roots s' s'' → call.Tidy s'.mem → FreesLast roots s' s'') ∧
      (∀ pgdir ∈ roots, ∀ la < userTop, ∀ perm : BitVec 32, perm.toNat < 2 ^ 10 →
        (∀ page code m', s'.mem.target (pgdir, la / pgSize) = some page → s'.mem.pageInsert pgdir page la perm = .ok (code, m') →
          m'.ref page = s'.mem.ref page) ∧
        ∃ page m', s'.mem.pgdirAllocPage pgdir la perm = .ok (page, m')) := by
  obtain ⟨other', books⟩ := blank.books.run run
  refine ⟨books.exact, fun call s'' step tidy => (books.step step tidy).2, ?_⟩
  intro pgdir root la low perm flags
  constructor
  · intro page code m' here inserted
    exact books.counted.again root low flags here inserted
  · obtain ⟨page, m', allocated, _⟩ := books.counted.pgdirAllocPage root low flags
    exact ⟨page, m', allocated⟩

/-- An address space with one area, whose page directory is the first page. -/
def oneArea (vmStart vmEnd : Nat) : MmStruct := ⟨[⟨0, vmStart, vmEnd, vmRead⟩], none, some nbase, 1, 0, false⟩

private theorem blank_eightPages : Blank {nbase} ⟨Mem.eightPages, ∅⟩ := by
  constructor
  · decide
  · decide
  · exact fun _ _ _ _ => rfl
  · exact fun _ _ => rfl
  · rfl

private def insertSecond (la : Nat) : Kern Mem := (PageCall.pageInsert nbase (nbase + 1) la 0x1E).run Mem.eightPages.allocPage.2

private theorem runs_to (allowed : call.Allowed roots s.user) (returned : call.run s.mem = .ok m) :
    call.Runs roots s ⟨m, call.userAfter roots s m⟩ := ⟨allowed, returned, rfl⟩

private theorem insertSecond_run {la : Nat} (low : la < userTop) (inserted : insertSecond la = .ok m) :
    ∃ s, s.mem = m ∧ TidyRun {nbase} ⟨Mem.eightPages, ∅⟩ s := by
  have bare : ∀ r ∈ ({nbase} : Finset Frame), ∀ i < top, Mem.eightPages.allocPage.2.node (.dir r i) = none := fun _ _ _ _ => entry_zero
  have first : PageCall.allocPage.Runs {nbase} ⟨Mem.eightPages, ∅⟩ ⟨_, _⟩ := runs_to trivial rfl
  have mine : nbase + 1 ∈ PageCall.allocPage.userAfter {nbase} ⟨Mem.eightPages, ∅⟩ Mem.eightPages.allocPage.2 := by
    refine ⟨by decide, ?_, .inr (.inl rfl)⟩
    rw [isTable_root bare]
    decide
  have second : (PageCall.pageInsert nbase (nbase + 1) la 0x1E).Runs {nbase} ⟨_, _⟩ ⟨_, _⟩ :=
    runs_to ⟨Finset.mem_singleton_self nbase, mine, low, by decide⟩ inserted
  exact ⟨_, rfl, (Relation.ReflTransGen.single ⟨_, first, fun mm impossible => by cases impossible⟩).tail
    ⟨_, second, fun mm impossible => by cases impossible⟩⟩

private theorem gap_tidy (missing : m.node (.table nbase 1) = none) : m.Tidy nbase (oneArea 0x200000 0x401000).mmapList := by
  rintro i low ⟨before, vma, after, areas, ⟨x, some⟩, all⟩
  obtain ⟨rfl, rfl⟩ : before = [] ∧ vma = ⟨0, 0x200000, 0x401000, vmRead⟩ := by
    cases before with
    | nil => exact ⟨rfl, (List.cons.inj areas).1.symm⟩
    | cons first before => exact absurd (congrArg List.length areas) (by simp [oneArea])
  have first : 0x200000 / ptSize = 1 := by decide
  have last : lastSlot 0x401000 = 3 := by decide
  rw [Vma.slots] at some all
  rw [first, last] at some all
  have here := mem_slotsOf.mp some
  obtain rfl : i = 0 := by omega
  exact absurd missing (all 1 (mem_slotsOf.mpr (by decide))).1

/-- The page at `0x400000` is given back with the area that it is in. -/
theorem ref_exact_released : ∃ s, TidyRun {nbase} ⟨Mem.eightPages, ∅⟩ s ∧ nbase + 1 ∉ s.mem.used ∧ Exact {nbase} s := by
  have facts : (insertSecond 0x400000).map (fun m => m.node (.table nbase 1)) = .ok none := by decide +kernel
  have freed : (insertSecond 0x400000 >>= (oneArea 0x200000 0x401000).exitMmap).map (fun m => decide (nbase + 1 ∈ m.used)) = .ok false := by
    decide +kernel
  cases inserted : insertSecond 0x400000 with
  | error halt =>
    rw [inserted] at facts
    cases facts
  | ok m =>
    rw [inserted] at facts freed
    rw [ok_bind] at freed
    cases exits : (oneArea 0x200000 0x401000).exitMmap m with
    | error halt =>
      rw [exits] at freed
      cases freed
    | ok m' =>
      rw [exits] at freed
      obtain ⟨s, rfl, run⟩ := insertSecond_run (by decide) inserted
      have last : (PageCall.exitMmap (oneArea 0x200000 0x401000)).Runs {nbase} s ⟨m', _⟩ :=
        runs_to ⟨nbase, Finset.mem_singleton_self nbase, rfl⟩ exits
      have tidy : (PageCall.exitMmap (oneArea 0x200000 0x401000)).Tidy s.mem := by
        intro mm same pgdir place
        obtain rfl : oneArea 0x200000 0x401000 = mm := PageCall.exitMmap.inj same
        obtain rfl : nbase = pgdir := Option.some.inj place
        exact gap_tidy (Except.ok.inj facts)
      refine ⟨_, run.tail ⟨_, last, tidy⟩, ?_, (ref_exact blank_eightPages (run.tail ⟨_, last, tidy⟩)).1⟩
      exact of_decide_eq_false (Except.ok.inj freed)

/-- A page that is mapped where no area is stays in use when `exit_mmap` gives back the directory above it. -/
theorem ref_exact_stranded : ¬ ∀ (roots : Finset Frame) (s s' : UserPages), Blank roots s → PageRun roots s s' → Exact roots s' := by
  intro exact
  have facts : (insertSecond 0x201000).map (fun m => m.leaf nbase 513) = .ok (pteCreate (nbase + 1) 0x1F) := by decide +kernel
  have stays : (insertSecond 0x201000 >>= (oneArea 0x200000 0x201000).exitMmap).map (fun m =>
      (m.node (.dir nbase 0), m.node (.dir nbase 1), m.ref (nbase + 1), decide (nbase + 1 ∈ m.used))) = .ok (none, none, 1, true) := by
    decide +kernel
  cases inserted : insertSecond 0x201000 with
  | error halt =>
    rw [inserted] at facts
    cases facts
  | ok m =>
    rw [inserted] at facts stays
    rw [ok_bind] at stays
    cases exits : (oneArea 0x200000 0x201000).exitMmap m with
    | error halt =>
      rw [exits] at stays
      cases stays
    | ok m' =>
      rw [exits] at stays
      obtain ⟨s, rfl, run⟩ := insertSecond_run (by decide) inserted
      simp only [Except.map, Except.ok.injEq, Prod.mk.injEq] at stays
      obtain ⟨dir0, dir1, one, inUse⟩ := stays
      have leaf : s.mem.leaf nbase 513 = pteCreate (nbase + 1) 0x1F := Except.ok.inj facts
      have last : (PageCall.exitMmap (oneArea 0x200000 0x201000)).Runs {nbase} s ⟨m', _⟩ :=
        runs_to ⟨nbase, Finset.mem_singleton_self nbase, rfl⟩ exits
      obtain ⟨_, books⟩ := blank_eightPages.books.run run
      have mapped : s.mem.Mapped {nbase} (nbase + 1) := by
        refine ⟨nbase, Finset.mem_singleton_self nbase, 513, by decide, ?_⟩
        rw [Mem.target, leaf]
        decide
      have missing : ∀ r ∈ ({nbase} : Finset Frame), ∀ i < top, m'.node (.dir r i) = none := by
        intro r root i low
        obtain rfl : r = nbase := Finset.mem_singleton.mp root
        obtain rfl | rfl : i = 0 ∨ i = 1 := by
          unfold top at low
          omega
        · exact dir0
        · exact dir1
      have mine : nbase + 1 ∈ PageCall.userAfter {nbase} (.exitMmap (oneArea 0x200000 0x201000)) s m' := by
        refine ⟨of_decide_eq_true inUse, ?_, .inl (books.mapped _ mapped)⟩
        rw [isTable_root missing]
        decide
      have counts := (exact {nbase} _ _ blank_eightPages (run.pageRun.tail ⟨_, last⟩)).ref (nbase + 1) mine
      exact nothing_mapped missing (mapped_iff.mpr (by rw [← counts, one]; decide))

end Ucore
