import Ucore.Proofs.PageAllocator

/-! Runs of the page allocator with the pages that are live: handed out by an
allocation and not yet given back. -/

namespace Ucore.PageAllocator
open Lib

def pages (base k : Nat) : List Nat := (List.range k).map (base + ·)

theorem mem_pages {base k p : Nat} : p ∈ pages base k ↔ base ≤ p ∧ p < base + k := by
  simp only [pages, List.mem_map, List.mem_range]
  constructor
  · rintro ⟨offset, bound, rfl⟩
    omega
  · rintro ⟨low, high⟩
    exact ⟨p - base, by omega, by omega⟩

theorem pages_nodup (base k : Nat) : (pages base k).Nodup :=
  List.Nodup.map (fun _ _ same => Nat.add_left_cancel same) List.nodup_range

theorem pages_length (base k : Nat) : (pages base k).length = k := by simp [pages]

inductive Call where
  | allocPages (n : Nat)
  | freePages (base n : Nat)

/-- What a caller may ask for: at least one page, and only live pages back. -/
def Call.Legal (live : List Nat) : Call → Prop
  | .allocPages n => 0 < n
  | .freePages base n => 0 < n ∧ ∀ p ∈ pages base n, p ∈ live

/-- One call, and the live pages after it. -/
def Call.run : Call → FreeArea × List Nat → Kern (FreeArea × List Nat)
  | .allocPages n, (area, live) => do
    match ← defaultAllocPages n area with
    | (none, area) => return (area, live)
    | (some base, area) => return (area, live ++ pages base n)
  | .freePages base n, (area, live) => do
    return (← defaultFreePages base n area, live.diff (pages base n))

/-- The states that legal calls reach from `start` when every call meets `guard`. -/
inductive Run (guard : FreeArea → Call → Prop) (start : FreeArea) : FreeArea → List Nat → Prop where
  | start : Run guard start start []
  | call {area area' : FreeArea} {live live' : List Nat} (call : Call) :
      Run guard start area live → call.Legal live → guard area call →
      call.run (area, live) = .ok (area', live') → Run guard start area' live'

/-- `page` is a block on the list: its `page_link` is reached from `free_list` by `next`. -/
def OnList (area : FreeArea) (page : Nat) : Prop :=
  ∃ steps, area.link.next^[steps] .freeList = .pageLink page

/-- The pages handed out are distinct and managed, none of them is in a block on
the list, and `nr_free` counts the others and is the sum of the blocks. -/
structure Sound (lo n : Nat) (area : FreeArea) (live : List Nat) : Prop where
  distinct : live.Nodup
  inside : ∀ p ∈ live, lo ≤ p ∧ p < lo + n
  unlisted : ∀ page, OnList area page →
    ∀ p ∈ live, ¬ (page ≤ p ∧ p < page + (area.page page).property)
  count : area.nrFree + live.length = n
  total : ∃ heads : List Nat, heads.Nodup ∧ (∀ page, page ∈ heads ↔ OnList area page) ∧
    area.nrFree = (heads.map fun page => (area.page page).property).sum

/-- A free is below the last block of the list, or the list is empty. -/
def Call.BelowTail (area : FreeArea) : Call → Prop
  | .allocPages _ => True
  | .freePages base _ => PageAllocator.BelowTail area base

structure Invariant (lo n : Nat) (area : FreeArea) (live : List Nat) (blocks : List Block) : Prop where
  formed : WellFormed lo n area blocks
  unreserved : ∀ p, lo ≤ p → p < lo + n → (area.page p).flags.reserved = false
  distinct : live.Nodup
  handed : ∀ p, p ∈ live ↔ (lo ≤ p ∧ p < lo + n) ∧ ¬ Covered blocks p
  count : area.nrFree + live.length = n

section Runs

variable {lo n : Nat} {area : FreeArea} {live : List Nat} {blocks : List Block}

theorem WellFormed.onList (formed : WellFormed lo n area blocks) (page : Nat) :
    OnList area page ↔ page ∈ blocks.map Block.start := by
  rw [OnList, formed.ring.reach]
  simp only [List.mem_cons, reduceCtorEq, false_or, List.mem_map, Block.link, Link.pageLink.injEq]

theorem Invariant.sound (valid : Invariant lo n area live blocks) : Sound lo n area live := by
  refine ⟨valid.distinct, fun p member => ((valid.handed p).mp member).1, ?_, valid.count,
    blocks.map Block.start, ?_, fun page => (valid.formed.onList page).symm, ?_⟩
  · intro page listed p member covers
    obtain ⟨block, inside, rfl⟩ := List.mem_map.mp ((valid.formed.onList page).mp listed)
    rw [(valid.formed.sized block inside).1] at covers
    exact ((valid.handed p).mp member).2 ⟨block, inside, covers⟩
  · have ring := valid.formed.ring.distinct
    simp only [List.nodup_cons] at ring
    have links : (blocks.map Block.start).map Link.pageLink = blocks.map Block.link := by
      simp [Block.link, Function.comp_def]
    rw [← links] at ring
    exact List.Nodup.of_map _ ring.2
  · rw [valid.formed.total, List.map_map]
    congr 1
    exact List.map_congr_left fun block member => (valid.formed.sized block member).1.symm

theorem Invariant.alloc {k : Nat} (valid : Invariant lo n area live blocks)
    (nonempty : 0 < k) : ∃ area' live' blocks',
      (Call.allocPages k).run (area, live) = .ok (area', live') ∧ Invariant lo n area' live' blocks' := by
  rcases defaultAllocPages_spec valid.formed nonempty with
    ⟨_, result⟩ | ⟨block, blocks', chosen, result, formed, free, covered⟩
  · exact ⟨area, live, blocks, by simp [Call.run, result]; rfl, valid⟩
  · have member := List.mem_of_find?_eq_some chosen
    have fit : k ≤ block.size := by simpa using List.find?_some chosen
    have inside := valid.formed.inside block member
    have fresh : ∀ p, block.start ≤ p → p < block.start + k → p ∉ live := by
      intro p low high isLive
      exact ((valid.handed p).mp isLive).2 ⟨block, member, low, by omega⟩
    refine ⟨_, live ++ pages block.start k, blocks', by simp [Call.run, result]; rfl, formed, ?_, ?_, ?_, ?_⟩
    · intro p first last
      rw [takePages_reserved]
      exact valid.unreserved p first last
    · refine List.nodup_append.mpr ⟨valid.distinct, pages_nodup _ _, ?_⟩
      rintro p isLive q taken rfl
      rw [mem_pages] at taken
      exact fresh p taken.1 taken.2 isLive
    · intro p
      rw [List.mem_append, valid.handed, mem_pages, covered]
      constructor
      · rintro (⟨range, free⟩ | range)
        · exact ⟨range, fun cover => free cover.1⟩
        · exact ⟨by omega, fun cover => cover.2 range⟩
      · rintro ⟨range, away⟩
        by_cases taken : block.start ≤ p ∧ p < block.start + k
        · exact .inr taken
        · exact .inl ⟨range, fun cover => away ⟨cover, taken⟩⟩
    · have count := valid.count
      rw [List.length_append, pages_length]
      omega

theorem Invariant.free {base k : Nat} (valid : Invariant lo n area live blocks) (small : n < 2 ^ 32)
    (legal : (Call.freePages base k).Legal live) (below : BelowTail area base) :
    ∃ area' live' blocks', (Call.freePages base k).run (area, live) = .ok (area', live') ∧
      Invariant lo n area' live' blocks' := by
  obtain ⟨nonempty, isLive⟩ := legal
  have range : ∀ p, base ≤ p → p < base + k → (lo ≤ p ∧ p < lo + n) ∧ ¬ Covered blocks p :=
    fun p low high => (valid.handed p).mp (isLive p (mem_pages.mpr ⟨low, high⟩))
  have first := (range base (Nat.le_refl _) (by omega)).1
  have last := (range (base + k - 1) (by omega) (by omega)).1
  have plain : ∀ p, base ≤ p → p < base + k → (area.page p).flags.reserved = false :=
    fun p low high => valid.unreserved p (range p low high).1.1 (range p low high).1.2
  have split : (pages base k ++ live.diff (pages base k)).Perm live := by
    apply List.subperm_append_diff_self_of_count_le
    intro p member
    rw [List.count_eq_one_of_mem (pages_nodup _ _) member]
    exact List.one_le_count_iff.mpr (isLive p member)
  have length := split.length_eq
  rw [List.length_append, pages_length] at length
  have count := valid.count
  obtain ⟨area', blocks', result, formed, free, covered⟩ :=
    defaultFreePages_spec valid.formed (by omega) nonempty first.1 (by omega) plain
      (fun p low high => (range p low high).2) below
  refine ⟨area', live.diff (pages base k), blocks', by simp [Call.run, result], formed, ?_,
    valid.distinct.diff, ?_, ?_⟩
  · intro p low high
    rw [defaultFreePages_reserved valid.formed.toListed nonempty first.1 (by omega) plain
      (fun p low high => (range p low high).2) result]
    exact valid.unreserved p low high
  · intro p
    rw [valid.distinct.mem_sdiff_iff, valid.handed, mem_pages, covered]
    tauto
  · omega

theorem initMemmapLoop_spec {base k : Nat}
    (reserved : ∀ p, base ≤ p → p < base + k → (area.page p).flags.reserved = true) :
    initMemmapLoop base k area = .ok { area with
      page := fun p => if base ≤ p ∧ p < base + k then ⟨0, {}, 0⟩ else area.page p } := by
  induction k generalizing base area with
  | zero =>
    have same : (fun p => if base ≤ p ∧ p < base + 0 then ⟨0, {}, 0⟩ else area.page p) = area.page := by
      funext p
      rw [if_neg (by omega)]
    rw [same]
    rfl
  | succ k ih =>
    simp only [initMemmapLoop, reserved base (Nat.le_refl _) (by omega), assert_true, ok_bind]
    rw [ih]
    · simp only [FreeArea.setPage]
      congr 2
      funext p
      by_cases first : p = base
      · simp [first]
      · simp only [Function.update_of_ne first]
        have range : (base + 1 ≤ p ∧ p < base + 1 + k) = (base ≤ p ∧ p < base + (k + 1)) :=
          propext (by omega)
        simp only [range]
    · intro p low high
      have away : p ≠ base := by omega
      simpa only [FreeArea.setPage, Function.update_of_ne away] using reserved p (by omega) (by omega)

/-- The allocator once `n` pages from `lo` have been put on the empty list. -/
def started (boot : FreeArea) (lo n : Nat) : FreeArea :=
  let area := { boot with page := fun p => if lo ≤ p ∧ p < lo + n then ⟨0, {}, 0⟩ else boot.page p }
  { (area.setProperty lo n).setPageProperty lo true with
    link := listAdd .freeList (.pageLink lo) (listInit .freeList boot.link)
    nrFree := uint n }

/-- The first region put on the empty list is one block. -/
theorem defaultInitMemmap_spec {boot : FreeArea} (nonempty : 0 < n) (small : n < 2 ^ 32)
    (fits : lo + n ≤ boot.npage)
    (reserved : ∀ p, lo ≤ p → p < lo + n → (boot.page p).flags.reserved = true) :
    defaultInitMemmap lo n (defaultInit boot) = .ok (started boot lo n) ∧
      Invariant lo n (started boot lo n) [] [⟨lo, n⟩] := by
  have empty : listEmpty .freeList (listInit .freeList boot.link) = true :=
    (listEmpty_iff (listInit_ring _ _)).mpr rfl
  refine ⟨?_, ?_⟩
  · simp only [defaultInitMemmap, nonempty, decide_true, assert_true, ok_bind]
    rw [initMemmapLoop_spec (by simpa [defaultInit, FreeArea.onLinks] using reserved), ok_bind]
    simp only [insertBlock, FreeArea.setPageProperty, FreeArea.setProperty, FreeArea.setPage, defaultInit,
      FreeArea.onLinks, empty, if_true, Nat.zero_add]
    rfl
  refine ⟨⟨⟨?_, ?_, by simp, by simp, ?_, ?_, ?_, fits⟩, by simp⟩, ?_, by simp, ?_, ?_⟩
  · exact listAdd_head (listInit_ring _ _) (by simp)
  · simp [started, FreeArea.setPageProperty, FreeArea.setProperty, FreeArea.setPage, uint, nonempty]
    omega
  · intro p first last
    simp only [started, FreeArea.setPageProperty, FreeArea.setProperty, FreeArea.setPage]
    by_cases same : p = lo
    · simp [same]
    · simp [same, first, last]
  · simp [started, uint]
    omega
  · simp only [started, uint]
    omega
  · intro p first last
    simp only [started, FreeArea.setPageProperty, FreeArea.setProperty, FreeArea.setPage]
    by_cases same : p = lo
    · simp [same, nonempty]
    · simp [Function.update_of_ne same, first, last]
  · intro p
    simp only [List.not_mem_nil, Covered, List.mem_singleton, exists_eq_left, Block.Covers, false_iff,
      not_and]
    tauto
  · simp [started, uint]
    omega

/-- Every state of a run whose frees are below the tail satisfies the invariant. -/
theorem Run.invariant {start : FreeArea} (small : n < 2 ^ 32)
    (initial : ∃ blocks, Invariant lo n start [] blocks) (run : Run Call.BelowTail start area live) :
    ∃ blocks, Invariant lo n area live blocks := by
  induction run with
  | start => exact initial
  | call call _ legal guard result ih =>
    obtain ⟨blocks, valid⟩ := ih
    cases call with
    | allocPages k =>
      obtain ⟨_, _, blocks', computed, after⟩ := valid.alloc legal
      cases computed.symm.trans result
      exact ⟨blocks', after⟩
    | freePages base k =>
      obtain ⟨_, _, blocks', computed, after⟩ := valid.free small legal guard
      cases computed.symm.trans result
      exact ⟨blocks', after⟩

/-- A managed region of fewer than `2 ^ 32` pages: as long as every range is
given back below the last free block or to an empty list, no page is handed out
twice, and no legal call fails an assertion or loops. -/
theorem runs_below_tail_sound (boot : FreeArea) (nonempty : 0 < n) (small : n < 2 ^ 32)
    (fits : lo + n ≤ boot.npage)
    (reserved : ∀ p, lo ≤ p → p < lo + n → (boot.page p).flags.reserved = true) :
    ∃ start, defaultInitMemmap lo n (defaultInit boot) = .ok start ∧
      ∀ area live, Run Call.BelowTail start area live →
        Sound lo n area live ∧
        ∀ call : Call, call.Legal live → call.BelowTail area →
          ∃ after, call.run (area, live) = .ok after := by
  obtain ⟨result, initial⟩ := defaultInitMemmap_spec nonempty small fits reserved
  refine ⟨_, result, fun area live run => ?_⟩
  obtain ⟨blocks, valid⟩ := run.invariant small ⟨_, initial⟩
  refine ⟨valid.sound, ?_⟩
  intro call legal below
  cases call with
  | allocPages k =>
    obtain ⟨area', live', _, computed, _⟩ := valid.alloc legal
    exact ⟨_, computed⟩
  | freePages base k =>
    obtain ⟨area', live', _, computed, _⟩ := valid.free small legal below
    exact ⟨_, computed⟩

end Runs

/-- A machine with `npage` pages, all reserved, as `page_init` leaves it. -/
def reservedPages (npage : Nat) : FreeArea where
  npage := npage
  page _ := ⟨0, { reserved := true }, 0⟩
  link := ⟨fun _ => .freeList, fun _ => .freeList⟩
  nrFree := 0

instance (live : List Nat) (call : Call) : Decidable (call.Legal live) :=
  match call with
  | .allocPages n => inferInstanceAs (Decidable (0 < n))
  | .freePages base n => inferInstanceAs (Decidable (0 < n ∧ ∀ p ∈ pages base n, p ∈ live))

instance (area : FreeArea) (base : Nat) : Decidable (BelowTail area base) :=
  match last : area.link.prev .freeList with
  | .freeList => isTrue (by simp [BelowTail, last])
  | .pageLink p => decidable_of_iff (base < p) (by simp [BelowTail, last])

instance (area : FreeArea) (call : Call) : Decidable (call.BelowTail area) :=
  match call with
  | .allocPages _ => isTrue trivial
  | .freePages base _ => inferInstanceAs (Decidable (PageAllocator.BelowTail area base))

section Calls

variable (guard : FreeArea → Call → Prop) [∀ area call, Decidable (guard area call)]

/-- The calls in order, as long as each is legal and meets `guard`. -/
def runAll : List Call → FreeArea × List Nat → Kern (FreeArea × List Nat)
  | [], state => .ok state
  | call :: calls, state => do
    assert (decide (call.Legal state.2 ∧ guard state.1 call)) "legal call"
    runAll calls (← call.run state)

theorem runAll_run {start area area' : FreeArea} {live live' : List Nat} (calls : List Call)
    (run : Run guard start area live) (result : runAll guard calls (area, live) = .ok (area', live')) :
    Run guard start area' live' := by
  induction calls generalizing area live with
  | nil =>
    cases result
    exact run
  | cons call calls ih =>
    obtain ⟨⟨⟩, checked, rest⟩ := bind_ok result
    obtain ⟨legal, guarded⟩ := of_decide_eq_true (assert_ok checked)
    obtain ⟨⟨area, live⟩, first, rest⟩ := bind_ok rest
    exact ih (.call call run legal guarded first) rest

end Calls

/-- Two ranges are allocated, and given back around a third one. -/
theorem runs_below_tail_sound_eight : ∃ start area, defaultInitMemmap 0 8 (defaultInit (reservedPages 8)) = .ok start ∧
    Run Call.BelowTail start area [0] ∧ Sound 0 8 area [0] ∧ ∃ after, (Call.allocPages 7).run (area, [0]) = .ok after := by
  obtain ⟨start, initial, sound⟩ :=
    @runs_below_tail_sound 0 8 (reservedPages 8) (by decide) (by decide) (by decide) (fun _ _ _ => rfl)
  have started : start = started (reservedPages 8) 0 8 := Except.ok.inj (initial.symm.trans
    (defaultInitMemmap_spec (by decide) (by decide) (by decide) (fun _ _ _ => rfl)).1)
  have outcome : (runAll Call.BelowTail [.allocPages 2, .allocPages 3, .freePages 0 2, .allocPages 1, .freePages 2 3]
      (PageAllocator.started (reservedPages 8) 0 8, [])).map Prod.snd = .ok [0] := by decide +kernel
  rw [← started] at outcome
  cases result : runAll Call.BelowTail [.allocPages 2, .allocPages 3, .freePages 0 2, .allocPages 1, .freePages 2 3] (start, []) with
  | error halt =>
    rw [result] at outcome
    cases outcome
  | ok state =>
    obtain ⟨area, live⟩ := state
    rw [result] at outcome
    obtain rfl : live = [0] := Except.ok.inj outcome
    have run := runAll_run Call.BelowTail _ .start result
    exact ⟨start, area, initial, run, (sound area _ run).1, (sound area _ run).2 _ (by decide) trivial⟩

/-- Five pages: after the range from page 2 goes back above page 0, its block has
itself as predecessor, and two allocations of two pages both return page 2. -/
theorem runs_not_sound : ¬ ∀ (boot : FreeArea) (lo n : Nat), 0 < n → lo + n ≤ boot.npage →
    (∀ p, lo ≤ p → p < lo + n → (boot.page p).flags.reserved = true) →
    ∀ start, defaultInitMemmap lo n (defaultInit boot) = .ok start →
    ∀ area live, Run (fun _ _ => True) start area live → Sound lo n area live := by
  intro claim
  let start := started (reservedPages 5) 0 5
  let calls : List Call := [.allocPages 5, .freePages 0 1, .freePages 2 3, .allocPages 2, .allocPages 2]
  have outcome : (runAll (fun _ _ => True) calls (start, [])).map Prod.snd = .ok [1, 2, 3, 2, 3] := by decide
  have initial : defaultInitMemmap 0 5 (defaultInit (reservedPages 5)) = .ok start :=
    (defaultInitMemmap_spec (by decide) (by decide) (by decide) (fun _ _ _ => rfl)).1
  cases result : runAll (fun _ _ => True) calls (start, []) with
  | error halt =>
    rw [result] at outcome
    cases outcome
  | ok state =>
    obtain ⟨area, live⟩ := state
    rw [result] at outcome
    cases outcome
    have sound := claim (reservedPages 5) 0 5 (by decide) (by decide) (fun _ _ _ => rfl) start initial
      area _ (runAll_run _ calls .start result)
    exact absurd sound.distinct (by decide)

end Ucore.PageAllocator
