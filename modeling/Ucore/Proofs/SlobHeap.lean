import Ucore.Proofs.SlobAlloc

/-! Runs of `slob_alloc` and `slob_free`. In every state the free list is circular and in
address order, no chunk overlaps another one, and no unit is lost. -/

namespace Ucore
open Lib

/-- A block that `slob_alloc` has given out for `size` bytes. -/
structure Granted where
  start : Nat
  size : Nat
  deriving DecidableEq

def Granted.chunk (g : Granted) : Chunk := ⟨g.start, slobUnits g.size⟩

/-- `size` bytes are at most what `slob_alloc` takes, and at least two units. -/
def Fits (size : Nat) : Prop := size + slobUnit < pgSize ∧ 2 ≤ slobUnits size

/-- The argument of `slob_free` or the field of the block says how many units it has. -/
def OwnUnits (h : Heap) (g : Granted) (size : Nat) : Prop :=
  size ≠ 0 ∧ slobUnits size = slobUnits g.size ∨ size = 0 ∧ h.units g.start = slobUnits g.size

/-- The states that SLOB comes to from the initial `arena`, with the blocks that are live in
them. Between the calls the owners write to their blocks, and pages come and go. -/
inductive SlobRun : Heap → List Granted → Prop where
  | initial {h : Heap} (own : h.units h.arena = 1) (self : h.next h.arena = h.arena) (start : h.slobfree = h.arena)
      (noPages : h.grown = []) : SlobRun h []
  | allocated {h h' : Heap} {live : List Granted} {size p : Nat} (run : SlobRun h live) (answers : h.Answers) (fits : Fits size)
      (done : h.slobAlloc size = .ok (some p, h')) : SlobRun h' (⟨p, size⟩ :: live)
  | refused {h h' : Heap} {live : List Granted} {size : Nat} (run : SlobRun h live) (answers : h.Answers) (fits : Fits size)
      (done : h.slobAlloc size = .ok (none, h')) : SlobRun h' live
  | freed {h h' : Heap} {live : List Granted} {g : Granted} {size : Nat} (run : SlobRun h live) (member : g ∈ live)
      (own : OwnUnits h g size) (done : h.slobFree g.start size = .ok h') : SlobRun h' (live.erase g)
  | written {h : Heap} {live : List Granted} {units next : Nat → Nat} (run : SlobRun h live)
      (inside : ∀ a, (∀ g ∈ live, a < g.start ∨ g.chunk.stop ≤ a) → units a = h.units a ∧ next a = h.next a) :
      SlobRun { h with units := units, next := next } live
  | elsewhere {h : Heap} {live : List Granted} {mem : Mem} (run : SlobRun h live) : SlobRun { h with mem := mem } live

variable {h : Heap} {live : List Granted} {g : Granted} {size : Nat}

private theorem initial_whole (own : h.units h.arena = 1) (self : h.next h.arena = h.arena) (start : h.slobfree = h.arena)
    (noPages : h.grown = []) : Integrity h [⟨h.arena, 1⟩] [] := by
  refine ⟨⟨Cyclic.single self, by rw [start]; exact List.mem_cons_self, ?_, ?_⟩, List.pairwise_singleton _ _, ?_⟩
  · intro c inside
    obtain rfl := List.mem_singleton.mp inside
    exact own
  · rw [noPages]
    constructor
    · exact List.pairwise_singleton _ _
    · intro c inside
      obtain rfl := List.mem_singleton.mp inside
      exact Nat.one_pos
    · intro c inside
      cases inside
    · intro a _ b inside
      cases inside
    · exact List.Pairwise.nil
    · exact List.mem_cons_self
    · intro c inside other
      exact absurd (List.mem_singleton.mp inside) other
    · intro c inside
      cases inside
    · rfl
    · intro kva inside
      cases inside
  · rw [noPages]
    intro kva inside
    cases inside

private theorem live_split (member : g ∈ live) : (live.map Granted.chunk).Perm (g.chunk :: (live.erase g).map Granted.chunk) :=
  (List.perm_cons_erase member).map Granted.chunk

theorem Integrity.perm {free taken taken' : List Chunk} (whole : Integrity h free taken) (same : taken.Perm taken') :
    Integrity h free taken' :=
  ⟨⟨whole.cyclic, whole.start, whole.units, whole.layout.perm same⟩, whole.strict, whole.paged⟩

theorem SlobRun.whole (run : SlobRun h live) : ∃ free, Integrity h free (live.map Granted.chunk) := by
  induction run with
  | initial own self start noPages => exact ⟨_, initial_whole own self start noPages⟩
  | allocated _ answers fits done ih =>
    obtain ⟨free, whole⟩ := ih
    rcases whole.slobAlloc (fun _ => answers) fits.1 fits.2 with ⟨p, h', free', result, whole', _⟩ | ⟨_, _, result⟩
    · cases result.symm.trans done
      exact ⟨free', whole'⟩
    · cases result.symm.trans done
  | refused _ answers fits done ih =>
    obtain ⟨free, whole⟩ := ih
    rcases whole.slobAlloc (fun _ => answers) fits.1 fits.2 with ⟨p, h', free', result, _⟩ | ⟨_, _, result⟩
    · cases result.symm.trans done
    · cases result.symm.trans done
      exact ⟨free, ⟨whole.cyclic, whole.start, whole.units, whole.layout⟩, whole.strict, whole.paged⟩
  | freed _ member own done ih =>
    obtain ⟨free, whole⟩ := ih
    obtain ⟨h', free', result, whole', _⟩ := (whole.perm (live_split member)).slobFree own
    cases result.symm.trans done
    exact ⟨free', whole'⟩
  | @written h live units next _ inside ih =>
    obtain ⟨free, whole⟩ := ih
    have kept : ∀ c ∈ free, units c.start = h.units c.start ∧ next c.start = h.next c.start := by
      intro c inFree
      apply inside
      intro g inLive
      have apart := whole.layout.apart c inFree g.chunk (List.mem_map_of_mem inLive)
      have size := whole.layout.freeSized c inFree
      rw [Chunk.Apart, Chunk.stop_eq c] at apart
      rcases apart with before | behind
      · exact .inl (by have : g.chunk.start = g.start := rfl; omega)
      · exact .inr behind
    refine ⟨free, ⟨whole.cyclic.frame ?_, whole.start, ?_, whole.layout⟩, whole.strict, whole.paged⟩
    · intro node inList
      obtain ⟨c, inFree, rfl⟩ := List.mem_map.mp inList
      exact (kept c inFree).2
    · intro c inFree
      exact (kept c inFree).1.trans (whole.units c inFree)
  | elsewhere _ ih =>
    obtain ⟨free, whole⟩ := ih
    exact ⟨free, ⟨whole.cyclic, whole.start, whole.units, whole.layout⟩, whole.strict, whole.paged⟩

private theorem slobUnits_enough (fits : Fits size) : size ≤ 16 * slobUnits size := by
  have small := fits.1
  simp only [slobUnit, pgSize] at small
  simp only [slobUnits, slobUnit, wrap]
  omega

/-- In every state of a run the list leads once around through all free chunks, in address
order and with gaps between them, what is live is disjoint and large enough, and the
units add up. Both loops end, and `slob_alloc` fails for want of a page only. -/
theorem slob_heap_integrity (run : SlobRun h live) :
    (∃ free : List Chunk,
      Cyclic h.next (free.map Chunk.start) ∧ h.slobfree ∈ free.map Chunk.start ∧
      (∀ c ∈ free, 0 < c.units ∧ h.units c.start = c.units) ∧
      free.Pairwise (fun a b => a.stop < b.start) ∧
      (∀ c ∈ free, ∀ g ∈ live, c.Apart g.chunk) ∧
      live.Pairwise (fun g g' => g.chunk.Apart g'.chunk) ∧
      (free.map Chunk.units).sum + (live.map fun g => g.chunk.units).sum = 1 + 256 * h.grown.length) ∧
    (∀ g ∈ live, g.size ≤ 16 * g.chunk.units) ∧
    (∀ size, Fits size → h.Answers →
      ∃ answer h', h.slobAlloc size = .ok (answer, h') ∧ (answer = none → h.mem.pages 0 = none)) ∧
    ∀ g ∈ live, ∀ size, OwnUnits h g size → ∃ h', h.slobFree g.start size = .ok h' := by
  obtain ⟨free, whole⟩ := run.whole
  refine ⟨⟨free, whole.cyclic, whole.start, ?_, whole.strict, ?_, ?_, ?_⟩, ?_, ?_, ?_⟩
  · exact fun c inside => ⟨whole.layout.freeSized c inside, whole.units c inside⟩
  · exact fun c inside g inLive => whole.layout.apart c inside g.chunk (List.mem_map_of_mem inLive)
  · exact List.pairwise_map.mp whole.layout.disjoint
  · have total := whole.layout.total
    rw [List.map_map] at total
    exact total
  · clear whole
    induction run with
    | initial => simp
    | allocated _ _ fits _ ih =>
      intro g inside
      rcases List.mem_cons.mp inside with rfl | inside
      · exact slobUnits_enough fits
      · exact ih g inside
    | refused _ _ _ _ ih => exact ih
    | freed _ _ _ _ ih => exact fun g inside => ih g (List.mem_of_mem_erase inside)
    | written _ _ ih => exact ih
    | elsewhere _ ih => exact ih
  · intro size fits answers
    rcases whole.slobAlloc (fun _ => answers) fits.1 fits.2 with ⟨p, h', free', result, _⟩ | ⟨_, refused, result⟩
    · exact ⟨some p, h', result, fun absent => by cases absent⟩
    · exact ⟨none, _, result, fun _ => refused⟩
  · intro g inLive size own
    obtain ⟨h', _, done, _⟩ := (whole.perm (live_split inLive)).slobFree own
    exact ⟨h', done⟩

/-- The initial heap, with one answer of the page allocator after the other. -/
def slobBoot : Heap :=
  Heap.initial (page2kva 0x80205) ⟨0x88000, fun _ _ => 0, fun _ => 0, [], fun call => some (0x80300 + call), [], fun _ => none, by decide⟩

instance (h : Heap) : Decidable h.Answers :=
  inferInstanceAs (Decidable (∀ page ∈ h.mem.pages 0, (page2kva page + pgSize < h.arena ∨ Heap.plus h.arena 1 < page2kva page) ∧ page2kva page ∉ h.grown))

/-- Two blocks are cut from the first page, and the first one is given back. -/
def slobCalls (h : Heap) : Kern Unit := do
  let (p, h₁) ← h.slobAlloc 32
  let (q, h₂) ← h₁.slobAlloc 2048
  let h₃ ← h₂.slobFree (page2kva 0x80300) 32
  assert (decide (p = some (page2kva 0x80300) ∧ q = some (page2kva 0x80300 + 32) ∧ h.Answers ∧ h₁.Answers ∧ h₃.Answers)) ""

private theorem slobCalls_ran : slobCalls slobBoot = .ok () := by decide +kernel

/-- With a block of two units and one of 126 on the list, `slob_alloc` of 4000 bytes needs another page. -/
theorem slob_heap_integrity_second : ∃ h, SlobRun h [⟨page2kva 0x80300 + 32, 2048⟩] ∧
    ∃ answer h', h.slobAlloc 4000 = .ok (answer, h') ∧ (answer = none → h.mem.pages 0 = none) := by
  obtain ⟨⟨p, h₁⟩, first, rest⟩ := bind_ok slobCalls_ran
  obtain ⟨⟨q, h₂⟩, second, rest⟩ := bind_ok rest
  obtain ⟨h₃, freed, checked⟩ := bind_ok rest
  obtain ⟨rfl, rfl, answers, answers₁, answers₃⟩ := of_decide_eq_true (assert_ok checked)
  have run₁ : SlobRun h₁ [⟨page2kva 0x80300, 32⟩] := .allocated (.initial rfl rfl rfl rfl) answers (by unfold Fits; decide) first
  have run₂ : SlobRun h₂ [⟨page2kva 0x80300 + 32, 2048⟩, ⟨page2kva 0x80300, 32⟩] := .allocated run₁ answers₁ (by unfold Fits; decide) second
  have run₃ := SlobRun.freed run₂ (List.mem_cons_of_mem _ List.mem_cons_self) (.inl ⟨by decide, rfl⟩) freed
  have left : [(⟨page2kva 0x80300 + 32, 2048⟩ : Granted), ⟨page2kva 0x80300, 32⟩].erase ⟨page2kva 0x80300, 32⟩ = [⟨page2kva 0x80300 + 32, 2048⟩] := by decide
  rw [left] at run₃
  exact ⟨h₃, run₃, (slob_heap_integrity run₃).2.2.1 4000 (by unfold Fits; decide) answers₃⟩

end Ucore
