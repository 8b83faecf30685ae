import Mathlib
import Ucore.Vmm
import Ucore.Lib.Spans

/-! The areas of an address space. They are kept in the order of their addresses and
without overlap, and `find_vma` finds the area of an address, whatever is cached. -/

namespace Ucore.MmStruct
open Lib

variable {mm mm' : MmStruct} {vma other : Vma} {addr : Nat}

/-- The areas do not overlap and stand in the order of their addresses. What is
cached is one of them. -/
structure Kept (mm : MmStruct) : Prop where
  spans : Spans Vma.vmStart Vma.vmEnd mm.mmapList
  cached : ∀ vma ∈ mm.mmapCache, vma ∈ mm.mmapList

/-- Nothing but the cache has changed. -/
def SameAreas (mm mm' : MmStruct) : Prop := mm' = { mm with mmapCache := mm'.mmapCache }

theorem SameAreas.refl : SameAreas mm mm := rfl

theorem SameAreas.list (same : SameAreas mm mm') : mm'.mmapList = mm.mmapList := by
  rw [same]

theorem SameAreas.trans {mm'' : MmStruct} (first : SameAreas mm mm') (second : SameAreas mm' mm'') : SameAreas mm mm'' := by
  unfold SameAreas at first second ⊢
  rw [second, first]

theorem kept_fresh : Kept .fresh where
  spans := .nil
  cached vma held := by cases held

private theorem has_iff : vma.has addr = true ↔ vma.vmStart ≤ addr ∧ addr < vma.vmEnd := by
  simp [Vma.has]

theorem search_iff (kept : mm.Kept) :
    mm.search addr = some vma ↔ vma ∈ mm.mmapList ∧ vma.vmStart ≤ addr ∧ addr < vma.vmEnd := by
  have scan : mm.mmapList.find? (·.has addr) = some vma ↔ _ := kept.spans.find_iff fun _ => has_iff
  unfold search
  split
  next cache held =>
    have member : cache ∈ mm.mmapList := kept.cached cache held
    split
    next inside =>
      have within := has_iff.mp inside
      constructor
      · intro found
        obtain rfl := Option.some.inj found
        exact ⟨member, within⟩
      · intro isArea
        obtain ⟨inList, around⟩ := isArea
        rw [kept.spans.unique member inList within around]
    next => exact scan
  next => exact scan

theorem search_none (kept : mm.Kept) (missing : mm.search addr = none) (member : vma ∈ mm.mmapList) :
    ¬ (vma.vmStart ≤ addr ∧ addr < vma.vmEnd) := by
  intro within
  have found := (search_iff kept).mpr ⟨member, within⟩
  rw [missing] at found
  cases found

theorem findVma_fst : (mm.findVma addr).1 = mm.search addr := by
  unfold findVma
  split <;> simp only [*]

theorem findVma_same : SameAreas mm (mm.findVma addr).2 := by
  unfold findVma
  split <;> rfl

theorem findVma_kept (kept : mm.Kept) : (mm.findVma addr).2.Kept := by
  unfold findVma
  split
  next vma found =>
    refine ⟨kept.spans, ?_⟩
    intro cache held
    obtain rfl := Option.some.inj held
    exact ((search_iff kept).mp found).1
  next => exact kept

theorem findVma_spec (kept : mm.Kept) (addr : Nat) :
    ∃ mm', mm.findVma addr = (mm.search addr, mm') ∧ mm'.Kept ∧ SameAreas mm mm' :=
  ⟨(mm.findVma addr).2, by rw [← findVma_fst], findVma_kept kept, findVma_same⟩

private theorem checkNeighbours_ok {prev next : Option Vma} (passed : checkNeighbours prev next = .ok ()) :
    ∀ before ∈ prev, ∀ after ∈ next, before.vmEnd ≤ after.vmStart := by
  intro before isPrev after isNext
  obtain rfl := Option.mem_def.mp isPrev
  obtain rfl := Option.mem_def.mp isNext
  simp only [checkNeighbours, checkVmaOverlap] at passed
  by_cases ahead : before.vmEnd ≤ after.vmStart
  · exact ahead
  · by_cases size : before.vmStart < before.vmEnd
    · simp [size, ahead] at passed
    · simp [size] at passed

private theorem checkNeighbours_pass {prev next : Option Vma} (sizes : ∀ vma, vma ∈ prev ∨ vma ∈ next → vma.vmStart < vma.vmEnd)
    (ahead : ∀ before ∈ prev, ∀ after ∈ next, before.vmEnd ≤ after.vmStart) : checkNeighbours prev next = .ok () := by
  cases prev with
  | none => rfl
  | some before =>
    cases next with
    | none => rfl
    | some after =>
      have first := sizes before (.inl rfl)
      have second := sizes after (.inr rfl)
      have apart := ahead before rfl after rfl
      simp [checkNeighbours, checkVmaOverlap, first, second, apart]

/-- The areas with a new one in the place that its address gives it. -/
def withArea (vma : Vma) (areas : List Vma) : List Vma :=
  areas.orderedInsert (fun first second => first.vmStart < second.vmStart) vma

private theorem withArea_eq (vma : Vma) (areas : List Vma) :
    withArea vma areas = areas.takeWhile (fun prev => prev.vmStart ≤ vma.vmStart) ++
      vma :: areas.dropWhile (fun prev => prev.vmStart ≤ vma.vmStart) := by
  simp only [withArea, List.orderedInsert_eq_take_drop, not_lt]

theorem mem_withArea {areas : List Vma} : other ∈ withArea vma areas ↔ other = vma ∨ other ∈ areas :=
  List.mem_orderedInsert _

theorem insertVmaStruct_spec (kept : mm.Kept) (inserted : mm.insertVmaStruct vma = .ok mm') :
    mm'.Kept ∧ mm' = { mm with mmapList := withArea vma mm.mmapList, mapCount := mm.mapCount + 1 } := by
  unfold insertVmaStruct at inserted
  obtain ⟨_, sized, rest⟩ := bind_ok inserted
  obtain ⟨_, first, rest⟩ := bind_ok rest
  obtain ⟨_, second, rest⟩ := bind_ok rest
  obtain rfl := Except.ok.inj rest
  have size : vma.vmStart < vma.vmEnd := by
    by_contra none
    simp [none] at sized
  have apart : Spans Vma.vmStart Vma.vmEnd (mm.mmapList.takeWhile (fun prev => prev.vmStart ≤ vma.vmStart) ++
      mm.mmapList.dropWhile fun prev => prev.vmStart ≤ vma.vmStart) := by
    rw [List.takeWhile_append_dropWhile]
    exact kept.spans
  refine ⟨⟨apart.insert size ?_ ?_, ?_⟩, ?_⟩
  · intro last isLast
    exact checkNeighbours_ok first last isLast vma rfl
  · intro head isHead
    exact checkNeighbours_ok second vma rfl head isHead
  · intro cache held
    have old := mem_withArea.mpr (Or.inr (a := cache = vma) (kept.cached cache held))
    rwa [withArea_eq] at old
  · rw [withArea_eq]

/-- An area that is not empty and that no other area overlaps can be inserted. -/
theorem insertVmaStruct_fits (kept : mm.Kept) (size : vma.vmStart < vma.vmEnd)
    (clear : ∀ other ∈ mm.mmapList, other.vmEnd ≤ vma.vmStart ∨ vma.vmEnd ≤ other.vmStart) :
    ∃ mm', mm.insertVmaStruct vma = .ok mm' := by
  have sizes := kept.spans.nonempty
  have first : checkNeighbours (mm.mmapList.takeWhile fun prev => prev.vmStart ≤ vma.vmStart).getLast? (some vma) = .ok () := by
    refine checkNeighbours_pass ?_ ?_
    · intro other isOne
      rcases isOne with isLast | isVma
      · exact sizes other ((List.takeWhile_subset _) (List.mem_of_getLast? isLast))
      · obtain rfl := Option.some.inj isVma
        exact size
    · intro last isLast after isVma
      obtain rfl := Option.some.inj isVma
      have inside := List.mem_of_getLast? isLast
      have before : last.vmStart ≤ vma.vmStart := by simpa using List.mem_takeWhile_imp inside
      have := clear last ((List.takeWhile_subset _) inside)
      omega
  have second : checkNeighbours (some vma) (mm.mmapList.dropWhile fun prev => prev.vmStart ≤ vma.vmStart).head? = .ok () := by
    refine checkNeighbours_pass ?_ ?_
    · intro other isOne
      rcases isOne with isVma | isHead
      · obtain rfl := Option.some.inj isVma
        exact size
      · exact sizes other ((List.dropWhile_subset _) (List.mem_of_head? isHead))
    · intro before isVma head isHead
      obtain rfl := Option.some.inj isVma
      have behind := List.head?_dropWhile_not (fun prev : Vma => decide (prev.vmStart ≤ vma.vmStart)) mm.mmapList
      rw [isHead] at behind
      have := clear head ((List.dropWhile_subset _) (List.mem_of_head? isHead))
      have := sizes head ((List.dropWhile_subset _) (List.mem_of_head? isHead))
      simp only [decide_eq_false_iff_not] at behind
      omega
  unfold insertVmaStruct
  simp only [size, decide_true, assert_true, ok_bind, first, second]
  exact ⟨_, rfl⟩

/-- What insertions that pass their assertions and lookups, in any order, make of the
address space that `mm_create` sets up. -/
inductive Populated : MmStruct → Prop where
  | created : Populated .fresh
  | inserted {mm mm' : MmStruct} {vma : Vma} (populated : Populated mm) (inserted : mm.insertVmaStruct vma = .ok mm') : Populated mm'
  | looked {mm : MmStruct} {addr : Nat} (populated : Populated mm) : Populated (mm.findVma addr).2

theorem Populated.kept (populated : Populated mm) : mm.Kept := by
  induction populated with
  | created => exact kept_fresh
  | inserted _ inserted ih => exact (insertVmaStruct_spec ih inserted).1
  | looked _ ih => exact findVma_kept ih

private theorem Populated.count (populated : Populated mm) : mm.mapCount = mm.mmapList.length := by
  induction populated with
  | created => rfl
  | inserted before inserted ih =>
    rw [(insertVmaStruct_spec before.kept inserted).2]
    simp only [withArea, List.orderedInsert_length, ih]
    omega
  | looked before ih =>
    obtain ⟨mm', found, _, same⟩ := findVma_spec before.kept _
    rw [found, same]
    exact ih

/-- The areas stay sorted and apart, and a lookup is exact whatever was looked up
before: it answers an area if and only if that is the one around the address. -/
theorem lookup_exact (populated : Populated mm) :
    mm.mmapList.Pairwise (fun first second => first.vmStart < second.vmStart ∧ first.vmEnd ≤ second.vmStart) ∧
    mm.mapCount = mm.mmapList.length ∧
    (∀ vma, mm.mmapCache = some vma → vma ∈ mm.mmapList) ∧
    ∀ addr vma, (mm.findVma addr).1 = some vma ↔ vma ∈ mm.mmapList ∧ vma.vmStart ≤ addr ∧ addr < vma.vmEnd := by
  have kept := populated.kept
  refine ⟨?_, populated.count, ?_, ?_⟩
  · exact kept.spans.ordered.imp₂ (fun _ _ ordered apart => ⟨ordered, apart⟩) kept.spans.apart
  · exact kept.cached
  · intro addr vma
    rw [findVma_fst]
    exact search_iff kept

/-- Two areas that touch, inserted from the back, with a lookup between. -/
theorem lookup_exact_two :
    let second : Vma := ⟨1, 0x402000, 0x403000, vmRead⟩
    let first : Vma := ⟨2, 0x400000, 0x402000, vmRead⟩
    let mm : MmStruct := ⟨[first, second], some second, none, 2, 0, false⟩
    (mm.findVma 0x401FFF).1 = some first := by
  intro second first mm
  have one : MmStruct.fresh.insertVmaStruct second = .ok ⟨[second], none, none, 1, 0, false⟩ := rfl
  have cached : ((⟨[second], none, none, 1, 0, false⟩ : MmStruct).findVma 0x402800).2 = ⟨[second], some second, none, 1, 0, false⟩ :=
    rfl
  have two : (⟨[second], some second, none, 1, 0, false⟩ : MmStruct).insertVmaStruct first = .ok mm := rfl
  have looked := @Populated.looked _ 0x402800 (Populated.created.inserted one)
  rw [cached] at looked
  have populated : Populated mm := looked.inserted two
  exact ((lookup_exact populated).2.2.2 0x401FFF first).mpr (by decide)

/-- Access to the bytes of `vma` from `byte` on, up to its end: the flag is there, and
a write does not touch the first page of a stack. -/
def Grants (write : Bool) (vma : Vma) (byte : Nat) : Prop :=
  vma.vmFlags &&& (if write then vmWrite else vmRead) ≠ 0 ∧
    (write = true → vma.vmFlags &&& vmStack ≠ 0 → vma.vmStart + pgSize ≤ byte)

/-- Every byte is in an area that grants the access. -/
def Accessible (mm : MmStruct) (write : Bool) (start stop : Nat) : Prop :=
  ∀ byte, start ≤ byte → byte < stop → ∃ vma ∈ mm.mmapList, vma.has byte ∧ Grants write vma byte

private theorem Grants.mono {write : Bool} {byte later : Nat} (grants : Grants write vma byte) (behind : byte ≤ later) :
    Grants write vma later :=
  ⟨grants.1, fun writes stack => (grants.2 writes stack).trans behind⟩

private theorem refuses_iff (write : Bool) {start : Nat} (inside : vma.has start) (user : start < userTop) :
    refuses write start vma = false ↔ Grants write vma start := by
  have within := has_iff.mp inside
  have below : vma.vmStart + pgSize < 2 ^ 64 := by
    simp only [pgSize, userTop] at user ⊢
    omega
  have ahead : ¬ start < vma.vmStart := by omega
  simp only [refuses, Grants, wrap, Nat.mod_eq_of_lt below, ahead, decide_false, Bool.false_or, Bool.or_eq_false_iff,
    Bool.and_eq_false_iff, decide_eq_false_iff_not, not_lt]
  refine and_congr Iff.rfl ?_
  cases write
  · simp
  · simp [or_iff_not_imp_left]

private theorem accessible_jump {write : Bool} {start stop : Nat} (member : vma ∈ mm.mmapList) (inside : vma.has start)
    (grants : Grants write vma start) : Accessible mm write start stop ↔ Accessible mm write vma.vmEnd stop := by
  have within := has_iff.mp inside
  constructor
  · intro all byte behind
    exact all byte (within.2.le.trans behind)
  · intro rest byte behind before
    by_cases inArea : byte < vma.vmEnd
    · exact ⟨vma, member, has_iff.mpr ⟨within.1.trans behind, inArea⟩, grants.mono behind⟩
    · exact rest byte (not_lt.mp inArea) before

private theorem userMemLoop_spec (write : Bool) {stop fuel start : Nat} (kept : mm.Kept) (user : stop ≤ userTop)
    (enough : (mm.mmapList.filter fun vma => start < vma.vmEnd).length < fuel) :
    ∃ answer mm', userMemLoop write stop fuel start mm = .ok (answer, mm') ∧
      (answer = true ↔ Accessible mm write start stop) ∧ SameAreas mm mm' := by
  induction fuel generalizing start mm with
  | zero => omega
  | succ fuel ih =>
    by_cases before : start < stop
    swap
    · refine ⟨true, mm, by simp [userMemLoop, before], ?_, rfl⟩
      simp only [true_iff]
      intro byte behind inRange
      omega
    obtain ⟨found, looked, keptFound, same⟩ := findVma_spec kept start
    simp only [userMemLoop, before, if_true, looked]
    cases searched : mm.search start with
    | none =>
      refine ⟨false, found, rfl, ?_, same⟩
      simp only [Bool.false_eq_true, false_iff]
      intro all
      obtain ⟨vma, member, inside, _⟩ := all start le_rfl before
      exact search_none kept searched member (has_iff.mp inside)
    | some vma =>
      obtain ⟨member, around⟩ := (search_iff kept).mp searched
      have inside : vma.has start := has_iff.mpr around
      have decides := refuses_iff write inside (before.trans_le user)
      cases refused : refuses write start vma with
      | true =>
        refine ⟨false, found, if_pos refused, ?_, same⟩
        simp only [Bool.false_eq_true, false_iff]
        intro all
        obtain ⟨other, otherIn, within, grants⟩ := all start le_rfl before
        obtain rfl := kept.spans.unique otherIn member (has_iff.mp within) around
        rw [decides.mpr grants] at refused
        cases refused
      | false =>
        have fewer := behind_lt member around.2
        rw [← same.list] at enough fewer
        have enough' : (found.mmapList.filter fun other => vma.vmEnd < other.vmEnd).length < fuel := by omega
        obtain ⟨answer, mm', looped, exact, sameRest⟩ := ih keptFound enough'
        refine ⟨answer, mm', (if_neg (by simp [refused])).trans looped, exact.trans ?_, same.trans sameRest⟩
        rw [accessible_jump member inside (decides.mp refused)]
        simp only [Accessible, same.list]

theorem userMemCheck_spec (kept : mm.Kept) (addr len : Nat) (write : Bool) :
    ∃ answer mm', mm.userMemCheck addr len write = .ok (answer, mm') ∧ SameAreas mm mm' ∧
      (answer = true ↔ UserAccess addr (wrap (addr + len)) ∧ Accessible mm write addr (wrap (addr + len))) := by
  unfold userMemCheck
  by_cases user : UserAccess addr (wrap (addr + len))
  · have enough : (mm.mmapList.filter fun vma => addr < vma.vmEnd).length < mm.mmapList.length + 2 :=
      (List.length_filter_le _ _).trans_lt (by omega)
    obtain ⟨answer, mm', looped, exact, same⟩ := userMemLoop_spec write kept user.2.2 enough
    rw [if_pos user]
    exact ⟨answer, mm', looped, same, exact.trans (and_iff_right user).symm⟩
  · rw [if_neg user]
    exact ⟨false, mm, rfl, rfl, fun impossible => absurd impossible Bool.false_ne_true, fun both => absurd both.1 user⟩

/-- `user_mem_check` returns, and it answers exactly whether the range is a user range
every byte of which may be accessed. -/
theorem user_mem_check_exact (kept : mm.Kept) (addr len : Nat) (addrWord : addr < 2 ^ 64) (lenWord : len < 2 ^ 64)
    (write : Bool) :
    ∃ answer mm', mm.userMemCheck addr len write = .ok (answer, mm') ∧ mm' = { mm with mmapCache := mm'.mmapCache } ∧
      (answer = true ↔
        0 < len ∧ addr + len < 2 ^ 64 ∧ userBase ≤ addr ∧ addr + len ≤ userTop ∧
        (∀ byte, addr ≤ byte → byte < addr + len →
          ∃ vma ∈ mm.mmapList, vma.has byte ∧ vma.vmFlags &&& (if write then vmWrite else vmRead) ≠ 0) ∧
        (write = true → ∀ byte, addr ≤ byte → byte < addr + len →
          ∀ vma ∈ mm.mmapList, vma.has byte → vma.vmFlags &&& vmStack ≠ 0 → vma.vmStart + pgSize ≤ byte)) := by
  obtain ⟨answer, mm', checked, same, exact⟩ := userMemCheck_spec kept addr len write
  refine ⟨answer, mm', checked, same, exact.trans ⟨?_, ?_⟩⟩
  · rintro ⟨user, all⟩
    have sum : addr + len < 2 ^ 64 := by
      simp only [UserAccess, wrap] at user
      omega
    rw [wrap, Nat.mod_eq_of_lt sum] at user all
    refine ⟨by have := user.2.1; omega, sum, user.1, user.2.2, ?_, ?_⟩
    · intro byte behind before
      obtain ⟨vma, member, inside, grants⟩ := all byte behind before
      exact ⟨vma, member, inside, grants.1⟩
    · intro writes byte behind before vma member inside stack
      obtain ⟨other, otherIn, within, grants⟩ := all byte behind before
      obtain rfl := kept.spans.unique otherIn member (has_iff.mp within) (has_iff.mp inside)
      exact grants.2 writes stack
  · rintro ⟨positive, sum, base, high, flags, guard⟩
    rw [wrap, Nat.mod_eq_of_lt sum]
    refine ⟨⟨base, by omega, high⟩, fun byte behind before => ?_⟩
    obtain ⟨vma, member, inside, flag⟩ := flags byte behind before
    exact ⟨vma, member, inside, flag, fun writes stack => guard writes byte behind before vma member inside stack⟩

/-- A write across two areas that touch. -/
theorem user_mem_check_exact_two :
    let mm : MmStruct :=
      ⟨[⟨1, 0x400000, 0x401000, vmWrite⟩, ⟨2, 0x401000, 0x402000, vmWrite⟩], none, none, 2, 0, false⟩
    ∃ mm', mm.userMemCheck 0x400800 0x1000 true = .ok (true, mm') := by
  intro mm
  have kept : mm.Kept := by
    refine ⟨⟨by decide, by decide⟩, ?_⟩
    intro vma held
    cases held
  obtain ⟨answer, mm', checked, _, exact⟩ := user_mem_check_exact kept 0x400800 0x1000 (by decide) (by decide) true
  have granted : answer = true := by
    refine exact.mpr ⟨by decide, by decide, by decide, by decide, ?_, ?_⟩
    · intro byte behind before
      by_cases low : byte < 0x401000
      · exact ⟨⟨1, 0x400000, 0x401000, vmWrite⟩, List.mem_cons_self, has_iff.mpr ⟨by simp only; omega, low⟩, by decide⟩
      · exact ⟨⟨2, 0x401000, 0x402000, vmWrite⟩, by simp [mm], has_iff.mpr ⟨by simp only; omega, by simp only; omega⟩, by decide⟩
    · intro _ byte _ _ vma member _ stack
      have plain : ∀ other ∈ mm.mmapList, other.vmFlags &&& vmStack = 0 := by decide
      exact absurd (plain vma member) stack
  exact ⟨mm', granted ▸ checked⟩

end Ucore.MmStruct
