import Mathlib
import Ucore.Proofs.Areas

/-! `mm_map` and the ranges that it ought to refuse. It asks only for the area around the
first address, so a range that begins in front of an area and runs into it goes
on to the assertions of `insert_vma_struct`. A sum that wraps around can come back
as the end of the page it started in. -/

namespace Ucore.MmStruct
open Lib

variable {mm mm' : MmStruct} {m m' : Mem} {vma other : Vma} {addr len : Nat} {vmFlags : BitVec 32}

/-- The end of the range rounded up to a page, without wrapping around. -/
def pageEnd (addr len : Nat) : Nat := (addr + len + (pgSize - 1)) / pgSize * pgSize

/-- The areas that calls of `mm_map` build in the `mm_struct` of `mm_create`, whatever
its other fields have become. -/
inductive Built : MmStruct → Prop where
  | created (pgdir : Option Frame) (mmCount : Int) (mmLock : Bool) : Built ⟨[], none, pgdir, 0, mmCount, mmLock⟩
  | mapped {mm mm' : MmStruct} {m m' : Mem} {addr len : Nat} {vmFlags : BitVec 32} {ret : Int} (built : Built mm)
      (addrWord : addr < 2 ^ 64) (lenWord : len < 2 ^ 64)
      (mapped : mm.mmMap addr len vmFlags m = .ok (ret, mm', m')) : Built mm'

/-- The range overlaps an area. -/
def Meets (mm : MmStruct) (start stop : Nat) : Prop := ∃ vma ∈ mm.mmapList, start < vma.vmEnd ∧ vma.vmStart < stop

/-- A range that is not a user range or that overlaps an area is refused, and nothing
changes. Any other becomes an area in its place, unless there is no memory for it. -/
def MapsCleanly (addr len : Nat) (vmFlags : BitVec 32) (mm : MmStruct) (m : Mem) : Prop :=
  let start := roundDown addr pgSize
  let stop := pageEnd addr len
  (¬ UserAccess start stop ∨ mm.Meets start stop →
    ∃ mm', mm.mmMap addr len vmFlags m = .ok (-eInval, mm', m) ∧ SameAreas mm mm') ∧
  (UserAccess start stop → ¬ mm.Meets start stop → ∀ vma m', vmaCreate start stop vmFlags m = (some vma, m') →
    ∃ mm', mm.mmMap addr len vmFlags m = .ok (0, mm', m') ∧ mm'.mmapList = withArea vma mm.mmapList ∧
      mm'.mapCount = mm.mapCount + 1) ∧
  (UserAccess start stop → ¬ mm.Meets start stop → ∀ m', vmaCreate start stop vmFlags m = (none, m') →
    ∃ mm', mm.mmMap addr len vmFlags m = .ok (-eNoMem, mm', m') ∧ SameAreas mm mm')

/-- Where `mm_map` looks at enough: an area is around the first page, or the sum does not
wrap around and no area begins behind the first page of a user range, or the sum
wraps around to what is no user range. -/
def Foreseen (addr len : Nat) (mm : MmStruct) : Prop :=
  let start := roundDown addr pgSize
  (∃ vma ∈ mm.mmapList, vma.has start) ∨
    if addr + len < 2 ^ 64 then
      ¬ (UserAccess start (pageEnd addr len) ∧ ∃ vma ∈ mm.mmapList, start < vma.vmStart ∧ vma.vmStart < pageEnd addr len)
    else ¬ (start < addr + len - 2 ^ 64 ∧ UserAccess start (start + pgSize))

private theorem mapNew_ret {start stop : Nat} {ret : Int} (mapped : mmMap.mapNew vmFlags start stop mm m = .ok (ret, mm', m')) :
    ret ≠ -eInval := by
  unfold mmMap.mapNew at mapped
  split at mapped
  · obtain ⟨_, _, done⟩ := bind_ok mapped
    cases done
    decide
  · cases mapped
    decide

private theorem mapNew_kept {start stop : Nat} {ret : Int} (kept : mm.Kept)
    (mapped : mmMap.mapNew vmFlags start stop mm m = .ok (ret, mm', m')) : mm'.Kept := by
  unfold mmMap.mapNew at mapped
  split at mapped
  · obtain ⟨_, inserted, done⟩ := bind_ok mapped
    cases done
    exact (insertVmaStruct_spec kept inserted).1
  · cases mapped
    exact kept

theorem mmMap_cases (kept : mm.Kept) (addr len : Nat) (vmFlags : BitVec 32) (m : Mem) :
    let start := roundDown addr pgSize
    let stop := roundUp (wrap (addr + len)) pgSize
    (¬ UserAccess start stop ∧ mm.mmMap addr len vmFlags m = .ok (-eInval, mm, m)) ∨
    ∃ found : MmStruct, found.Kept ∧ SameAreas mm found ∧ UserAccess start stop ∧
      ((∃ vma ∈ mm.mmapList, vma.has start) ∧ mm.mmMap addr len vmFlags m = .ok (-eInval, found, m) ∨
        (¬ ∃ vma ∈ mm.mmapList, vma.has start) ∧ mm.mmMap addr len vmFlags m = mmMap.mapNew vmFlags start stop found m) := by
  intro start stop
  by_cases user : UserAccess start stop
  swap
  · exact .inl ⟨user, if_pos user⟩
  right
  obtain ⟨found, looked, keptFound, same⟩ := findVma_spec kept start
  refine ⟨found, keptFound, same, user, ?_⟩
  have found' : mm.findVma (roundDown addr pgSize) = (mm.search start, found) := looked
  cases searched : mm.search start with
  | none =>
    refine .inr ⟨?_, ?_⟩
    · intro around
      obtain ⟨vma, member, inside⟩ := around
      exact search_none kept searched member (by simpa [Vma.has] using inside)
    · unfold mmMap
      rw [if_neg (not_not.mpr user), found', searched]
  | some vma =>
    obtain ⟨member, around⟩ := (search_iff kept).mp searched
    refine .inl ⟨⟨vma, member, by simpa [Vma.has] using around⟩, ?_⟩
    unfold mmMap
    rw [if_neg (not_not.mpr user), found', searched]
    exact if_pos (around.1.trans_lt user.2.1)

theorem Built.kept (built : Built mm) : mm.Kept := by
  induction built with
  | created =>
    refine ⟨.nil, ?_⟩
    intro vma held
    cases held
  | @mapped mm mm' m m' addr len vmFlags ret _ _ _ mapped ih =>
    rcases mmMap_cases ih addr len vmFlags m with ⟨_, refused⟩ | ⟨found, kept, _, _, ⟨_, refused⟩ | ⟨_, isNew⟩⟩
    · cases refused.symm.trans mapped
      exact ih
    · cases refused.symm.trans mapped
      exact kept
    · exact mapNew_kept kept (isNew.symm.trans mapped)

/-- A call of `mm_map` that returns zero makes an area of whole pages. -/
theorem mmMap_ok (kept : mm.Kept) (mapped : mm.mmMap addr len vmFlags m = .ok (0, mm', m')) :
    ∃ vma, (vma.vmStart % pgSize = 0 ∧ vma.vmEnd % pgSize = 0 ∧ UserAccess vma.vmStart vma.vmEnd) ∧ m.kmalloc = (some vma.block, m') ∧
      mm'.Kept ∧ mm' = { mm with mmapList := withArea vma mm.mmapList, mmapCache := mm'.mmapCache, mapCount := mm.mapCount + 1 } := by
  rcases mmMap_cases kept addr len vmFlags m with ⟨_, refused⟩ | ⟨found, keptFound, same, user, ⟨_, refused⟩ | ⟨_, isNew⟩⟩
  · cases refused.symm.trans mapped
  · cases refused.symm.trans mapped
  · have created := isNew.symm.trans mapped
    unfold mmMap.mapNew vmaCreate at created
    cases asked : m.kmalloc with
    | mk answer m₁ =>
      rw [asked] at created
      cases answer with
      | none => cases created
      | some block =>
        obtain ⟨mm₁, inserted, result⟩ := bind_ok created
        obtain ⟨keptNew, after⟩ := insertVmaStruct_spec keptFound inserted
        obtain ⟨_, sames⟩ := Prod.mk.inj (Except.ok.inj result)
        obtain ⟨rfl, rfl⟩ := Prod.mk.inj sames
        refine ⟨⟨block, roundDown addr pgSize, roundUp (wrap (addr + len)) pgSize, vmFlags⟩, ⟨?_, ?_, user⟩, rfl, keptNew, ?_⟩
        · unfold roundDown pgSize
          dsimp only
          omega
        · unfold roundUp roundDown pgSize
          dsimp only
          omega
        · rw [after, same]

/-- What a call of `mm_map` that returns has done. If it returns zero, the new area is the range rounded to pages. -/
theorem mmMap_done {ret : Int} (kept : mm.Kept) (mapped : mm.mmMap addr len vmFlags m = .ok (ret, mm', m')) :
    mm'.Kept ∧ (ret ≠ 0 ∧ SameAreas mm mm' ∧ (m' = m ∨ m.kmalloc = (none, m')) ∨
      ret = 0 ∧ ∃ block, m.kmalloc = (some block, m') ∧ UserAccess (roundDown addr pgSize) (roundUp (wrap (addr + len)) pgSize) ∧
        mm' = { mm with
          mmapList := withArea ⟨block, roundDown addr pgSize, roundUp (wrap (addr + len)) pgSize, vmFlags⟩ mm.mmapList
          mmapCache := mm'.mmapCache
          mapCount := mm.mapCount + 1 }) := by
  rcases mmMap_cases kept addr len vmFlags m with ⟨_, refused⟩ | ⟨found, keptFound, same, user, ⟨_, refused⟩ | ⟨_, isNew⟩⟩
  · obtain ⟨rfl, sames⟩ := Prod.mk.inj (Except.ok.inj (refused.symm.trans mapped))
    obtain ⟨rfl, rfl⟩ := Prod.mk.inj sames
    exact ⟨kept, .inl ⟨by decide, .refl, .inl rfl⟩⟩
  · obtain ⟨rfl, sames⟩ := Prod.mk.inj (Except.ok.inj (refused.symm.trans mapped))
    obtain ⟨rfl, rfl⟩ := Prod.mk.inj sames
    exact ⟨keptFound, .inl ⟨by decide, same, .inl rfl⟩⟩
  · have created := isNew.symm.trans mapped
    unfold mmMap.mapNew vmaCreate at created
    cases asked : m.kmalloc with
    | mk answer m₁ =>
      rw [asked] at created
      cases answer with
      | none =>
        obtain ⟨rfl, sames⟩ := Prod.mk.inj (Except.ok.inj created)
        obtain ⟨rfl, rfl⟩ := Prod.mk.inj sames
        exact ⟨keptFound, .inl ⟨by decide, same, .inr rfl⟩⟩
      | some block =>
        obtain ⟨mm₁, inserted, result⟩ := bind_ok created
        obtain ⟨keptNew, after⟩ := insertVmaStruct_spec keptFound inserted
        obtain ⟨rfl, sames⟩ := Prod.mk.inj (Except.ok.inj result)
        obtain ⟨rfl, rfl⟩ := Prod.mk.inj sames
        refine ⟨keptNew, .inr ⟨rfl, block, rfl, user, ?_⟩⟩
        rw [after, same]

private theorem pageEnd_user {start : Nat} (user : UserAccess start (pageEnd addr len)) : addr + len < 2 ^ 64 := by
  simp only [UserAccess, pageEnd, pgSize, userTop] at user
  omega

private theorem stop_eq (start : Nat) (sum : addr + len < 2 ^ 64)
    (user : UserAccess start (pageEnd addr len) ∨ UserAccess start (roundUp (wrap (addr + len)) pgSize)) :
    roundUp (wrap (addr + len)) pgSize = pageEnd addr len := by
  simp only [UserAccess, roundUp, roundDown, wrap, pageEnd, pgSize, userTop, Nat.mod_eq_of_lt sum] at user ⊢
  omega

private theorem stop_wrapped (addrWord : addr < 2 ^ 64) (lenWord : len < 2 ^ 64) (wraps : ¬ addr + len < 2 ^ 64) :
    UserAccess (roundDown addr pgSize) (roundUp (wrap (addr + len)) pgSize) ↔
      roundDown addr pgSize < addr + len - 2 ^ 64 ∧ UserAccess (roundDown addr pgSize) (roundDown addr pgSize + pgSize) := by
  have rest : wrap (addr + len) = addr + len - 2 ^ 64 := by
    unfold wrap
    omega
  simp only [UserAccess, roundUp, roundDown, wrap, pgSize, userTop, userBase] at rest ⊢
  omega

private theorem meets_iff {start stop : Nat} (outside : ¬ ∃ vma ∈ mm.mmapList, vma.has start) (kept : mm.Kept) :
    mm.Meets start stop ↔ ∃ vma ∈ mm.mmapList, start < vma.vmStart ∧ vma.vmStart < stop := by
  constructor
  · intro meets
    obtain ⟨vma, member, ahead, before⟩ := meets
    refine ⟨vma, member, ?_, before⟩
    by_contra around
    exact outside ⟨vma, member, by simpa [Vma.has] using ⟨not_lt.mp around, ahead⟩⟩
  · intro begins
    obtain ⟨vma, member, behind, before⟩ := begins
    exact ⟨vma, member, behind.trans (kept.spans.nonempty vma member), before⟩

/-- `mm_map` refuses every overlap and every sum that wraps around, and maps what is
left, exactly where looking at the first page is enough. -/
theorem mm_map_clean_iff (built : Built mm) (addr len : Nat) (addrWord : addr < 2 ^ 64) (lenWord : len < 2 ^ 64)
    (vmFlags : BitVec 32) (m : Mem) : mm.MapsCleanly addr len vmFlags m ↔ mm.Foreseen addr len := by
  have kept := built.kept
  rcases mmMap_cases kept addr len vmFlags m with ⟨notUser, refused⟩ | ⟨found, keptFound, same, user, step⟩
  · -- the code refuses the range, and it is no user range without wrapping around either
    have outside : ¬ UserAccess (roundDown addr pgSize) (pageEnd addr len) := by
      intro user
      rw [stop_eq _ (pageEnd_user user) (.inl user)] at notUser
      exact notUser user
    refine iff_of_true ⟨fun _ => ⟨mm, refused, .refl⟩, ?_, ?_⟩ ?_
    · exact fun user => absurd user outside
    · exact fun user => absurd user outside
    · refine .inr ?_
      by_cases sum : addr + len < 2 ^ 64
      · rw [if_pos sum]
        exact fun bad => outside bad.1
      · rw [if_neg sum]
        exact fun bad => notUser ((stop_wrapped addrWord lenWord sum).mpr bad)
  rcases step with ⟨⟨vma, member, inside⟩, refused⟩ | ⟨outside, isNew⟩
  · have overlap : UserAccess (roundDown addr pgSize) (pageEnd addr len) → mm.Meets (roundDown addr pgSize) (pageEnd addr len) := by
      intro user
      have within : vma.vmStart ≤ roundDown addr pgSize ∧ roundDown addr pgSize < vma.vmEnd := by simpa [Vma.has] using inside
      exact ⟨vma, member, within.2, within.1.trans_lt user.2.1⟩
    refine iff_of_true ⟨fun _ => ⟨found, refused, same⟩, ?_, ?_⟩ (.inl ⟨vma, member, inside⟩)
    · exact fun user clear => absurd (overlap user) clear
    · exact fun user clear => absurd (overlap user) clear
  by_cases sum : addr + len < 2 ^ 64
  swap
  · -- the sum has wrapped around and the code maps the first page
    have bad := (stop_wrapped addrWord lenWord sum).mp user
    refine iff_of_false ?_ ?_
    · intro clean
      obtain ⟨mm', refused, _⟩ := clean.1 (.inl fun user => sum (pageEnd_user user))
      exact mapNew_ret (isNew.symm.trans refused) rfl
    · intro foreseen
      rcases foreseen with around | rest
      · exact outside around
      · rw [if_neg sum] at rest
        exact rest bad
  have ends := stop_eq (roundDown addr pgSize) sum (.inr user)
  rw [ends] at user isNew
  have meets : mm.Meets (roundDown addr pgSize) (pageEnd addr len) ↔ _ := meets_iff outside kept
  by_cases overlap : mm.Meets (roundDown addr pgSize) (pageEnd addr len)
  · refine iff_of_false ?_ ?_
    · intro clean
      obtain ⟨mm', refused, _⟩ := clean.1 (.inr overlap)
      exact mapNew_ret (isNew.symm.trans refused) rfl
    · intro foreseen
      rcases foreseen with around | rest
      · exact outside around
      · rw [if_pos sum] at rest
        exact rest ⟨user, meets.mp overlap⟩
  · refine iff_of_true ⟨?_, ?_, ?_⟩ ?_
    · exact fun bad => absurd bad (not_or.mpr ⟨not_not.mpr user, overlap⟩)
    · intro _ _ vma m' created
      have fields : vma.vmStart = roundDown addr pgSize ∧ vma.vmEnd = pageEnd addr len := by
        unfold vmaCreate at created
        split at created
        · cases created
          exact ⟨rfl, rfl⟩
        · cases created
      have size : vma.vmStart < vma.vmEnd := by
        rw [fields.1, fields.2]
        exact user.2.1
      have clear : ∀ other ∈ found.mmapList, other.vmEnd ≤ vma.vmStart ∨ vma.vmEnd ≤ other.vmStart := by
        intro other member
        rw [same.list] at member
        by_contra apart
        refine overlap ⟨other, member, ?_⟩
        rw [← fields.1, ← fields.2]
        omega
      obtain ⟨mm', inserted⟩ := insertVmaStruct_fits keptFound size clear
      have after := (insertVmaStruct_spec keptFound inserted).2
      refine ⟨mm', ?_, ?_, ?_⟩
      · rw [isNew, mmMap.mapNew, created]
        simp only [inserted, ok_bind]
      · rw [after, same]
      · rw [after, same]
    · intro _ _ m' created
      exact ⟨found, by rw [isNew, mmMap.mapNew, created], same⟩
    · exact .inr (by rw [if_pos sum]; exact fun bad => overlap (meets.mpr bad.2))

/-- With one area there is, a range that touches it is mapped, and one that runs out of it is refused. -/
theorem mm_map_clean_iff_second :
    let m : Mem := ⟨0x88000, fun _ _ => 0, fun _ => 0, [0], fun _ => none, [0], fun call => some (call + 1), by decide⟩
    let mm : MmStruct := ⟨[⟨0, 0x400000, 0x401000, vmRead⟩], none, none, 1, 0, false⟩
    mm.MapsCleanly 0x401000 0x1000 vmWrite m ∧ mm.MapsCleanly 0x400800 0x1000 vmWrite m := by
  intro m mm
  have first : (⟨[], none, none, 0, 0, false⟩ : MmStruct).mmMap 0x400000 0x1000 vmRead
      ⟨0x88000, fun _ _ => 0, fun _ => 0, [0], fun _ => none, [], fun call => some call, by decide⟩ = .ok (0, mm, m) := rfl
  have built : mm.Built := .mapped (.created none 0 false) (by decide) (by decide) first
  have touching : mm.Foreseen 0x401000 0x1000 := .inr (by decide)
  have overlapping : mm.Foreseen 0x400800 0x1000 := .inl ⟨⟨0, 0x400000, 0x401000, vmRead⟩, List.mem_cons_self, by decide⟩
  exact ⟨(mm_map_clean_iff built 0x401000 0x1000 (by decide) (by decide) vmWrite m).mpr touching,
    (mm_map_clean_iff built 0x400800 0x1000 (by decide) (by decide) vmWrite m).mpr overlapping⟩

/-- A range around an area: `check_vma_overlap` fails. -/
theorem mm_map_not_clean :
    let m : Mem := ⟨0x88000, fun _ _ => 0, fun _ => 0, [], fun _ => none, [], fun call => some call, by decide⟩
    let mm : MmStruct := ⟨[⟨0, 0x400000, 0x401000, vmRead⟩], none, none, 1, 0, false⟩
    mm.Built ∧ ¬ mm.MapsCleanly 0x300000 0x200000 vmRead m ∧
      mm.mmMap 0x300000 0x200000 vmRead m = .error (.assertion "prev->vm_end <= next->vm_start") := by
  intro m mm
  have halts : mm.mmMap 0x300000 0x200000 vmRead m = .error (.assertion "prev->vm_end <= next->vm_start") := rfl
  have first : (⟨[], none, none, 0, 0, false⟩ : MmStruct).mmMap 0x400000 0x1000 vmRead m =
      .ok (0, mm, { m with blocks := [0], kmallocs := fun call => some (call + 1) }) := rfl
  refine ⟨.mapped (.created none 0 false) (by decide) (by decide) first, ?_, halts⟩
  intro clean
  have meets : mm.Meets (roundDown 0x300000 pgSize) (pageEnd 0x300000 0x200000) :=
    ⟨⟨0, 0x400000, 0x401000, vmRead⟩, List.mem_cons_self, by decide, by decide⟩
  obtain ⟨mm', refused, _⟩ := clean.1 (.inr meets)
  rw [halts] at refused
  cases refused

end Ucore.MmStruct
