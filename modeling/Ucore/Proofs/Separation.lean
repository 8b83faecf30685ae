import Mathlib
import Ucore.Proofs.Isolation

/-! The address spaces of the processes have no page in common, and a process cannot change what another one finds in its memory. -/

namespace Ucore
open Lib

/-- What a process finds at an address of its own. -/
def Vm.load (vm : Vm) (p : Ptr) (addr : Nat) : Option (BitVec 8) :=
  (vm.mem.walk (vm.pgdir p) addr).map fun pte => vm.mem.byte (pteFrame pte) (addr % pgSize)

/-- The process `p` can reach the frame `f` at the address `addr`. -/
def Vm.Reaches (vm : Vm) (p : Ptr) (addr : Nat) (f : Frame) : Prop := addr < userTop ∧ ∃ pte, vm.mem.walk (vm.pgdir p) addr = some pte ∧ pteFrame pte = f

namespace Spaces

/-- The memory of the processes is separate. -/
structure Separate (s : Spaces) : Prop where
  /-- `mm_count` is the number of the processes that use an address space. -/
  count : ∀ p ∈ s.procs, ∀ b, s.vm.mm p = some b → (s.vm.mms b).mmCount = users s.procs s.vm.mm b
  /-- The current process runs with the page directory of its address space, or with that of the kernel, which maps nothing for the user. -/
  own : ∀ b, s.vm.mm s.vm.current = some b → (s.vm.mms b).pgdir = some s.vm.satp
  kernel : s.vm.mm s.vm.current = none → ∀ addr < userTop, s.vm.mem.walk s.vm.satp addr = none
  /-- A page is reached by the users of one address space and at one address only. -/
  apart : ∀ p ∈ s.procs, ∀ q ∈ s.procs, ∀ b c, s.vm.mm p = some b → s.vm.mm q = some c → ∀ addr addr' f, s.vm.Reaches p addr f → s.vm.Reaches q addr' f →
    b = c ∧ addr / pgSize = addr' / pgSize
  /-- What is reached is in an area, and is a page of the user that is in use and counted once. -/
  page : ∀ p ∈ s.procs, ∀ b, s.vm.mm p = some b → ∀ addr f, s.vm.Reaches p addr f →
    (∃ vma ∈ (s.vm.mms b).mmapList, vma.vmStart ≤ addr ∧ addr < vma.vmEnd) ∧ f ∈ s.vm.mem.used ∧ s.vm.mem.ref f = 1
  /-- No page directory, page table or kernel stack is reached. -/
  safe : ∀ p ∈ s.procs, ∀ b, s.vm.mm p = some b → ∀ addr f, s.vm.Reaches p addr f → f ≠ s.vm.bootPgdir ∧
    ∀ q ∈ s.procs, (∀ c, s.vm.mm q = some c → ¬ s.vm.mem.IsTable {s.vm.pgdir q} f) ∧ (q ≠ s.idleproc → f ∉ s.vm.stack q)

/-- The current process does something, and does not use the address space at `b`. -/
def Aside (b : Block) (s s' : Spaces) : Prop := s.vm.mm s.vm.current ≠ some b ∧ ∃ action, s.Enabled action ∧ act action s = .ok s'

variable {s s' : Spaces} {vm vm' : Vm} {p : Ptr} {b : Block} {addr : Nat} {f : Frame}

/-- Memory in which `boot_pgdir` is the only page in use. -/
def started : Vm where
  mem := {
    npage := nbase + 64
    word := fun _ _ => 0
    ref := fun _ => 0
    used := [nbase]
    pages := fun call => some (nbase + 2 + 2 * call)
    blocks := []
    kmallocs := some
    npage_le := by decide }
  bootPgdir := nbase
  mms _ := .fresh
  mm _ := none
  pgdir _ := nbase
  kstack _ := 0
  tf _ := ⟨fun _ => 0, 0, 0, 0, 0⟩
  name _ := []
  kernByte _ := 0
  satp := nbase
  current := 0

/-- A file of the kernel with one program header, for four bytes of text and four bytes of BSS at 0x800020. -/
def textProgram : Image where
  binary := kernBase
  bytes := [0x7F, 0x45, 0x4C, 0x46] ++ List.replicate 20 0 ++ [0x20, 0, 0x80, 0, 0, 0, 0, 0, 64, 0, 0, 0, 0, 0, 0, 0] ++ List.replicate 16 0 ++
    [1, 0, 0, 0, 0, 0, 0, 0] ++ [1, 0, 0, 0, 5, 0, 0, 0, 120, 0, 0, 0, 0, 0, 0, 0, 0x20, 0, 0x80, 0, 0, 0, 0, 0] ++ List.replicate 8 0 ++
    [4, 0, 0, 0, 0, 0, 0, 0, 8, 0, 0, 0, 0, 0, 0, 0] ++ List.replicate 8 0 ++ [0x13, 0, 0, 0]

theorem textProgram_orderly : textProgram.Orderly := by
  refine ⟨by decide, ?_⟩
  intro satp m _ phoff phnum read counted index inside header found
  obtain rfl : 64 = phoff := Except.ok.inj read
  obtain rfl : 1 = phnum := Except.ok.inj counted
  obtain rfl : index = 0 := Nat.lt_one_iff.mp inside
  have first : textProgram.proghdr satp m 64 = .ok (some ⟨5, 120, 0x800020, 4, 8⟩) := rfl
  obtain rfl := Option.some.inj (Except.ok.inj (first.symm.trans found))
  decide

/-- The process 1 runs a program and forks the process 5, which stores a byte on its stack and exits. -/
def familyRun (image : Image) (vm : Vm) : Kern Unit := do
  let s₀ ← procInit nbase ⟨fun _ => 0, 0, 0, 0, 0⟩ vm
  let s₁ ← play [.run 1, .exec .magicFirst kernBase 1 image 124] s₀
  let (answer, s₂) ← s₁.doFork 0 0 ⟨fun _ => 0, 0, 0, 0, 0⟩
  assert (decide (s₁.exited s₁.vm.current = false ∧ s₁.vm.mm s₁.vm.current = some 2 ∧ answer.toOption = some 5)) ""
  let s₃ ← play [.run 5] s₂
  let s₄ ← act (.store 0x7FFFFFF0 9) s₃
  assert (decide (s₃.exited s₃.vm.current = false ∧ 1 ∈ s₃.procs ∧ s₃.vm.mm 1 = some 2 ∧ s₃.vm.mm s₃.vm.current = some 6)) ""
  let s₅ ← s₄.doExit
  assert (decide (s₄.exited s₄.vm.current = false ∧ s₄.vm.current = 5 ∧ s₄.idleproc = 0 ∧ s₄.initproc = some 1 ∧ s₄.vm.mm s₄.vm.current = some 6 ∧ users s₄.procs s₄.vm.mm 6 = 1)) ""
  assert (decide (5 ∈ s₅.procs ∧ s₅.exited 5 = true ∧ s₅.idleproc = 0 ∧ s₅.initproc = some 1)) ""

/-- The states of the family. -/
private structure Family (s₁ s₂ s₃ s₄ s₅ : Spaces) : Prop where
  parent : s₁.Reachable
  mine : s₁.vm.mm s₁.vm.current = some 2
  forks : s₁.doFork 0 0 ⟨fun _ => 0, 0, 0, 0, 0⟩ = .ok (.ok 5, s₂)
  child : s₃.Reachable
  stores : Aside 2 s₃ s₄
  there : 1 ∈ s₃.procs
  uses : s₃.vm.mm 1 = some 2
  stored : s₄.Reachable
  active : s₄.exited s₄.vm.current = false
  runs : s₄.vm.current = 5
  idle : s₄.idleproc = 0
  init : s₄.initproc = some 1
  own : s₄.vm.mm s₄.vm.current = some 6
  alone : users s₄.procs s₄.vm.mm 6 = 1
  exits : s₄.doExit = .ok s₅
  gone : s₅.Reachable
  left : 5 ∈ s₅.procs
  ended : s₅.exited 5 = true
  notIdle : 5 ≠ s₅.idleproc
  notInit : some 5 ≠ s₅.initproc

private theorem familyRun_ok {image : Image} (orderly : image.Orderly) (started : vm.Started) (ran : familyRun image vm = .ok ()) :
    ∃ s₁ s₂ s₃ s₄ s₅, Family s₁ s₂ s₃ s₄ s₅ := by
  obtain ⟨s₀, booted, rest⟩ := bind_ok ran
  obtain ⟨s₁, execs, rest⟩ := bind_ok rest
  obtain ⟨⟨answer, s₂⟩, forks, rest⟩ := bind_ok rest
  obtain ⟨⟨⟩, parent, rest⟩ := bind_ok rest
  obtain ⟨s₃, runs, rest⟩ := bind_ok rest
  obtain ⟨s₄, stores, rest⟩ := bind_ok rest
  obtain ⟨⟨⟩, child, rest⟩ := bind_ok rest
  obtain ⟨s₅, exits, rest⟩ := bind_ok rest
  obtain ⟨⟨⟩, stored, gone⟩ := bind_ok rest
  obtain ⟨active₁, mine, answered⟩ := of_decide_eq_true (assert_ok parent)
  obtain ⟨active₃, there, uses, other⟩ := of_decide_eq_true (assert_ok child)
  obtain ⟨active₄, current, idle, init, own, alone⟩ := of_decide_eq_true (assert_ok stored)
  obtain ⟨left, ended, notIdle, notInit⟩ := of_decide_eq_true (assert_ok gone)
  have reached₀ : s₀.Reachable := .boot started booted
  have reached₁ : s₁.Reachable := by
    refine play_reachable reached₀ ?_ execs
    intro action member
    rcases List.mem_cons.mp member with rfl | member
    · trivial
    · obtain rfl := List.mem_singleton.mp member
      exact orderly
  have enabled₁ : s₁.Enabled (.fork 0 0 ⟨fun _ => 0, 0, 0, 0, 0⟩) := ⟨active₁, trivial⟩
  have forked : act (.fork 0 0 ⟨fun _ => 0, 0, 0, 0, 0⟩) s₁ = .ok s₂ := by
    rw [act, forks]
    rfl
  have reached₂ : s₂.Reachable := reached₁.step enabled₁ forked
  have reached₃ : s₃.Reachable := play_reachable reached₂ (fun action member => by rw [List.mem_singleton.mp member]; trivial) runs
  have enabled₃ : s₃.Enabled (.store 0x7FFFFFF0 9) := ⟨active₃, trivial⟩
  have reached₄ : s₄.Reachable := reached₃.step enabled₃ stores
  have enabled₄ : s₄.Enabled .exit := ⟨active₄, trivial⟩
  have reached₅ : s₅.Reachable := reached₄.step enabled₄ exits
  have forks : s₁.doFork 0 0 ⟨fun _ => 0, 0, 0, 0, 0⟩ = .ok (.ok 5, s₂) := by
    rw [forks]
    cases answer with
    | error code => cases answered
    | ok child =>
      obtain rfl := Option.some.inj answered
      rfl
  refine ⟨s₁, s₂, s₃, s₄, s₅, reached₁, mine, forks, reached₃, ⟨?_, _, enabled₃, stores⟩, there, uses, reached₄, active₄, current, idle, init, own, alone, exits,
    reached₅, left, ended, ?_, ?_⟩
  · rw [other]
    decide
  · rw [notIdle]
    decide
  · rw [notInit]
    decide

private theorem family_ran : familyRun textProgram started = .ok () := by decide +kernel

theorem started_boot : started.Started := ⟨by decide, fun _ _ => rfl, fun _ _ => rfl, rfl⟩

private theorem family : ∃ s₁ s₂ s₃ s₄ s₅, Family s₁ s₂ s₃ s₄ s₅ := familyRun_ok textProgram_orderly started_boot family_ran

theorem reaches_target (reaches : vm.Reaches p addr f) : addr / pgSize < userPages ∧ vm.mem.target (vm.pgdir p, addr / pgSize) = some f := by
  obtain ⟨user, pte, walked, rfl⟩ := reaches
  exact ⟨page_of_user user, walk_target user walked⟩

theorem Sound.separate (sound : s.Sound) : s.Separate := by
  obtain ⟨l, fits⟩ := sound.holdings
  have mapped : ∀ p ∈ s.procs, ∀ b, s.vm.mm p = some b → ∀ addr f, s.vm.Reaches p addr f → s.vm.mem.Mapped l.roots f := by
    intro p member b uses addr f reaches
    obtain ⟨inside, here⟩ := reaches_target reaches
    exact ⟨s.vm.pgdir p, fits.root member uses, _, inside, here⟩
  refine ⟨fun p member b uses => fits.count b (fits.mine p member b uses).1, ?_, ?_, ?_, ?_, ?_⟩
  · intro b uses
    rw [sound.user]
    · exact (fits.mine _ sound.runs b uses).2
    · by_contra ended
      rw [sound.bare _ sound.runs (Bool.eq_true_of_not_eq_false ended)] at uses
      cases uses
  · intro gone addr user
    have boot : s.vm.satp = s.vm.bootPgdir := by
      cases ended : s.exited s.vm.current with
      | true => exact sound.kernel ended
      | false => exact (sound.user ended).trans (sound.boot _ sound.runs ended gone)
    rw [boot]
    exact walk_zero fits.zero (user.trans (by decide))
  · intro p member q member' b c uses uses' addr addr' f reaches reaches'
    obtain ⟨inside, here⟩ := reaches_target reaches
    obtain ⟨inside', here'⟩ := reaches_target reaches'
    obtain ⟨root, page⟩ := fits.housed.unshared _ (fits.root member uses) _ inside _ (fits.root member' uses') _ inside' f here here'
    obtain ⟨there, place⟩ := fits.mine p member b uses
    obtain ⟨there', place'⟩ := fits.mine q member' c uses'
    exact ⟨(fits.housed.apart b there c there' (by rw [place, place', root])).symm, page.symm⟩
  · intro p member b uses addr f reaches
    have place := mapped p member b uses addr f reaches
    obtain ⟨inside, here⟩ := reaches_target reaches
    obtain ⟨there, origin⟩ := fits.mine p member b uses
    obtain ⟨r, root, own, covered⟩ := fits.housed.root there
    obtain rfl := Option.some.inj (origin.symm.trans own)
    refine ⟨?_, (fits.housed.counted.mapped f place).1, fits.housed.unshared.once fits.housed.counted place⟩
    obtain ⟨vma, area, low, high⟩ := covered.pages _ inside (by rw [here]; exact Option.some_ne_none f)
    obtain ⟨aligned, _, _⟩ := assertRange_ok (covered.passes vma area)
    refine ⟨vma, area, ?_, ?_⟩
    · rw [← Nat.div_mul_cancel (Nat.dvd_of_mod_eq_zero aligned)]
      exact (Nat.mul_le_mul_right pgSize low).trans (Nat.div_mul_le_self addr pgSize)
    · by_contra beyond
      exact absurd (Nat.div_le_div_right (not_lt.mp beyond)) (not_le.mpr high)
  · intro p member b uses addr f reaches
    obtain ⟨_, _, notTable, _, apart⟩ := fits.housed.counted.mapped f (mapped p member b uses addr f reaches)
    refine ⟨?_, fun q member' => ⟨fun c uses' table => notTable (IsTable.single (fits.root member' uses') table), fun away inside => ?_⟩⟩
    · rintro rfl
      exact apart fits.boot
    · exact apart ((fits.stack q member' away).1 inside)

/-- In every reachable state the memory of the processes is separate. -/
theorem memory_separate (reached : s.Reachable) : s.Separate := reached.sound.separate

theorem memory_separate_family : ∃ s : Spaces, s.vm.mm 1 = some 2 ∧ s.Separate := by
  obtain ⟨_, _, s₃, _, _, family⟩ := family
  exact ⟨s₃, family.uses, memory_separate family.child⟩

theorem intact_load (intact : Vm.Intact p vm vm') (user : addr < userTop) :
    vm'.mem.walk (vm'.pgdir p) addr = vm.mem.walk (vm.pgdir p) addr ∧ vm'.load p addr = vm.load p addr := by
  obtain ⟨leaf, words⟩ := intact.spared (vm.pgdir p) (Finset.mem_singleton_self _) _ (page_of_user user)
  have walked : vm'.mem.walk (vm'.pgdir p) addr = vm.mem.walk (vm.pgdir p) addr := by
    rw [walk_user user, walk_user user, intact.pgdir, leaf]
  refine ⟨walked, ?_⟩
  rw [Vm.load, Vm.load, walked]
  cases found : vm.mem.walk (vm.pgdir p) addr with
  | none => rfl
  | some pte =>
    have same := words _ (walk_target user found)
    rw [Option.map_some, Option.map_some, Mem.byte, Mem.byte, same]

/-- In a run in which the current process never uses the address space at `b`, nothing happens to its users and their memory. -/
theorem memory_isolated (reached : s.Reachable) (run : Relation.ReflTransGen (Aside b) s s') (member : p ∈ s.procs) (uses : s.vm.mm p = some b) :
    p ∈ s'.procs ∧ s'.vm.mm p = some b ∧ (s'.vm.mms b).mmapList = (s.vm.mms b).mmapList ∧
      ∀ addr < userTop, s'.vm.mem.walk (s'.vm.pgdir p) addr = s.vm.mem.walk (s.vm.pgdir p) addr ∧ s'.vm.load p addr = s.vm.load p addr := by
  have kept : s'.Sound ∧ p ∈ s'.procs ∧ Vm.Intact p s.vm s'.vm := by
    induction run with
    | refl => exact ⟨reached.sound, member, .refl⟩
    | tail _ step ih =>
      obtain ⟨sound, there, intact⟩ := ih
      obtain ⟨other, action, enabled, done⟩ := step
      obtain ⟨sound', unseen⟩ := sound.step enabled done
      obtain ⟨still, same⟩ := unseen p there b (intact.mm.trans uses) other
      exact ⟨sound', still, intact.trans same⟩
  obtain ⟨_, there, intact⟩ := kept
  exact ⟨there, intact.mm.trans uses, intact.areas b uses, fun addr user => intact_load intact user⟩

theorem memory_isolated_family : ∃ s s' : Spaces, Aside 2 s s' ∧ s.vm.mm 1 = some 2 ∧ ∀ addr < userTop, s'.vm.load 1 addr = s.vm.load 1 addr := by
  obtain ⟨_, _, s₃, s₄, _, family⟩ := family
  obtain ⟨_, _, _, same⟩ := memory_isolated family.child (.single family.stores) family.there family.uses
  exact ⟨s₃, s₄, family.stores, family.uses, fun addr user => (same addr user).2⟩

private theorem mirrors_load {child : Ptr} (mirrors : Mirrors (vm.pgdir p) (vm'.pgdir child) vm.mem vm'.mem) (user : addr < userTop) :
    vm'.load child addr = vm.load p addr ∧
      (vm'.mem.walk (vm'.pgdir child) addr).map (· &&& pteUser) = (vm.mem.walk (vm.pgdir p) addr).map (· &&& pteUser) := by
  obtain ⟨skipped, copied⟩ := mirrors _ (page_of_user user)
  rw [Vm.load, Vm.load, walk_user user, walk_user user]
  by_cases isValid : valid (vm.mem.leaf (vm.pgdir p) (addr / pgSize)) = true
  · obtain ⟨page, there, copy, perm⟩ := copied _ (target_some isValid)
    obtain ⟨isValid', frame⟩ := entry_valid there
    rw [if_pos isValid, if_pos isValid', Option.map_some, Option.map_some, Option.map_some, Option.map_some, frame, perm, Mem.byte, Mem.byte, copy]
    exact ⟨rfl, rfl⟩
  · have here : vm.mem.target (vm.pgdir p, addr / pgSize) = none := by
      rw [Mem.target, entry, if_neg isValid]
    have invalid := entry_invalid (skipped here)
    rw [if_neg isValid, if_neg invalid]
    exact ⟨rfl, rfl⟩

/-- A fork that returns a child gives it the address space of the parent, or a copy that nobody else uses, and returns 0 to it. -/
theorem fork_inherits {flags : BitVec 32} {stack : BitVec 64} {tf : TrapFrame} {child : Ptr} (reached : s.Reachable)
    (forked : s.doFork flags stack tf = .ok (.ok child, s')) : child ∉ s.procs ∧ s'.procs = child :: s.procs ∧ (s'.vm.tf child).gpr gprA0 = 0 ∧
      (s.vm.mm s.vm.current = none → s'.vm.mm child = none) ∧ ∀ b, s.vm.mm s.vm.current = some b →
        (flags &&& cloneVm ≠ 0 → s'.vm.mm child = some b) ∧
        (flags &&& cloneVm = 0 → ∃ c, s'.vm.mm child = some c ∧ (∀ p ∈ s.procs, s.vm.mm p ≠ some c) ∧
          (s'.vm.mms c).mmapList.map Vma.range = (s.vm.mms b).mmapList.map Vma.range) ∧
        ∀ addr < userTop, s'.vm.load child addr = s.vm.load s.vm.current addr ∧
          (s'.vm.mem.walk (s'.vm.pgdir child) addr).map (· &&& pteUser) = (s.vm.mem.walk (s.vm.pgdir s.vm.current) addr).map (· &&& pteUser) := by
  obtain ⟨_, _, _, born⟩ := reached.sound.fork forked
  have birth := born child rfl
  refine ⟨birth.strange, birth.procs, birth.answer, birth.thread, fun b uses => ⟨birth.shared b uses, birth.copied b uses, fun addr user => ?_⟩⟩
  exact mirrors_load (birth.pages b uses) user

theorem fork_inherits_family : ∃ s s' : Spaces, s.vm.mm s.vm.current = some 2 ∧ (∃ c, s'.vm.mm 5 = some c ∧ c ≠ 2) ∧
    ∀ addr < userTop, s'.vm.load 5 addr = s.vm.load s.vm.current addr := by
  obtain ⟨s₁, s₂, _, _, _, family⟩ := family
  obtain ⟨_, _, _, _, space⟩ := fork_inherits family.parent family.forks
  obtain ⟨_, copied, pages⟩ := space 2 family.mine
  obtain ⟨c, uses, new, _⟩ := copied (by decide)
  refine ⟨s₁, s₂, family.mine, ⟨c, uses, ?_⟩, fun addr user => (pages addr user).1⟩
  rintro rfl
  exact new _ family.parent.sound.runs family.mine

/-- `do_exit` always returns. The last user of an address space gives back its page directory, its pages and its blocks of the heap, and any other
one only counts down. -/
theorem exit_releases (reached : s.Reachable) (active : s.exited s.vm.current = false) (notIdle : s.vm.current ≠ s.idleproc)
    (notInit : some s.vm.current ≠ s.initproc) : ∃ s', s.doExit = .ok s' ∧ s'.exited s.vm.current = true ∧ s'.vm.mm s.vm.current = none ∧
      s'.vm.satp = s.vm.bootPgdir ∧ ∀ b, s.vm.mm s.vm.current = some b →
        (users s.procs s.vm.mm b = 1 → s.vm.pgdir s.vm.current ∉ s'.vm.mem.used ∧
          (∀ addr f, s.vm.Reaches s.vm.current addr f → f ∉ s'.vm.mem.used) ∧ s.vm.mem.blocks.Perm ((s.vm.mms b).heap b ++ s'.vm.mem.blocks)) ∧
        (users s.procs s.vm.mm b ≠ 1 → s'.vm.mem = s.vm.mem ∧ (s'.vm.mms b).mmCount = (s.vm.mms b).mmCount - 1) := by
  obtain ⟨l, vm, _, vacated, satp, exits, _⟩ := reached.sound.exit active notIdle notInit
  refine ⟨_, exits, Function.update_self .., vacated.gone, satp.trans vacated.elsewhere.boot, fun b uses => ⟨fun single => ?_, vacated.others b uses⟩⟩
  obtain ⟨root, pages, blocks⟩ := vacated.last b uses single
  refine ⟨root, fun addr f reaches => ?_, blocks⟩
  obtain ⟨inside, here⟩ := reaches_target reaches
  exact pages _ inside f here

theorem exit_releases_family : ∃ s s' : Spaces, s.doExit = .ok s' ∧ s.vm.mm s.vm.current = some 6 ∧ s.vm.pgdir s.vm.current ∉ s'.vm.mem.used := by
  obtain ⟨_, _, _, s₄, _, family⟩ := family
  obtain ⟨s', exits, _, _, _, frees⟩ := exit_releases family.stored family.active (by rw [family.runs, family.idle]; decide)
    (by rw [family.runs, family.init]; decide)
  exact ⟨s₄, s', exits, family.own, ((frees 6 family.own).1 family.alone).1⟩

/-- `do_wait` with `NULL` always reaps a child that has exited: its kernel stack and its `proc_struct` are given back, and no word is changed. -/
theorem wait_reaps {child : Ptr} (reached : s.Reachable) (member : child ∈ s.procs) (ended : s.exited child = true) (notIdle : child ≠ s.idleproc)
    (notInit : some child ≠ s.initproc) (code : BitVec 32) : ∃ s', s.doWait child 0 code = .ok s' ∧ s'.procs = s.procs.erase child ∧ child ∉ s'.procs ∧
      (∀ f ∈ s.vm.stack child, f ∉ s'.vm.mem.used) ∧ s.vm.mem.blocks.Perm (child :: s'.vm.mem.blocks) ∧
      ∀ p ∈ s'.procs, ∀ b, s.vm.mm p = some b → Vm.Intact p s.vm s'.vm := by
  obtain ⟨l, fits⟩ := reached.sound.holdings
  obtain ⟨m₁, m', more, put, freed, fits', spares, free, blocks⟩ := fits.reap member notIdle (reached.sound.bare child member ended)
  have done : s.doWait child 0 code = .ok { s with vm := { s.vm with mem := m' }, procs := s.procs.erase child, nrProcess := s.nrProcess - 1 } := by
    rw [doWait, if_neg (not_not.mpr rfl), ok_bind]
    dsimp only
    rw [Bool.not_true, if_neg Bool.false_ne_true, if_neg (not_or.mpr ⟨notIdle, notInit⟩), if_neg (not_not.mpr rfl), ok_bind, put, ok_bind, freed, ok_bind]
  refine ⟨_, done, rfl, fits.distinct.not_mem_erase, free, blocks, fun p there b uses => ⟨rfl, rfl, fun _ _ => rfl, ?_⟩⟩
  exact spares.spared.mono (Finset.singleton_subset_iff.mpr (fits.root (List.mem_of_mem_erase there) uses))

theorem wait_reaps_family : ∃ s s' : Spaces, s.doWait 5 0 0 = .ok s' ∧ 5 ∈ s.procs ∧ 5 ∉ s'.procs := by
  obtain ⟨_, _, _, _, s₅, family⟩ := family
  obtain ⟨s', waited, _, absent, _⟩ := wait_reaps family.gone family.left family.ended family.notIdle family.notInit 0
  exact ⟨s₅, s', waited, family.left, absent⟩

end Spaces

end Ucore
