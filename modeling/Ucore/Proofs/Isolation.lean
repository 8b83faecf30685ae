import Mathlib
import Ucore.Proofs.Turnover

/-! Every action of a process keeps the account of what the memory holds, and is not seen by the processes that use another address space. -/

namespace Ucore
open Lib

/-- What holds between two actions. A process that has exited has no address space, and a kernel thread runs in that of the kernel. -/
structure Spaces.Sound (s : Spaces) : Prop where
  holdings : ∃ l : Holdings, l.Fits s.procs s.idleproc s.vm
  runs : s.vm.current ∈ s.procs
  idle : s.idleproc ∈ s.procs
  bare : ∀ p ∈ s.procs, s.exited p = true → s.vm.mm p = none
  boot : ∀ p ∈ s.procs, s.exited p = false → s.vm.mm p = none → s.vm.pgdir p = s.vm.bootPgdir
  user : s.exited s.vm.current = false → s.vm.satp = s.vm.pgdir s.vm.current
  kernel : s.exited s.vm.current = true → s.vm.satp = s.vm.bootPgdir

/-- The processes that use another address space than the current one are still there, and their memory is the same. -/
def Spaces.Unseen (s s' : Spaces) : Prop :=
  ∀ p ∈ s.procs, ∀ b, s.vm.mm p = some b → s.vm.mm s.vm.current ≠ some b → p ∈ s'.procs ∧ Vm.Intact p s.vm s'.vm

/-- The memory of the other processes is the same. -/
structure Spaces.Beside (s s' : Spaces) : Prop where
  procs : s'.procs = s.procs
  mm : ∀ p ∈ s.procs, p ≠ s.vm.current → s'.vm.mm p = s.vm.mm p
  intact : ∀ p ∈ s.procs, p ≠ s.vm.current → ∀ b, s.vm.mm p = some b → Vm.Intact p s.vm s'.vm

/-- What the current process has after `do_execve`: its old address space, none, or that of the program. -/
inductive Spaces.Executed (s : Spaces) (order : HeaderOrder) (image : Image) (size : Nat) (s' : Spaces) : Prop where
  | refused (stays : Vm.Stays s.vm.current s.vm s'.vm)
  | failed (gone : s'.vm.mm s.vm.current = none)
  | loaded {vm vm' : Vm} {name : List (BitVec 8)} (started : vm.Started) (current : vm'.current = s.vm.current) (alone : vm.mm vm.current = none)
      (done : vm.loadIcode order image size = .ok (0, vm')) (named : s'.vm = vm'.setProcName vm'.current name)

/-- The child has the address space of its parent, or a copy of it that nobody else uses. In both cases it finds the same there. -/
structure Spaces.Born (s : Spaces) (flags : BitVec 32) (child : Ptr) (s' : Spaces) : Prop where
  strange : child ∉ s.procs
  procs : s'.procs = child :: s.procs
  answer : (s'.vm.tf child).gpr gprA0 = 0
  thread : s.vm.mm s.vm.current = none → s'.vm.mm child = none
  shared : ∀ b, s.vm.mm s.vm.current = some b → flags &&& cloneVm ≠ 0 → s'.vm.mm child = some b
  copied : ∀ b, s.vm.mm s.vm.current = some b → flags &&& cloneVm = 0 → ∃ c, s'.vm.mm child = some c ∧ (∀ p ∈ s.procs, s.vm.mm p ≠ some c) ∧
    (s'.vm.mms c).mmapList.map Vma.range = (s.vm.mms b).mmapList.map Vma.range
  pages : ∀ b, s.vm.mm s.vm.current = some b → Mirrors (s.vm.pgdir s.vm.current) (s'.vm.pgdir child) s.vm.mem s'.vm.mem

variable {s s' : Spaces} {l : Holdings} {vm vm' : Vm} {p child : Ptr} {b : Block} {image : Image} {order : HeaderOrder}

private theorem userMemCheck_range {addr len : Nat} {write : Bool} (small : len < 2 ^ 32) (uses : vm.mm vm.current ≠ none)
    (checked : vm.userMemCheck addr len write = .ok (true, vm')) : addr + len ≤ userTop := by
  unfold Vm.userMemCheck at checked
  split at checked
  next none => exact absurd none uses
  next block _ =>
    obtain ⟨⟨granted, mm⟩, looped, found⟩ := bind_ok checked
    obtain ⟨rfl, _⟩ := Prod.mk.inj (Except.ok.inj found)
    unfold MmStruct.userMemCheck at looped
    split at looped
    next access =>
      obtain ⟨_, before, below⟩ := access
      have top : userTop = 2 ^ 31 := rfl
      have whole : wrap (addr + len) = addr + len := Nat.mod_eq_of_lt (by omega)
      rw [← whole]
      exact below
    next => cases (Prod.mk.inj (Except.ok.inj looped)).1

namespace Spaces

section Sound

variable (sound : s.Sound)
include sound

/-- The fields of the processes are as before. -/
theorem Sound.keep (fits : l.Fits s.procs s.idleproc vm) (current : vm.current = s.vm.current) (boot : vm.bootPgdir = s.vm.bootPgdir)
    (mm : ∀ p ∈ s.procs, vm.mm p = s.vm.mm p) (pgdir : ∀ p ∈ s.procs, vm.pgdir p = s.vm.pgdir p) (satp : vm.satp = s.vm.satp) :
    Sound { s with vm := vm } where
  holdings := ⟨l, fits⟩
  runs := by
    rw [current]
    exact sound.runs
  idle := sound.idle
  bare p member gone := (mm p member).trans (sound.bare p member gone)
  boot p member here none := by
    rw [mm p member] at none
    rw [pgdir p member, boot]
    exact sound.boot p member here none
  user := by
    rw [satp, current, pgdir _ sound.runs]
    exact sound.user
  kernel := by
    rw [satp, current, boot]
    exact sound.kernel

theorem Sound.vacate {spaces : List Block} (fits : l.Fits s.procs s.idleproc vm) (elsewhere : Vm.Elsewhere spaces s.vm.current s.vm vm)
    (gone : vm.mm s.vm.current = none) (satp : vm.satp = vm.bootPgdir) :
    Sound { s with vm := vm, exited := Function.update s.exited s.vm.current true } where
  holdings := ⟨l, fits⟩
  runs := by
    rw [elsewhere.current]
    exact sound.runs
  idle := sound.idle
  bare p member exited := by
    by_cases own : p = s.vm.current
    · rw [own]
      exact gone
    · have exited : Function.update s.exited s.vm.current true p = true := exited
      rw [Function.update_of_ne own] at exited
      exact (elsewhere.mm p own).trans (sound.bare p member exited)
  boot p member here none := by
    have here : Function.update s.exited s.vm.current true p = false := here
    by_cases own : p = s.vm.current
    · rw [own, Function.update_self] at here
      cases here
    · rw [Function.update_of_ne own] at here
      have none : s.vm.mm p = .none := (elsewhere.mm p own).symm.trans none
      exact (elsewhere.pgdir p own).trans ((sound.boot p member here none).trans elsewhere.boot.symm)
  user active := by
    have active : Function.update s.exited s.vm.current true vm.current = false := active
    rw [elsewhere.current, Function.update_self] at active
    cases active
  kernel _ := satp

/-- A process comes that has not been there. -/
theorem Sound.birth {spaces : List Block} {count : Int} (strange : child ∉ s.procs) (fits : l.Fits (child :: s.procs) s.idleproc vm)
    (elsewhere : Vm.Elsewhere spaces child s.vm vm) (satp : vm.satp = s.vm.satp) (boot : vm.mm child = none → vm.pgdir child = vm.bootPgdir) :
    Sound { s with vm := vm, procs := child :: s.procs, exited := Function.update s.exited child false, nrProcess := count } := by
  have apart : ∀ p ∈ s.procs, p ≠ child := by
    rintro p member rfl
    exact strange member
  have others : ∀ p ∈ s.procs, Function.update s.exited child false p = s.exited p := fun p member => Function.update_of_ne (apart p member) _ _
  have runs : Function.update s.exited child false vm.current = s.exited s.vm.current := by
    rw [elsewhere.current]
    exact others _ sound.runs
  refine ⟨⟨l, fits⟩, ?_, List.mem_cons_of_mem _ sound.idle, ?_, ?_, ?_, ?_⟩
  · rw [elsewhere.current]
    exact List.mem_cons_of_mem _ sound.runs
  · intro p member exited
    have exited : Function.update s.exited child false p = true := exited
    rcases List.mem_cons.mp member with rfl | old
    · rw [Function.update_self] at exited
      cases exited
    · rw [others p old] at exited
      exact (elsewhere.mm p (apart p old)).trans (sound.bare p old exited)
  · intro p member here gone
    have here : Function.update s.exited child false p = false := here
    rcases List.mem_cons.mp member with rfl | old
    · exact boot gone
    · rw [others p old] at here
      have gone : s.vm.mm p = none := (elsewhere.mm p (apart p old)).symm.trans gone
      exact (elsewhere.pgdir p (apart p old)).trans ((sound.boot p old here gone).trans elsewhere.boot.symm)
  · intro active
    have active : Function.update s.exited child false vm.current = false := active
    rw [runs] at active
    rw [satp, elsewhere.current, elsewhere.pgdir _ (apart _ sound.runs)]
    exact sound.user active
  · intro ended
    have ended : Function.update s.exited child false vm.current = true := ended
    rw [runs] at ended
    rw [satp, elsewhere.boot]
    exact sound.kernel ended

theorem Sound.away (active : s.exited s.vm.current = false) (fits : l.Fits s.procs s.idleproc s.vm) (member : p ∈ s.procs)
    (uses : s.vm.mm p = some b) (other : s.vm.mm s.vm.current ≠ some b) : p ≠ s.vm.current ∧ s.vm.pgdir p ≠ s.vm.pgdir s.vm.current := by
  refine ⟨?_, ?_⟩
  · rintro rfl
    exact other uses
  · cases mine : s.vm.mm s.vm.current with
    | none =>
      rw [sound.boot _ sound.runs active mine]
      intro same
      exact (fits.housed.counted.other _ fits.boot).2 (same ▸ ⟨.root (s.vm.pgdir p), trivial, fits.root member uses, rfl⟩)
    | some b' =>
      refine fits.apart member uses sound.runs mine ?_
      rintro rfl
      exact other mine

/-- The child after `copy_mm` and `copy_thread`. -/
theorem Sound.born {more : Set Frame} {vm₁ vm₂ : Vm} {flags : BitVec 32} {stack : BitVec 64} {tf : TrapFrame} {count : Int} {exited : Ptr → Bool}
    (fits : l.Fits s.procs s.idleproc s.vm) (fits₁ : Holdings.Fits ⟨l.spaces, l.roots, more, l.rest⟩ (child :: s.procs) s.idleproc vm₁)
    (strange : child ∉ s.procs) (elsewhere : Vm.Elsewhere l.spaces child s.vm vm₁) (spares : Spares l.roots l.other s.vm.mem vm₁.mem)
    (inherits : Inherits ⟨l.spaces, l.roots, more, l.rest⟩ flags child vm₁ vm₂) :
    s.Born flags child { s with vm := vm₂.copyThread child stack tf, procs := child :: s.procs, exited := exited, nrProcess := count } := by
  have apart : s.vm.current ≠ child := by
    rintro same
    exact strange (same ▸ sound.runs)
  have current := elsewhere.current
  have mm : vm₁.mm vm₁.current = s.vm.mm s.vm.current := by
    rw [current]
    exact elsewhere.mm _ apart
  have root : ∀ b, s.vm.mm s.vm.current = some b → b ∈ l.spaces ∧ (vm₁.mms b).pgdir = some (s.vm.pgdir s.vm.current) := by
    intro b uses
    obtain ⟨inside, place⟩ := fits₁.mine vm₁.current (by rw [current]; exact List.mem_cons_of_mem _ sound.runs) b (mm.trans uses)
    rw [current, elsewhere.pgdir _ apart] at place
    exact ⟨inside, place⟩
  refine ⟨strange, rfl, ?_, fun none => inherits.thread (mm.trans none), ?_, ?_, ?_⟩
  · dsimp only [Vm.copyThread]
    have other : gprA0 ≠ gprSp := by decide
    rw [Function.update_self]
    dsimp only
    rw [Function.update_of_ne other, Function.update_self]
  · exact fun b uses share => (inherits.shared b (mm.trans uses) share).1
  · intro b uses copy
    obtain ⟨c, uses', new, ranges⟩ := (inherits.copied b (mm.trans uses) copy).uses
    refine ⟨c, uses', fun p member already => new (fits.mine p member c already).1, ranges.trans ?_⟩
    rw [elsewhere.areas b (root b uses).1]
  · intro b uses
    obtain ⟨_, place⟩ := root b uses
    have before := fits.root sound.runs uses
    by_cases copy : flags &&& cloneVm = 0
    · exact ((inherits.copied b (mm.trans uses) copy).pages _ place).behind spares before
    · obtain ⟨_, place', same⟩ := inherits.shared b (mm.trans uses) copy
      have own : s.vm.pgdir s.vm.current = vm₂.pgdir child := Option.some.inj (place.symm.trans place')
      have itself : Mirrors (s.vm.pgdir s.vm.current) (vm₂.pgdir child) vm₁.mem vm₂.mem := by
        rw [same, ← own]
        exact fun v inside => ⟨id, fun f here => ⟨f, here, rfl, rfl⟩⟩
      exact itself.behind spares before

theorem Sound.fork {flags : BitVec 32} {stack : BitVec 64} {tf : TrapFrame} {answer : Except Int Ptr}
    (forked : s.doFork flags stack tf = .ok (answer, s')) :
    s'.Sound ∧ (∀ p ∈ s.procs, p ∈ s'.procs ∧ s'.vm.mm p = s.vm.mm p ∧ ∀ b, s.vm.mm p = some b → Vm.Intact p s.vm s'.vm) ∧
      (∀ p ∈ s'.procs, p ∈ s.procs ∨ answer = .ok p) ∧ ∀ child, answer = .ok child → s.Born flags child s' := by
  obtain ⟨l, fits⟩ := sound.holdings
  -- What is left of a fork that failed.
  have still : ∀ {l' : Holdings} {vm : Vm} {proc : Ptr}, l'.Fits s.procs s.idleproc vm → proc ∉ s.procs → Vm.Elsewhere l.spaces proc s.vm vm →
      vm.satp = s.vm.satp → (∀ p ∈ s.procs, ∀ b, s.vm.mm p = some b → Vm.Intact p s.vm vm) →
      ∀ code : Int, Sound { s with vm := vm } ∧
        (∀ p ∈ s.procs, p ∈ s.procs ∧ vm.mm p = s.vm.mm p ∧ ∀ b, s.vm.mm p = some b → Vm.Intact p s.vm vm) ∧
        (∀ p ∈ s.procs, p ∈ s.procs ∨ (.error code : Except Int Ptr) = .ok p) ∧
        ∀ child, (.error code : Except Int Ptr) = .ok child → s.Born flags child { s with vm := vm } := by
    intro l' vm proc fits' strange elsewhere satp seen code
    have apart : ∀ p ∈ s.procs, p ≠ proc := by
      rintro p member rfl
      exact strange member
    exact ⟨sound.keep fits' elsewhere.current elsewhere.boot (fun p member => elsewhere.mm p (apart p member))
      (fun p member => elsewhere.pgdir p (apart p member)) satp, fun p member => ⟨member, elsewhere.mm p (apart p member), seen p member⟩,
      fun p member => .inl member, fun child impossible => by cases impossible⟩
  unfold doFork at forked
  split at forked
  · obtain ⟨rfl, rfl⟩ := Prod.mk.inj (Except.ok.inj forked)
    exact ⟨sound, fun p member => ⟨member, rfl, fun _ _ => .refl⟩, fun p member => .inl member, fun child impossible => by cases impossible⟩
  cases created : s.vm.mem.kmalloc with
  | mk given mem =>
    rw [created] at forked
    cases given with
    | none =>
      obtain ⟨rfl, rfl⟩ := Prod.mk.inj (Except.ok.inj forked)
      obtain ⟨fits', spares⟩ := fits.uncreated created
      refine ⟨sound.keep fits' rfl rfl (fun _ _ => rfl) (fun _ _ => rfl) rfl, fun p member => ⟨member, rfl, fun b uses => ⟨rfl, rfl, fun _ _ => rfl, ?_⟩⟩,
        fun p member => .inl member, fun child impossible => by cases impossible⟩
      exact spares.spared.mono (Finset.singleton_subset_iff.mpr (fits.root member uses))
    | some proc =>
      cases stacked : (({ s.vm with mem := mem } : Vm).allocProc proc).setupKstack proc with
      | mk ret vm₁ =>
        obtain ⟨strange, elsewhere₁, satp₁, none₁, pgdir₁, spares₁, result⟩ := fits.enlist sound.idle created stacked
        have apart : ∀ p ∈ s.procs, p ≠ proc := by
          rintro p member rfl
          exact strange member
        have seen₁ : ∀ p ∈ s.procs, ∀ b, s.vm.mm p = some b → Vm.Intact p s.vm vm₁ := fun p member b uses =>
          fits.intact member (apart p member) (fits.root member uses) spares₁ elsewhere₁
        dsimp only at forked
        rw [stacked] at forked
        dsimp only at forked
        rcases result with ⟨rfl, more, fits₁, wider⟩ | ⟨rfl, vm₂, freed, fits₂, elsewhere₂, satp₂, spares₂⟩
        · rw [if_neg fun impossible => impossible rfl] at forked
          obtain ⟨⟨ret, vm₂⟩, copied, rest⟩ := bind_ok forked
          have child := List.mem_cons_self (a := proc) (l := s.procs)
          have runs : vm₁.current ∈ proc :: s.procs := by
            rw [elsewhere₁.current]
            exact List.mem_cons_of_mem _ sound.runs
          obtain ⟨equipped, satp₂, inherits⟩ := fits₁.copyMm child none₁ runs copied
          obtain ⟨l₂, fits₂⟩ := equipped.fits
          have elsewhere := elsewhere₁.trans equipped.elsewhere
          have seen₂ : ∀ p ∈ s.procs, ∀ b, s.vm.mm p = some b → Vm.Intact p s.vm vm₂ := by
            intro p member b uses
            have first := seen₁ p member b uses
            have old := List.mem_cons_of_mem proc member
            exact first.trans (fits₁.intact old (apart p member) (fits₁.root old (first.mm.trans uses)) equipped.spares equipped.elsewhere)
          dsimp only at rest
          by_cases worked : ret = 0
          · rw [if_neg (not_not.mpr worked)] at rest
            obtain ⟨rfl, rfl⟩ := Prod.mk.inj (Except.ok.inj rest)
            refine ⟨sound.birth strange (fits₂.alike rfl rfl (fun _ _ => rfl) (fun _ _ => rfl) (fun _ _ => rfl) fun _ _ => .refl)
              (elsewhere.trans ⟨rfl, rfl, fun _ _ => rfl, fun _ _ => rfl, fun _ _ => rfl⟩) (satp₂.trans satp₁) fun gone => ?_, ?_, ?_, ?_⟩
            · exact (equipped.bare gone).trans (pgdir₁.trans elsewhere.boot.symm)
            · exact fun p member => ⟨List.mem_cons_of_mem _ member, elsewhere.mm p (apart p member),
                fun b uses => (seen₂ p member b uses).trans ⟨rfl, rfl, fun _ _ => rfl, .refl⟩⟩
            · intro p member
              rcases List.mem_cons.mp member with rfl | old
              · exact .inr rfl
              · exact .inl old
            · intro child same
              obtain rfl := Except.ok.inj same
              exact sound.born fits fits₁ strange elsewhere₁ spares₁ (inherits worked)
          · rw [if_pos worked] at rest
            have away : proc ≠ s.idleproc := by
              rintro rfl
              exact strange sound.idle
            obtain ⟨m₃, m₄, more', put, freed, fits₃, spares₃, _⟩ := fits₂.reap child away (equipped.failed worked)
            rw [put, ok_bind, freed, ok_bind] at rest
            obtain ⟨rfl, rfl⟩ := Prod.mk.inj (Except.ok.inj rest)
            rw [List.erase_cons_head] at fits₃
            refine still fits₃ strange (elsewhere.trans ⟨rfl, rfl, fun _ _ => rfl, fun _ _ => rfl, fun _ _ => rfl⟩) (satp₂.trans satp₁) (fun p member b uses => ?_) ret
            have second := seen₂ p member b uses
            have old := List.mem_cons_of_mem proc member
            exact second.trans (fits₂.intact old (apart p member) (fits₂.root old (second.mm.trans uses)) spares₃
              ⟨rfl, rfl, fun _ _ => rfl, fun _ _ => rfl, fun _ _ => rfl⟩)
        · rw [if_pos (by decide), freed, ok_bind] at forked
          obtain ⟨rfl, rfl⟩ := Prod.mk.inj (Except.ok.inj forked)
          exact still fits₂ strange elsewhere₂ satp₂ (fun p member b uses =>
            fits.intact member (apart p member) (fits.root member uses) spares₂ elsewhere₂) _

theorem Sound.left (active : s.exited s.vm.current = false) (fits : l.Fits s.procs s.idleproc s.vm) (vacated : Vacated l s.procs s.idleproc s.vm vm) :
    vm.satp = vm.bootPgdir ∧ ∀ p ∈ s.procs, p ≠ s.vm.current → ∀ b, s.vm.mm p = some b → Vm.Intact p s.vm vm := by
  constructor
  · rw [vacated.satp, vacated.elsewhere.boot]
    split
    · rfl
    next none =>
      rw [sound.user active]
      exact sound.boot _ sound.runs active (Option.not_isSome_iff_eq_none.mp none)
  · intro p member apart b uses
    by_cases mine : s.vm.mm s.vm.current = some b
    · -- Another user is left, so nothing is given back.
      have several : users s.procs s.vm.mm b ≠ 1 := users_two member sound.runs apart uses mine
      refine ⟨vacated.elsewhere.mm p apart, vacated.elsewhere.pgdir p apart, fun b' uses' => ?_, ?_⟩
      · exact vacated.elsewhere.areas b' (fits.mine p member b' uses').1
      · rw [(vacated.others b mine several).1]
        exact .refl
    · obtain ⟨_, away⟩ := sound.away active fits member uses mine
      exact fits.intact member apart (Finset.mem_erase.mpr ⟨away, fits.root member uses⟩) vacated.spares vacated.elsewhere

/-- `do_exit` returns unless the process may not exit. -/
theorem Sound.exit (active : s.exited s.vm.current = false) (notIdle : s.vm.current ≠ s.idleproc) (notInit : some s.vm.current ≠ s.initproc) :
    ∃ l vm, l.Fits s.procs s.idleproc s.vm ∧ Vacated l s.procs s.idleproc s.vm vm ∧ vm.satp = vm.bootPgdir ∧
      s.doExit = .ok { s with vm := vm, exited := Function.update s.exited s.vm.current true } ∧
      Sound { s with vm := vm, exited := Function.update s.exited s.vm.current true } ∧
      s.Beside { s with vm := vm, exited := Function.update s.exited s.vm.current true } := by
  obtain ⟨l, fits⟩ := sound.holdings
  obtain ⟨vm, dropped, vacated⟩ := fits.dropMm sound.runs
  obtain ⟨l', fits'⟩ := vacated.fits
  obtain ⟨satp, seen⟩ := sound.left active fits vacated
  refine ⟨l, vm, fits, vacated, satp, ?_, sound.vacate fits' vacated.elsewhere vacated.gone satp,
    rfl, fun p _ apart => vacated.elsewhere.mm p apart, seen⟩
  rw [doExit, if_neg notIdle, if_neg notInit, dropped, ok_bind]

/-- The current process runs a program. -/
theorem Sound.settle {spaces : List Block} (active : s.exited s.vm.current = false) (fits : l.Fits s.procs s.idleproc vm)
    (elsewhere : Vm.Elsewhere spaces s.vm.current s.vm vm) (uses : (vm.mm s.vm.current).isSome) (satp : vm.satp = vm.pgdir s.vm.current) :
    Sound { s with vm := vm } where
  holdings := ⟨l, fits⟩
  runs := by
    rw [elsewhere.current]
    exact sound.runs
  idle := sound.idle
  bare p member ended := by
    refine (elsewhere.mm p ?_).trans (sound.bare p member ended)
    rintro rfl
    cases active.symm.trans ended
  boot p member here gone := by
    have apart : p ≠ s.vm.current := by
      rintro rfl
      rw [gone] at uses
      cases uses
    have gone : s.vm.mm p = none := (elsewhere.mm p apart).symm.trans gone
    exact (elsewhere.pgdir p apart).trans ((sound.boot p member here gone).trans elsewhere.boot.symm)
  user _ := by
    rw [elsewhere.current]
    exact satp
  kernel ended := by
    rw [elsewhere.current] at ended
    cases active.symm.trans ended

theorem Sound.exec {name len size : Nat} (active : s.exited s.vm.current = false) (orderly : image.Orderly)
    (ran : s.doExecve order name len image size = .ok s') : s'.Sound ∧ s.Beside s' ∧ s.Executed order image size s' := by
  obtain ⟨l, fits⟩ := sound.holdings
  obtain ⟨⟨answer, vm₁⟩, checked, rest⟩ := bind_ok ran
  have fits₁ := fits.check checked
  obtain ⟨mms, rfl, same⟩ := userMemCheck_same checked
  have sound₁ : Sound { s with vm := { s.vm with mms := mms } } := sound.keep fits₁ rfl rfl (fun _ _ => rfl) (fun _ _ => rfl) rfl
  have seen₁ : ∀ p, Vm.Intact p s.vm { s.vm with mms := mms } := fun p => ⟨rfl, rfl, fun b _ => (same b).list, .refl⟩
  dsimp only at rest
  split at rest
  · obtain rfl := Except.ok.inj rest
    exact ⟨sound₁, ⟨rfl, fun _ _ _ => rfl, fun p _ _ _ _ => seen₁ p⟩, .refused (.intact rfl fun _ _ => seen₁ _)⟩
  obtain ⟨⟨localName, vm₂⟩, quit, rest⟩ := bind_ok rest
  obtain ⟨_, _, quit⟩ := bind_ok quit
  obtain ⟨vm₂', dropped, quit⟩ := bind_ok quit
  obtain ⟨rfl, rfl⟩ := Prod.mk.inj (Except.ok.inj quit)
  obtain ⟨vm₂', dropped', vacated⟩ := fits₁.dropMm sound₁.runs
  obtain rfl := Except.ok.inj (dropped.symm.trans dropped')
  obtain ⟨satp₂, seen₂⟩ := sound₁.left active fits₁ vacated
  obtain ⟨l₂, fits₂⟩ := vacated.fits
  obtain ⟨⟨ret, vm₃⟩, loaded, rest⟩ := bind_ok rest
  have current₂ : vm₂'.current = s.vm.current := vacated.elsewhere.current
  have runs₂ : vm₂'.current ∈ s.procs := current₂ ▸ sound.runs
  have gone₂ : vm₂'.mm vm₂'.current = none := by
    rw [current₂]
    exact vacated.gone
  obtain ⟨equipped, worked, failed⟩ := fits₂.loadIcode runs₂ gone₂ satp₂ orderly loaded
  rw [current₂] at equipped worked
  obtain ⟨l₃, fits₃⟩ := equipped.fits
  have quits : Vm.Elsewhere [] s.vm.current s.vm vm₂' := ⟨current₂, vacated.elsewhere.boot, vacated.elsewhere.mm, vacated.elsewhere.pgdir, fun _ impossible => absurd impossible List.not_mem_nil⟩
  have elsewhere := quits.trans equipped.elsewhere.forget
  have seen₃ : ∀ p ∈ s.procs, p ≠ s.vm.current → ∀ b, s.vm.mm p = some b → Vm.Intact p s.vm vm₃ := by
    intro p member apart b uses
    have intact := seen₂ p member apart b uses
    exact ((seen₁ p).trans intact).trans
      (fits₂.intact member apart (fits₂.root member (intact.mm.trans uses)) equipped.spares equipped.elsewhere)
  dsimp only at rest
  split at rest
  next wrong =>
    unfold doExit at rest
    split at rest
    · cases rest
    split at rest
    · cases rest
    have gone : vm₃.mm vm₃.current = none := by
      rw [elsewhere.current]
      exact equipped.failed wrong
    have dropped : vm₃.dropMm = .ok vm₃ := by rw [Vm.dropMm, gone]
    have satp : vm₃.satp = vm₃.bootPgdir := by
      rw [failed wrong, satp₂]
      exact equipped.elsewhere.boot.symm
    dsimp only at rest
    rw [dropped, ok_bind, elsewhere.current] at rest
    obtain rfl := Except.ok.inj rest
    exact ⟨sound.vacate fits₃ elsewhere (equipped.failed wrong) satp,
      ⟨rfl, fun p _ apart => elsewhere.mm p apart, seen₃⟩, .failed (equipped.failed wrong)⟩
  next right =>
    obtain rfl := Except.ok.inj rest
    obtain ⟨uses, satp⟩ := worked (not_not.mp right)
    refine ⟨sound.settle active (fits₃.alike rfl rfl (fun _ _ => rfl) (fun _ _ => rfl) (fun _ _ => rfl) fun _ _ => .refl)
      (elsewhere.trans ⟨rfl, rfl, fun _ _ => rfl, fun _ _ => rfl, fun _ _ => rfl⟩) uses satp,
      ⟨rfl, fun p _ apart => elsewhere.mm p apart, fun p member apart b uses => (seen₃ p member apart b uses).trans ⟨rfl, rfl, fun _ _ => rfl, .refl⟩⟩,
      .loaded (fits₂.started satp₂) elsewhere.current gone₂ ?_ rfl⟩
    rw [loaded, not_not.mp right]

theorem Sound.bury {m : Mem} {count : Int} (fits : l.Fits (s.procs.erase child) s.idleproc { s.vm with mem := m }) (apart : child ≠ s.vm.current)
    (notIdle : child ≠ s.idleproc) : Sound { s with vm := { s.vm with mem := m }, procs := s.procs.erase child, nrProcess := count } where
  holdings := ⟨l, fits⟩
  runs := (List.mem_erase_of_ne apart.symm).mpr sound.runs
  idle := (List.mem_erase_of_ne notIdle.symm).mpr sound.idle
  bare p member := sound.bare p (List.mem_of_mem_erase member)
  boot p member := sound.boot p (List.mem_of_mem_erase member)
  user := sound.user
  kernel := sound.kernel

/-- `do_wait` for a child that has exited. -/
theorem Sound.wait {codeStore : Nat} {code : BitVec 32} (active : s.exited s.vm.current = false) (member : child ∈ s.procs)
    (ended : s.exited child = true) (thread : s.vm.mm s.vm.current = none → codeStore = 0) (waited : s.doWait child codeStore code = .ok s') :
    s'.Sound ∧ s.Unseen s' ∧ ∀ p ∈ s'.procs, p ∈ s.procs ∧ Vm.Stays p s.vm s'.vm := by
  obtain ⟨l, fits⟩ := sound.holdings
  obtain ⟨⟨answer, vm₁⟩, checked, rest⟩ := bind_ok waited
  -- What the check changes, and what it tells when the kernel will store the code.
  obtain ⟨mms, rfl, same, range⟩ : ∃ mms, vm₁ = { s.vm with mms := mms } ∧ (∀ b, SameSpace (s.vm.mms b) (mms b)) ∧
      (answer = true → codeStore ≠ 0 → codeStore + 4 ≤ userTop) := by
    split at checked
    next stores =>
      obtain ⟨mms, rfl, same⟩ := userMemCheck_same checked
      refine ⟨mms, rfl, same, ?_⟩
      rintro rfl _
      exact userMemCheck_range (by decide) (fun gone => stores (thread gone)) checked
    next none =>
      obtain ⟨_, rfl⟩ := Prod.mk.inj (Except.ok.inj checked)
      exact ⟨s.vm.mms, rfl, fun _ => .refl, fun _ stores => absurd stores none⟩
  have fits₁ : l.Fits s.procs s.idleproc { s.vm with mms := mms } :=
    fits.alike rfl rfl (fun _ _ => rfl) (fun _ _ => rfl) (fun _ _ => rfl) fun b _ => same b
  have sound₁ : Sound { s with vm := { s.vm with mms := mms } } := sound.keep fits₁ rfl rfl (fun _ _ => rfl) (fun _ _ => rfl) rfl
  have seen₁ : ∀ p, Vm.Intact p s.vm { s.vm with mms := mms } := fun p => ⟨rfl, rfl, fun b _ => (same b).list, .refl⟩
  dsimp only at rest
  split at rest
  · obtain rfl := Except.ok.inj rest
    exact ⟨sound₁, fun p member b uses _ => ⟨member, seen₁ p⟩, fun p member => ⟨member, .intact rfl fun _ _ => seen₁ p⟩⟩
  next granted =>
  split at rest
  · cases rest
  next special =>
  obtain ⟨notIdle, _⟩ := not_or.mp special
  obtain ⟨vm₂, stored, rest⟩ := bind_ok rest
  obtain ⟨m₂, rfl, fits₂, spares₂, mapping₂⟩ : ∃ m₂, vm₂ = { s.vm with mms := mms, mem := m₂ } ∧ l.Fits s.procs s.idleproc vm₂ ∧
      Spares (l.roots.erase (s.vm.pgdir s.vm.current)) l.other s.vm.mem m₂ ∧ Mapping l.roots s.vm.mem m₂ := by
    split at stored
    next stores =>
      cases uses : s.vm.mm s.vm.current with
      | none => exact absurd (thread uses) stores
      | some b =>
        exact fits₁.pokeNumber sound.runs (sound.user active) uses (range (by simpa using granted) stores) stored
    next none =>
      obtain rfl := Except.ok.inj stored
      exact ⟨s.vm.mem, rfl, fits₁, .refl, fun _ _ _ _ => rfl⟩
  have gone := sound.bare child member ended
  have apart : child ≠ s.vm.current := by
    rintro rfl
    cases active.symm.trans ended
  obtain ⟨m₃, m₄, more, put, freed, fits₄, spares₄, _⟩ := fits₂.reap member notIdle gone
  rw [put, ok_bind, freed, ok_bind] at rest
  obtain rfl := Except.ok.inj rest
  have sound₂ : Sound { s with vm := { s.vm with mms := mms, mem := m₂ } } := sound.keep fits₂ rfl rfl (fun _ _ => rfl) (fun _ _ => rfl) rfl
  refine ⟨sound₂.bury fits₄ apart notIdle, fun p old b uses other => ?_, fun p there => ⟨List.mem_of_mem_erase there, rfl, fun b uses =>
    ⟨rfl, (same b).list, fun v inside => ?_⟩⟩⟩
  swap
  · have root := fits.root (List.mem_of_mem_erase there) uses
    exact (spares₄.spared _ root v inside).1.trans (mapping₂ _ root v inside)
  have alive : p ≠ child := by
    rintro rfl
    rw [gone] at uses
    cases uses
  have whole : Vm.Elsewhere l.spaces s.vm.current s.vm { s.vm with mms := mms, mem := m₄ } :=
    ⟨rfl, rfl, fun _ _ => rfl, fun _ _ => rfl, fun b _ => (same b).list⟩
  obtain ⟨away, roots⟩ := sound.away active fits old uses other
  have spares : Spares (l.roots.erase (s.vm.pgdir s.vm.current)) l.other s.vm.mem m₄ :=
    spares₂.trans (spares₄.mono (Finset.erase_subset _ _) subset_rfl)
  exact ⟨(List.mem_erase_of_ne alive).mpr old, fits.intact old away (Finset.mem_erase.mpr ⟨roots, fits.root old uses⟩) spares whole⟩

theorem Sound.run {next : Ptr} (member : next ∈ s.procs) (alive : s.exited next = false) :
    Sound { s with vm := s.vm.procRun next } ∧ s.Unseen { s with vm := s.vm.procRun next } ∧
      ∀ p ∈ s.procs, p ∈ s.procs ∧ Vm.Stays p s.vm (s.vm.procRun next) := by
  obtain ⟨l, fits⟩ := sound.holdings
  unfold Vm.procRun
  split
  · refine ⟨⟨⟨l, fits.alike rfl rfl (fun _ _ => rfl) (fun _ _ => rfl) (fun _ _ => rfl) fun _ _ => .refl⟩, member, sound.idle, sound.bare, sound.boot,
      fun _ => rfl, fun ended => ?_⟩, fun p old b uses _ => ⟨old, rfl, rfl, fun _ _ => rfl, .refl⟩, fun p old => ⟨old, rfl, fun _ _ => ⟨rfl, rfl, fun _ _ => rfl⟩⟩⟩
    cases alive.symm.trans ended
  · exact ⟨sound, fun p old b uses _ => ⟨old, .refl⟩, fun p old => ⟨old, rfl, fun _ _ => ⟨rfl, rfl, fun _ _ => rfl⟩⟩⟩

theorem Sound.store {addr : Nat} {value : BitVec 8} (active : s.exited s.vm.current = false) (stored : s.vm.store addr value = .ok vm) :
    Sound { s with vm := vm } ∧ s.Unseen { s with vm := vm } ∧ ∀ p ∈ s.procs, p ∈ s.procs ∧ Vm.Stays p s.vm vm := by
  obtain ⟨l, fits⟩ := sound.holdings
  obtain ⟨m', rfl, fits', spares, mapping⟩ := fits.store sound.runs (sound.user active) (sound.boot _ sound.runs active) stored
  refine ⟨sound.keep fits' rfl rfl (fun _ _ => rfl) (fun _ _ => rfl) rfl, fun p member b uses other => ⟨member, ?_⟩,
    fun p member => ⟨member, rfl, fun b uses => ⟨rfl, rfl, mapping _ (fits.root member uses)⟩⟩⟩
  obtain ⟨apart, away⟩ := sound.away active fits member uses other
  exact fits.intact member apart (Finset.mem_erase.mpr ⟨away, fits.root member uses⟩) spares ⟨rfl, rfl, fun _ _ => rfl, fun _ _ => rfl, fun _ _ => rfl⟩

theorem Sound.unseen (active : s.exited s.vm.current = false) (beside : s.Beside s') : s.Unseen s' := by
  obtain ⟨l, fits⟩ := sound.holdings
  intro p member b uses other
  rw [beside.procs]
  exact ⟨member, beside.intact p member (sound.away active fits member uses other).1 b uses⟩

theorem Sound.step {action : Action} (enabled : s.Enabled action) (done : act action s = .ok s') : s'.Sound ∧ s.Unseen s' := by
  obtain ⟨allowed, orderly⟩ := enabled
  cases action with
  | fork flags stack tf =>
    obtain ⟨⟨answer, s₁⟩, forked, rest⟩ := bind_ok done
    obtain rfl := Except.ok.inj rest
    obtain ⟨sound', seen, _⟩ := sound.fork forked
    exact ⟨sound', fun p member b uses _ => ⟨(seen p member).1, (seen p member).2.2 b uses⟩⟩
  | exec order name len image size =>
    obtain ⟨sound', beside, _⟩ := sound.exec allowed orderly done
    exact ⟨sound', sound.unseen allowed beside⟩
  | exit =>
    have done : s.doExit = .ok s' := done
    by_cases notIdle : s.vm.current = s.idleproc
    · rw [doExit, if_pos notIdle] at done
      cases done
    by_cases notInit : some s.vm.current = s.initproc
    · rw [doExit, if_neg notIdle, if_pos notInit] at done
      cases done
    obtain ⟨_, vm, _, _, _, exits, sound', beside⟩ := sound.exit allowed notIdle notInit
    obtain rfl := Except.ok.inj (exits.symm.trans done)
    exact ⟨sound', sound.unseen allowed beside⟩
  | wait child codeStore code =>
    obtain ⟨sound', unseen, _⟩ := sound.wait allowed.1 allowed.2.1 allowed.2.2.1 allowed.2.2.2 done
    exact ⟨sound', unseen⟩
  | run next =>
    obtain rfl := Except.ok.inj done
    obtain ⟨sound', unseen, _⟩ := sound.run allowed.1 allowed.2
    exact ⟨sound', unseen⟩
  | store addr value =>
    obtain ⟨vm, stored, rest⟩ := bind_ok done
    obtain rfl := Except.ok.inj rest
    obtain ⟨sound', unseen, _⟩ := sound.store allowed stored
    exact ⟨sound', unseen⟩

end Sound

theorem counted_boot {m : Mem} (free : ∀ f, f ∉ m.used → m.ref f = 0) : Counted ∅ ∅ {f | f ∈ m.used} m := by
  have table : ∀ f, ¬ m.IsTable ∅ f := by
    rintro f ⟨n, _, owned, _⟩
    exact absurd owned (Finset.notMem_empty _)
  have mapped : ∀ f, ¬ m.Mapped ∅ f := by
    rintro f ⟨r, root, _⟩
    exact absurd root (Finset.notMem_empty _)
  refine ⟨⟨?_, fun f impossible => absurd impossible (table f)⟩, fun f inUse => .inr (.inr (.inr inUse)), fun f impossible => absurd impossible (mapped f),
    fun f impossible => absurd impossible (mapped f), fun f impossible => absurd impossible (Set.notMem_empty f), fun f inUse => ⟨inUse, table f⟩, free⟩
  intro n n' _ _ owned
  exact absurd owned (Finset.notMem_empty _)

private theorem sound_idle {vm : Vm} {mem : Mem} {idle : Ptr} (bootstack : Frame) (started : vm.Started) (created : vm.mem.kmalloc = (some idle, mem)) :
    Sound ⟨{ ({ vm with mem := mem } : Vm).allocProc idle with kstack := Function.update (Function.update vm.kstack idle 0) idle bootstack, current := idle },
      [idle], fun _ => false, 1, idle, none⟩ := by
  have only : HeapOnly vm.mem mem := kmalloc_same created
  have nobody : ∀ p ∈ [idle], Function.update vm.mm idle none p = none := by
    intro p member
    rw [List.mem_singleton.mp member, Function.update_self]
  have kernel : ∀ p ∈ [idle], Function.update vm.pgdir idle vm.bootPgdir p = vm.bootPgdir := by
    intro p member
    rw [List.mem_singleton.mp member, Function.update_self]
  have member := List.mem_singleton_self idle
  have words : mem.word = vm.mem.word := by rw [only]
  have housed : Housed vm.mms [] ∅ {f | f ∈ vm.mem.used} ([idle] ++ vm.mem.blocks) mem := by
    refine ⟨(counted_boot started.free).heapOnly only, ?_, ?_, ?_, ?_, ?_, ?_, List.nodup_nil, ?_⟩
    · exact fun r root => absurd root (Finset.notMem_empty r)
    · exact fun b inside => absurd inside List.not_mem_nil
    · exact fun r root => absurd root (Finset.notMem_empty r)
    · exact fun b inside => absurd inside List.not_mem_nil
    · exact fun b inside => absurd inside List.not_mem_nil
    · exact fun b inside => absurd inside List.not_mem_nil
    · rw [(kmalloc_some created).2]
      exact .refl _
  refine ⟨⟨⟨[], ∅, {f | f ∈ vm.mem.used}, vm.mem.blocks⟩, housed, List.nodup_singleton idle, ?_, ?_, ?_, started.inUse, ?_, ?_, ?_⟩, member, member, ?_,
    fun p inside _ _ => kernel p inside, fun _ => ?_, ?_⟩
  · exact fun b inside => absurd inside List.not_mem_nil
  · exact fun b inside => absurd inside List.not_mem_nil
  · exact fun p inside b uses => absurd ((nobody p inside).symm.trans uses) (Option.some_ne_none b).symm
  · show ∀ i < 511, mem.word vm.bootPgdir i = 0
    rw [words]
    exact started.zero
  · exact fun p inside away => absurd (List.mem_singleton.mp inside) away
  · exact fun p inside _ _ away => absurd (List.mem_singleton.mp inside) away
  · exact fun p inside _ => nobody p inside
  · exact started.satp.trans (kernel idle member).symm
  · exact fun impossible => absurd impossible Bool.false_ne_true

/-- `proc_init` forks `init_main` when only `idleproc` is there. -/
theorem procInit_fork {vm : Vm} {bootstack : Frame} {tf : TrapFrame} (started : vm.Started) (booted : procInit bootstack tf vm = .ok s) :
    ∃ s₀ s₁ : Spaces, ∃ init, s₀.Sound ∧ (∀ p ∈ s₀.procs, s₀.vm.mm p = none) ∧ s₀.doFork cloneVm 0 tf = .ok (.ok init, s₁) ∧
      s = { s₁ with initproc := some init } := by
  unfold procInit at booted
  cases created : vm.mem.kmalloc with
  | mk given mem =>
    rw [created] at booted
    cases given with
    | none => cases booted
    | some idle =>
      obtain ⟨⟨child, s₁⟩, forked, rest⟩ := bind_ok booted
      cases child with
      | error code => cases rest
      | ok init =>
        obtain rfl := Except.ok.inj rest
        refine ⟨_, s₁, init, sound_idle bootstack started created, fun p member => ?_, forked, rfl⟩
        rw [List.mem_singleton.mp member]
        exact Function.update_self ..

theorem procInit_sound {vm : Vm} {bootstack : Frame} {tf : TrapFrame} (started : vm.Started) (booted : procInit bootstack tf vm = .ok s) : s.Sound := by
  obtain ⟨s₀, s₁, init, sound₀, _, forked, rfl⟩ := procInit_fork started booted
  obtain ⟨sound₁, _⟩ := sound₀.fork forked
  exact ⟨sound₁.holdings, sound₁.runs, sound₁.idle, sound₁.bare, sound₁.boot, sound₁.user, sound₁.kernel⟩

theorem Reachable.sound (reached : s.Reachable) : s.Sound := by
  induction reached with
  | boot started booted => exact procInit_sound started booted
  | step _ enabled done ih => exact (ih.step enabled done).1

instance (s : Spaces) (action : Action) : Decidable (s.Allowed action) :=
  match action with
  | .fork _ _ _ | .exec _ _ _ _ _ | .exit | .store _ _ => inferInstanceAs (Decidable (s.exited s.vm.current = false))
  | .wait child codeStore _ =>
    inferInstanceAs (Decidable (s.exited s.vm.current = false ∧ child ∈ s.procs ∧ s.exited child = true ∧ (s.vm.mm s.vm.current = none → codeStore = 0)))
  | .run next => inferInstanceAs (Decidable (next ∈ s.procs ∧ s.exited next = false))

/-- The actions one after the other, as long as they are allowed. -/
def play : List Action → Spaces → Kern Spaces
  | [], s => .ok s
  | action :: actions, s => if s.Allowed action then act action s >>= play actions else .error .fault

theorem play_reachable {actions : List Action} (reached : s.Reachable) (orderly : ∀ action ∈ actions, action.Orderly) (played : play actions s = .ok s') :
    s'.Reachable := by
  induction actions generalizing s with
  | nil =>
    obtain rfl := Except.ok.inj played
    exact reached
  | cons action actions ih =>
    rw [play] at played
    split at played
    next allowed =>
      obtain ⟨middle, done, rest⟩ := bind_ok played
      have first := orderly action List.mem_cons_self
      exact ih (reached.step ⟨allowed, first⟩ done) (fun action member => orderly action (List.mem_cons_of_mem _ member)) rest
    next => cases played

end Spaces

end Ucore
