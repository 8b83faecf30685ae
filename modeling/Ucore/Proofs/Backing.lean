import Mathlib
import Ucore.Proofs.ElfImage

/-! The areas that `user_mem_check` looks at and the page tables that the hardware looks at. Every page of an area is there, but of the 256 pages of the
stack `load_icode` allocates the four on top, and there is no handler that would bring the others. -/

namespace Ucore
open Lib

/-- The part of the area of the stack that gets no pages. -/
def Unbacked (addr : Nat) : Prop := ustackTop - ustackSize ≤ addr ∧ addr < ustackTop - 4 * pgSize

/-- The entry lets the user do what the flags of an area say. -/
structure Opens (flags : BitVec 32) (pte : BitVec 64) : Prop where
  isValid : valid pte = true
  user : pte &&& pteU ≠ 0
  read : flags &&& vmRead ≠ 0 → pte &&& pteR ≠ 0
  write : flags &&& vmWrite ≠ 0 → pte &&& pteW ≠ 0

/-- The page directory has the pages of the areas, except for those of the stack. -/
structure Backed (areas : List Vma) (c : Frame) (m : Mem) : Prop where
  opens : ∀ vma ∈ areas, ∀ v < userPages, vma.Covers v → ¬ Unbacked (v * pgSize) → Opens vma.vmFlags (m.leaf c v)
  gap : ∀ v < userPages, Unbacked (v * pgSize) → ¬ valid (m.leaf c v) = true

/-- A segment without bytes that begins within a page. It gets an area of one page, and no page. -/
def ProgHdr.Hollow (header : ProgHdr) : Prop := header.pFilesz = 0 ∧ header.pMemsz = 0 ∧ header.pVa % pgSize ≠ 0

/-- No segment that `load_icode` loads is hollow. -/
def Image.Solid (image : Image) : Prop :=
  ∀ (satp : Frame) (m : Mem), (∀ i < 511, m.word satp i = 0) → ∀ phoff phnum, image.ePhoff satp m = .ok phoff → image.ePhnum satp m = .ok phnum →
    ∀ index < phnum, ∀ header, image.At satp m phoff index header → ¬ header.Hollow

def Spaces.Action.Solid : Spaces.Action → Prop
  | .exec _ _ _ image _ => image.Solid
  | .fork _ _ _ | .exit | .wait _ _ _ | .run _ | .store _ _ => True

/-- The states that are reached with such programs. -/
inductive Spaces.Solid : Spaces → Prop where
  | boot {vm : Vm} {bootstack : Frame} {tf : TrapFrame} {s : Spaces} (started : vm.Started) (booted : procInit bootstack tf vm = .ok s) : Solid s
  | step {s s' : Spaces} {action : Action} (solid : Solid s) (enabled : s.Enabled action) (loads : action.Solid) (done : act action s = .ok s') : Solid s'

/-- Each address space has the pages of its areas. -/
def Spaces.Guarded (s : Spaces) : Prop := ∀ p ∈ s.procs, ∀ b, s.vm.mm p = some b → Backed (s.vm.mms b).mmapList (s.vm.pgdir p) s.vm.mem

/-- The user can access the byte, as `user_mem_check` has told. -/
def Vm.Backs (vm : Vm) (p : Ptr) (write : Bool) (addr : Nat) : Prop :=
  ∃ pte, vm.mem.walk (vm.pgdir p) addr = some pte ∧ pte &&& pteU ≠ 0 ∧ (write = true → pte &&& pteW ≠ 0)

variable {s s' : Spaces} {vm vm' : Vm} {p : Ptr} {b : Block} {m m' : Mem} {c r satp : Frame} {areas areas' : List Vma} {vma : Vma} {image : Image}
  {header : ProgHdr} {pte pte' : BitVec 64} {flags : BitVec 32} {addr len : Nat} {write : Bool}

theorem Opens.copy (opens : Opens flags pte) (same : pte' &&& pteUser = pte &&& pteUser) : Opens flags pte' := by
  have bits : ∀ bit : BitVec 64, pteUser &&& bit = bit → pte' &&& bit = pte &&& bit := by
    intro bit inside
    rw [← inside, ← BitVec.and_assoc, ← BitVec.and_assoc, same]
  have valid' : valid pte' = valid pte := by
    unfold valid
    rw [bits pteV (by decide)]
  refine ⟨valid'.trans opens.isValid, ?_, ?_, ?_⟩
  · rw [bits pteU (by decide)]
    exact opens.user
  · rw [bits pteR (by decide)]
    exact opens.read
  · rw [bits pteW (by decide)]
    exact opens.write

theorem ProgHdr.opens (header : ProgHdr) (page : Frame) : Opens header.vmFlags (pteCreate page (1 ||| header.perm)) := by
  have grants := header.grants page
  refine ⟨valid_pteCreate .., grants.user, fun read => grants.read.mpr ?_, fun write => grants.write.mpr ?_⟩
  · refine .inl fun missing => read ?_
    unfold ProgHdr.vmFlags
    rw [if_neg (not_not.mpr missing)]
    split <;> split <;> decide
  · refine fun missing => write ?_
    unfold ProgHdr.vmFlags
    rw [if_neg (not_not.mpr missing)]
    split <;> split <;> decide

private theorem stackPage_opens (page : Frame) : Opens (vmRead ||| vmWrite ||| vmStack) (pteCreate page (1 ||| 0x01F)) := by
  have low := pteCreate_low page (show (0x01F : BitVec 32).toNat < 2 ^ 10 by decide)
  have part : ∀ bit : BitVec 64, 0x3FF &&& bit = bit → pteCreate page (1 ||| 0x01F) &&& bit = (pteV ||| (0x01F : BitVec 32).setWidth 64) &&& bit := by
    intro bit inside
    rw [← low, BitVec.and_assoc, inside]
  refine ⟨valid_pteCreate .., ?_, fun _ => ?_, fun _ => ?_⟩
  all_goals
    rw [part _ (by decide)]
    decide

theorem Backed.copy (backed : Backed areas r m) (mirrors : Mirrors r c m m') (ranges : areas'.map Vma.range = areas.map Vma.range) : Backed areas' c m' := by
  refine ⟨fun vma member v inside covers free => ?_, fun v inside gap there => ?_⟩
  · have known : vma.range ∈ areas.map Vma.range := by
      rw [← ranges]
      exact List.mem_map_of_mem member
    obtain ⟨source, old, same⟩ := List.mem_map.mp known
    obtain ⟨first, rest⟩ := Prod.mk.inj same
    obtain ⟨last, flags⟩ := Prod.mk.inj rest
    unfold Vma.Covers at covers
    rw [← first, ← last] at covers
    have opens := backed.opens source old v inside covers free
    rw [flags] at opens
    obtain ⟨page, _, _, perm⟩ := (mirrors v inside).2 _ (target_some opens.isValid)
    exact opens.copy perm
  · have none : m.target (r, v) = none := by
      rw [Mem.target, entry, if_neg (backed.gap v inside gap)]
    exact entry_invalid ((mirrors v inside).1 none) there

theorem Backed.stays (backed : Backed areas c m) (leaf : ∀ v < userPages, m'.leaf c v = m.leaf c v) : Backed areas c m' := by
  refine ⟨fun vma member v inside covers free => ?_, fun v inside gap => ?_⟩
  · rw [leaf v inside]
    exact backed.opens vma member v inside covers free
  · rw [leaf v inside]
    exact backed.gap v inside gap

/-- A byte of the segment is in each of the pages of its area. -/
private theorem Vma.Carries.opens (carries : vma.Carries header image satp m c m') (solid : ¬ header.Hollow) {v : Nat} (covers : vma.Covers v) :
    Opens vma.vmFlags (m'.leaf c v) := by
  have user := carries.user
  have fits := carries.fits
  unfold Vma.Covers at covers
  rw [carries.first, carries.last] at covers
  have spot : ∃ a, header.pVa ≤ a ∧ a < header.pVa + header.pMemsz ∧ a / pgSize = v := by
    unfold ProgHdr.Hollow pgSize at solid
    unfold roundUp roundDown wrap at covers
    unfold userTop at user
    unfold pgSize at covers ⊢
    rcases le_total header.pVa (v * 4096) with ahead | behind
    · exact ⟨v * 4096, ahead, by omega, by omega⟩
    · exact ⟨header.pVa, le_rfl, by omega, by omega⟩
  obtain ⟨a, low, high, rfl⟩ := spot
  obtain ⟨page, _, leaf, _⟩ := carries.shows a low high
  rw [leaf, carries.flags]
  exact header.opens page

private theorem Vma.IsStack.opens (stack : vma.IsStack c m) {v : Nat} (covers : vma.Covers v) (free : ¬ Unbacked (v * pgSize)) :
    Opens vma.vmFlags (m.leaf c v) := by
  unfold Vma.Covers at covers
  rw [stack.first, stack.last] at covers
  have number : ∃ index, 1 ≤ index ∧ index ≤ 4 ∧ (ustackTop - index * pgSize) / pgSize = v := by
    unfold Unbacked at free
    unfold ustackTop ustackSize userTop pgSize at covers free
    refine ⟨ustackTop / pgSize - v, ?_⟩
    unfold ustackTop userTop pgSize
    omega
  obtain ⟨index, low, high, rfl⟩ := number
  obtain ⟨page, leaf⟩ := stack.pages index low high
  rw [leaf, stack.flags]
  exact stackPage_opens page

private theorem Vma.IsStack.gap (stack : vma.IsStack c m) {v : Nat} (gap : Unbacked (v * pgSize)) : ¬ valid (m.leaf c v) = true := by
  have covers : vma.Covers v := by
    unfold Vma.Covers
    rw [stack.first, stack.last]
    unfold Unbacked at gap
    unfold ustackTop ustackSize userTop pgSize at gap ⊢
    omega
  refine entry_invalid (stack.below v covers ?_)
  unfold Unbacked at gap
  unfold ustackTop ustackSize userTop pgSize at gap
  unfold ustackTop userTop pgSize
  omega

/-- What `load_icode` builds. -/
theorem Image.Built.backed (built : image.Built vm vm') (zero : ∀ i < 511, vm.mem.word vm.satp i = 0) (solid : image.Solid)
    (uses : vm'.mm vm'.current = some b) : Backed (vm'.mms b).mmapList (vm'.pgdir vm'.current) vm'.mem := by
  obtain ⟨phoff, phnum, last, block, read, counted, most, _, own, stands⟩ := built.areas
  obtain rfl := Option.some.inj (own.symm.trans uses)
  refine ⟨fun vma member v _ covers free => ?_, fun v _ gap => ?_⟩
  · rcases stands.areas vma member with stack | ⟨index, below, header, here, carries⟩
    · exact stack.opens covers free
    · exact carries.opens (solid _ _ zero phoff phnum read counted index (below.trans_le most) header here) covers
  · obtain ⟨vma, _, stack⟩ := stands.stack
    exact stack.gap gap

private theorem Image.Orderly.admits (orderly : image.Orderly) (zero : ∀ i < 511, m.word satp i = 0) : image.Admits (fun _ => False) satp m where
  field _ _ _ _ _ := .unbarred _
  entry _ _ := .unbarred _
  suits _ _ _ read counted := orderly.suits zero read counted

theorem Vm.Stays.backed (stays : Vm.Stays p vm vm') (uses : vm'.mm p = some b) (backed : Backed (vm.mms b).mmapList (vm.pgdir p) vm.mem) :
    Backed (vm'.mms b).mmapList (vm'.pgdir p) vm'.mem := by
  obtain ⟨place, list, leaf⟩ := stays.space b (stays.mm.symm.trans uses)
  rw [place, list]
  exact backed.stays leaf

namespace Spaces

section Guarded

variable (sound : s.Sound) (guarded : s.Guarded)
include sound guarded

theorem Sound.guardFork {stack : BitVec 64} {tf : TrapFrame} {flags : BitVec 32} {answer : Except Int Ptr}
    (forked : s.doFork flags stack tf = .ok (answer, s')) : s'.Guarded := by
  obtain ⟨sound', kept, new, born⟩ := sound.fork forked
  have old : ∀ p ∈ s.procs, ∀ b, s'.vm.mm p = some b → Backed (s'.vm.mms b).mmapList (s'.vm.pgdir p) s'.vm.mem := by
    intro p member b uses
    obtain ⟨_, mm, intact⟩ := kept p member
    exact (Vm.Stays.intact mm intact).backed uses (guarded p member b (mm.symm.trans uses))
  intro p member b uses
  rcases new p member with before | isChild
  · exact old p before b uses
  have birth := born p isChild
  cases parent : s.vm.mm s.vm.current with
  | none => exact absurd ((birth.thread parent).symm.trans uses) (Option.some_ne_none b).symm
  | some source =>
    by_cases copy : flags &&& cloneVm = 0
    · obtain ⟨block, own, _, ranges⟩ := birth.copied source parent copy
      obtain rfl := Option.some.inj (own.symm.trans uses)
      exact (guarded _ sound.runs source parent).copy (birth.pages source parent) ranges
    · obtain rfl := Option.some.inj ((birth.shared source parent copy).symm.trans uses)
      obtain ⟨there, mm, _⟩ := kept _ sound.runs
      obtain ⟨l, fits⟩ := sound'.holdings
      have place := (fits.mine _ there source (mm.trans parent)).2
      have same := (fits.mine p member source uses).2
      rw [← Option.some.inj (place.symm.trans same)]
      exact old _ sound.runs source (mm.trans parent)

theorem Sound.guardExec {order : HeaderOrder} {name len size : Nat} (active : s.exited s.vm.current = false) (orderly : image.Orderly) (solid : image.Solid)
    (ran : s.doExecve order name len image size = .ok s') : s'.Guarded := by
  obtain ⟨_, beside, executed⟩ := sound.exec active orderly ran
  intro p member b uses
  rw [beside.procs] at member
  by_cases own : p = s.vm.current
  · rw [own] at uses ⊢
    cases executed with
    | refused stays => exact stays.backed uses (guarded _ sound.runs b (stays.mm.symm.trans uses))
    | failed gone => exact absurd (gone.symm.trans uses) (Option.some_ne_none b).symm
    | @loaded vm vm' name started current alone done named =>
      have zero : ∀ i < 511, vm.mem.word vm.satp i = 0 := by
        rw [started.satp]
        exact started.zero
      have ensures : Ensures (fun _ => False) (vm.loadIcode order image size) _ := loadIcode_ensures started alone (orderly.admits zero)
      obtain ⟨_, _, built⟩ := ensures.post _ done
      rw [named] at uses ⊢
      rw [← current] at uses ⊢
      exact (built rfl).backed zero solid uses
  · have mm := beside.mm p member own
    exact (Vm.Stays.intact mm (beside.intact p member own)).backed uses (guarded p member b (mm.symm.trans uses))

/-- One action. -/
theorem Sound.guardStep {action : Action} (enabled : s.Enabled action) (loads : action.Solid) (done : act action s = .ok s') : s'.Guarded := by
  have steady : (∀ p ∈ s'.procs, p ∈ s.procs ∧ Vm.Stays p s.vm s'.vm) → s'.Guarded := by
    intro stays p member b uses
    obtain ⟨before, stays⟩ := stays p member
    exact stays.backed uses (guarded p before b (stays.mm.symm.trans uses))
  obtain ⟨allowed, orderly⟩ := enabled
  cases action with
  | fork flags stack tf =>
    obtain ⟨⟨answer, s₁⟩, forked, rest⟩ := bind_ok done
    obtain rfl := Except.ok.inj rest
    exact sound.guardFork guarded forked
  | exec order name len image size => exact sound.guardExec guarded allowed orderly loads done
  | exit =>
    have done : s.doExit = .ok s' := done
    by_cases notIdle : s.vm.current = s.idleproc
    · rw [doExit, if_pos notIdle] at done
      cases done
    by_cases notInit : some s.vm.current = s.initproc
    · rw [doExit, if_neg notIdle, if_pos notInit] at done
      cases done
    obtain ⟨_, vm, _, vacated, _, exits, _, beside⟩ := sound.exit allowed notIdle notInit
    obtain rfl := Except.ok.inj (exits.symm.trans done)
    intro p member b uses
    by_cases own : p = s.vm.current
    · rw [own] at uses
      exact absurd (vacated.gone.symm.trans uses) (Option.some_ne_none b).symm
    · have mm := beside.mm p member own
      exact (Vm.Stays.intact mm (beside.intact p member own)).backed uses (guarded p member b (mm.symm.trans uses))
  | wait child codeStore code => exact steady (sound.wait allowed.1 allowed.2.1 allowed.2.2.1 allowed.2.2.2 done).2.2
  | run next =>
    obtain rfl := Except.ok.inj done
    exact steady (sound.run allowed.1 allowed.2).2.2
  | store addr value =>
    obtain ⟨vm, stored, rest⟩ := bind_ok done
    obtain rfl := Except.ok.inj rest
    exact steady (sound.store allowed stored).2.2

end Guarded

theorem Solid.reachable (solid : s.Solid) : s.Reachable := by
  induction solid with
  | boot started booted => exact .boot started booted
  | step _ enabled _ done ih => exact .step ih enabled done

theorem Solid.guarded (solid : s.Solid) : s.Guarded := by
  induction solid with
  | boot started booted =>
    obtain ⟨s₀, s₁, init, sound₀, bare, forked, rfl⟩ := procInit_fork started booted
    have nothing : s₀.Guarded := fun p member b uses => absurd ((bare p member).symm.trans uses) (Option.some_ne_none b).symm
    have forked' : s₁.Guarded := sound₀.guardFork nothing forked
    exact forked'
  | step before enabled loads done ih => exact before.reachable.sound.guardStep ih enabled loads done

/-- The current process stores to bytes that it can write. -/
private theorem pokes {l : Holdings} {procs : List Ptr} {idle : Ptr} {n value : Nat} (fits : l.Fits procs idle vm) (member : vm.current ∈ procs)
    (satp : vm.satp = vm.pgdir vm.current) (uses : vm.mm vm.current = some b) (user : addr + n ≤ userTop)
    (backs : ∀ a, addr ≤ a → a < addr + n → vm.Backs vm.current true a) : ∃ vm', vm.pokeNumber n addr value = .ok vm' := by
  induction n generalizing vm addr value with
  | zero => exact ⟨vm, rfl⟩
  | succ n ih =>
    have below : addr < userTop := by omega
    have next : wrap (addr + 1) = addr + 1 := by
      refine Nat.mod_eq_of_lt (lt_of_le_of_lt (Nat.succ_le_of_lt below) ?_)
      decide
    obtain ⟨pte, walked, _, writes⟩ := backs addr le_rfl (by omega)
    have poked : vm.poke addr (BitVec.ofNat 8 value) = .ok { vm with mem := vm.mem.setByte (pteFrame pte) (addr % pgSize) (BitVec.ofNat 8 value) } := by
      unfold Vm.poke
      rw [if_neg (not_le.mpr (below.trans (by decide))), satp, walked]
      exact if_pos (writes rfl)
    obtain ⟨fits', _, mapping⟩ := fits.write member uses below walked (BitVec.ofNat 8 value)
    obtain ⟨vm', rest⟩ := ih fits' member satp uses (by omega : addr + 1 + n ≤ userTop) fun a low high => by
      obtain ⟨pte', walked', rights⟩ := backs a (by omega) (by omega)
      refine ⟨pte', ?_, rights⟩
      have inside : a < userTop := by omega
      rw [walk_user inside] at walked' ⊢
      rw [mapping _ (fits.root member uses) _ (page_of_user inside)]
      exact walked'
    refine ⟨vm', ?_⟩
    rw [Vm.pokeNumber, poked, ok_bind, next]
    exact rest

private theorem touches (satp : vm.satp = vm.pgdir p) {n : Nat} (user : addr + n ≤ userTop)
    (backs : ∀ a, addr ≤ a → a < addr + n → ∃ pte, vm.mem.walk (vm.pgdir p) a = some pte ∧ pte &&& (if write then pteW else pteR) ≠ 0) :
    vm.touchBytes write addr n = .ok () := by
  induction n generalizing addr with
  | zero => rfl
  | succ n ih =>
    have below : addr < userTop := by omega
    have next : wrap (addr + 1) = addr + 1 := by
      refine Nat.mod_eq_of_lt (lt_of_le_of_lt (Nat.succ_le_of_lt below) ?_)
      decide
    obtain ⟨pte, walked, rights⟩ := backs addr le_rfl (by omega)
    have first : vm.touch write addr = .ok () := by
      unfold Vm.touch
      rw [if_neg (not_le.mpr (below.trans (by decide))), satp, walked]
      exact if_pos rights
    rw [Vm.touchBytes, first, ok_bind, next]
    exact ih (by omega) fun a low high => backs a (by omega) (by omega)

/-- In a run in which no program with a hollow segment is loaded, a range that `user_mem_check` has accepted is there if and only if it does not meet the
part of the stack without pages. Then the kernel can load or store it for the current process. -/
theorem user_mem_check_backed {mm : MmStruct} (solid : s.Solid) (member : p ∈ s.procs) (uses : s.vm.mm p = some b) (lenWord : len < 2 ^ 64)
    (checked : (s.vm.mms b).userMemCheck addr len write = .ok (true, mm)) :
    ((∀ a, addr ≤ a → a < addr + len → s.vm.Backs p write a) ↔ ∀ a, addr ≤ a → a < addr + len → ¬ Unbacked a) ∧
      (p = s.vm.current → (∀ a, addr ≤ a → a < addr + len → ¬ Unbacked a) → s.vm.touchBytes write addr len = .ok () ∧
        (write = true → ∀ value, ∃ vm', s.vm.pokeNumber len addr value = .ok vm')) := by
  have sound := solid.reachable.sound
  obtain ⟨l, fits⟩ := sound.holdings
  have backed := solid.guarded p member b uses
  obtain ⟨inside, place⟩ := fits.mine p member b uses
  obtain ⟨r, _, own, covered⟩ := fits.housed.root inside
  obtain rfl := Option.some.inj (place.symm.trans own)
  obtain ⟨answer, mm', checked', _, exact⟩ := MmStruct.userMemCheck_spec (fits.housed.kept b inside) addr len write
  obtain ⟨rfl, _⟩ := Prod.mk.inj (Except.ok.inj (checked'.symm.trans checked))
  obtain ⟨user, all⟩ := exact.mp rfl
  have sum : addr + len < 2 ^ 64 := by
    simp only [UserAccess, wrap, userTop, userBase] at user
    omega
  rw [wrap, Nat.mod_eq_of_lt sum] at user all
  have low : ∀ a, a < addr + len → a < userTop := fun a high => high.trans_le user.2.2
  have page : ∀ a, Unbacked (a / pgSize * pgSize) ↔ Unbacked a := by
    intro a
    unfold Unbacked ustackTop ustackSize userTop pgSize
    omega
  have opens : ∀ a, addr ≤ a → a < addr + len → ¬ Unbacked a → ∃ pte, s.vm.mem.walk (s.vm.pgdir p) a = some pte ∧ pte &&& pteU ≠ 0 ∧
      pte &&& (if write then pteW else pteR) ≠ 0 := by
    intro a begins ends free
    obtain ⟨vma, area, has, flag, _⟩ := all a begins ends
    obtain ⟨first, last, _⟩ := assertRange_ok (covered.passes vma area)
    have around : vma.vmStart ≤ a ∧ a < vma.vmEnd := by simpa [Vma.has] using has
    have covers : vma.Covers (a / pgSize) := by
      unfold Vma.Covers
      unfold pgSize at first last ⊢
      omega
    have opens := backed.opens vma area _ (page_of_user (low a ends)) covers fun gap => free ((page a).mp gap)
    refine ⟨_, ?_, opens.user, ?_⟩
    · rw [walk_user (low a ends), if_pos opens.isValid]
    · cases write with
      | true => exact opens.write flag
      | false => exact opens.read flag
  have backs : (∀ a, addr ≤ a → a < addr + len → ¬ Unbacked a) → ∀ a, addr ≤ a → a < addr + len → s.vm.Backs p write a := by
    intro free a begins ends
    obtain ⟨pte, walked, isUser, rights⟩ := opens a begins ends (free a begins ends)
    refine ⟨pte, walked, isUser, fun writes => ?_⟩
    rw [writes] at rights
    exact rights
  refine ⟨⟨fun there a begins ends gap => ?_, backs⟩, fun current free => ?_⟩
  · obtain ⟨pte, walked, _⟩ := there a begins ends
    rw [walk_user (low a ends)] at walked
    split at walked
    next isValid => exact backed.gap _ (page_of_user (low a ends)) ((page a).mpr gap) isValid
    next => cases walked
  · have active : s.exited s.vm.current = false := by
      by_contra ended
      rw [← current] at ended
      exact absurd ((sound.bare p member (Bool.eq_true_of_not_eq_false ended)).symm.trans uses) (Option.some_ne_none b).symm
    have satp := sound.user active
    rw [← current] at satp
    refine ⟨touches satp user.2.2 fun a begins ends => ?_, fun writes value => ?_⟩
    · obtain ⟨pte, walked, _, rights⟩ := opens a begins ends (free a begins ends)
      exact ⟨pte, walked, rights⟩
    · rw [current] at satp uses
      refine pokes fits sound.runs satp uses user.2.2 ?_
      rw [← current, ← writes]
      exact backs free

theorem play_solid {actions : List Action} (solid : s.Solid) (orderly : ∀ action ∈ actions, action.Orderly) (loads : ∀ action ∈ actions, action.Solid)
    (played : play actions s = .ok s') : s'.Solid := by
  induction actions generalizing s with
  | nil =>
    obtain rfl := Except.ok.inj played
    exact solid
  | cons action actions ih =>
    rw [play] at played
    split at played
    next allowed =>
      obtain ⟨middle, done, rest⟩ := bind_ok played
      have first := orderly action List.mem_cons_self
      exact ih (solid.step ⟨allowed, first⟩ (loads action List.mem_cons_self) done) (fun action member => orderly action (List.mem_cons_of_mem _ member))
        (fun action member => loads action (List.mem_cons_of_mem _ member)) rest
    next => cases played

/-- The process 1 runs a program and forks the process 5, which comes to run. -/
def childRun (image : Image) (vm : Vm) : Kern Spaces := do
  let s ← procInit nbase ⟨fun _ => 0, 0, 0, 0, 0⟩ vm
  play [.run 1, .exec .magicFirst kernBase 1 image 124, .fork 0 0 ⟨fun _ => 0, 0, 0, 0, 0⟩, .run 5] s

private theorem childRun_solid {vm : Vm} (started : vm.Started) (ran : childRun textProgram vm = .ok s) : s.Solid := by
  obtain ⟨s₀, booted, played⟩ := bind_ok ran
  have solid : textProgram.Solid := by
    intro satp m _ phoff phnum read counted index inside header found
    obtain rfl : 64 = phoff := Except.ok.inj read
    obtain rfl : 1 = phnum := Except.ok.inj counted
    obtain rfl : index = 0 := Nat.lt_one_iff.mp inside
    have first : textProgram.At satp m 64 0 ⟨5, 120, 0x800020, 4, 8⟩ := rfl
    obtain rfl := Option.some.inj (Except.ok.inj (first.symm.trans found))
    exact fun hollow => absurd hollow.1 (by decide)
  refine play_solid (.boot started booted) (fun action member => ?_) (fun action member => ?_) played
  · rcases List.mem_cons.mp member with rfl | member
    · trivial
    rcases List.mem_cons.mp member with rfl | member
    · exact textProgram_orderly
    rcases List.mem_cons.mp member with rfl | member
    · trivial
    · rw [List.mem_singleton.mp member]
      trivial
  · rcases List.mem_cons.mp member with rfl | member
    · trivial
    rcases List.mem_cons.mp member with rfl | member
    · exact solid
    rcases List.mem_cons.mp member with rfl | member
    · trivial
    · rw [List.mem_singleton.mp member]
      trivial

/-- The four bytes from `top` on are accepted and mapped. Those from `gap` on are accepted too, but not mapped, and the kernel cannot store to them. -/
def childChecks (s : Spaces) : Kern Unit :=
  let top := ustackTop - 16
  let gap := ustackTop - 5 * pgSize
  assert (decide (s.vm.current = 5 ∧ 5 ∈ s.procs ∧ s.vm.mm 5 = some 6 ∧ ((s.vm.mms 6).userMemCheck top 4 true).toOption.map (·.1) = some true ∧
    ((s.vm.mms 6).userMemCheck gap 4 true).toOption.map (·.1) = some true ∧ s.vm.mem.walk (s.vm.pgdir 5) gap = none ∧
    (s.vm.pokeNumber 4 gap 0).map (fun _ => ()) = .error .fault)) ""

private theorem childRun_ran : (childRun textProgram started >>= childChecks) = .ok () := by decide +kernel

private theorem accepted {answer : Kern (Bool × MmStruct)} (granted : answer.toOption.map (·.1) = some true) : ∃ mm, answer = .ok (true, mm) := by
  cases answer with
  | error halt => cases granted
  | ok result =>
    obtain ⟨flag, mm⟩ := result
    obtain rfl := Option.some.inj granted
    exact ⟨mm, rfl⟩

/-- The child writes to the top of its copy of the stack. -/
theorem user_mem_check_backed_child : ∃ s : Spaces, s.vm.current = 5 ∧ s.vm.mm 5 = some 6 ∧ s.vm.Backs 5 true (ustackTop - 13) ∧
    s.vm.touchBytes true (ustackTop - 16) 4 = .ok () ∧ ∃ vm', s.vm.pokeNumber 4 (ustackTop - 16) 7 = .ok vm' := by
  obtain ⟨s, ran, checks⟩ := bind_ok childRun_ran
  obtain ⟨current, member, uses, granted, _⟩ := of_decide_eq_true (assert_ok checks)
  obtain ⟨mm, checked⟩ := accepted granted
  have solid := childRun_solid started_boot ran
  obtain ⟨exact, access⟩ := user_mem_check_backed solid member uses (by decide) checked
  have free : ∀ a, ustackTop - 16 ≤ a → a < ustackTop - 16 + 4 → ¬ Unbacked a := by
    intro a low _
    unfold Unbacked ustackTop userTop pgSize
    unfold ustackTop userTop at low
    omega
  obtain ⟨touched, stores⟩ := access current.symm free
  exact ⟨s, current, uses, exact.mpr free _ (by decide) (by decide), touched, stores rfl 7⟩

/-- The fifth page of the stack is accepted, but it is not there. -/
theorem user_mem_check_unbacked : ∃ s : Spaces, s.Solid ∧ s.vm.current = 5 ∧ s.vm.mm 5 = some 6 ∧
    (∃ mm, (s.vm.mms 6).userMemCheck (ustackTop - 5 * pgSize) 4 true = .ok (true, mm)) ∧ s.vm.mem.walk (s.vm.pgdir 5) (ustackTop - 5 * pgSize) = none ∧
    (s.vm.pokeNumber 4 (ustackTop - 5 * pgSize) 0).map (fun _ => ()) = .error .fault := by
  obtain ⟨s, ran, checks⟩ := bind_ok childRun_ran
  obtain ⟨current, _, uses, _, granted, unmapped, faults⟩ := of_decide_eq_true (assert_ok checks)
  exact ⟨s, childRun_solid started_boot ran, current, uses, accepted granted, unmapped, faults⟩

end Spaces

end Ucore
