import Ucore.Pmm
import Ucore.Lib.Radix

/-! Page tables as trees of frames. `get_pte` adds tables to a tree and changes no leaf. -/

namespace Ucore
open Lib

private theorem small_getLsbD {w n : Nat} {value : BitVec w} (low : value.toNat < 2 ^ n) (i : Nat) (high : n ≤ i) :
    value.getLsbD i = false :=
  Nat.testBit_lt_two_pow (low.trans_le (Nat.pow_le_pow_right (by decide) high))

private theorem signExtend_getLsbD {type : BitVec 32} (low : type.toNat < 2 ^ 10) (i : Nat) (high : 10 ≤ i) :
    (type.signExtend 64).getLsbD i = false := by
  have sign : type.msb = false := by
    rw [BitVec.msb_eq_getLsbD_last]
    exact small_getLsbD low 31 (by decide)
  simp [BitVec.getLsbD_signExtend, small_getLsbD low i high, sign]

private theorem pteFrame_testBit (pte : BitVec 64) (i : Nat) :
    (pteFrame pte).testBit i = (decide (i < 52) && pte.getLsbD (10 + i)) := by
  have value : (pteFrame pte).testBit i = (pteAddr pte >>> 12).getLsbD i := rfl
  have mask : (~~~(0x3FF#64)).getLsbD (10 + i) = decide (10 + i < 64) := by
    have none : (0x3FF#64).getLsbD (10 + i) = false := @small_getLsbD 64 10 0x3FF#64 (by decide) _ (by omega)
    rw [BitVec.getLsbD_not, none]
    simp
  rw [value, BitVec.getLsbD_ushiftRight, pteAddr, BitVec.getLsbD_shiftLeft, show 12 + i - 2 = 10 + i by omega,
    BitVec.getLsbD_and, mask]
  by_cases inside : i < 52
  · simp [inside, show 12 + i < 64 by omega, show 10 + i < 64 by omega]
    omega
  · simp [inside, show ¬ 12 + i < 64 by omega]

theorem pteFrame_pteCreate {page : Nat} {type : BitVec 32} (small : page < 2 ^ 52) (low : type.toNat < 2 ^ 10) :
    pteFrame (pteCreate page type) = page := by
  refine Nat.eq_of_testBit_eq fun i => ?_
  rw [pteFrame_testBit]
  have v : pteV.getLsbD (10 + i) = false := @small_getLsbD 64 10 pteV (by decide) _ (by omega)
  by_cases inside : i < 52
  · have bit : (BitVec.ofNat 64 page).getLsbD i = page.testBit i := by
      rw [BitVec.getLsbD_ofNat]
      simp [show i < 64 by omega]
    rw [pteCreate, BitVec.getLsbD_or, BitVec.getLsbD_or, BitVec.getLsbD_shiftLeft, v, signExtend_getLsbD low _ (by omega),
      show 10 + i - 10 = i by omega]
    simp [inside, bit, show 10 + i < 64 by omega, -BitVec.getLsbD_eq_getElem]
  · simp only [inside, decide_false, Bool.false_and]
    exact (Nat.testBit_lt_two_pow (small.trans_le (Nat.pow_le_pow_right (by decide) (by omega)))).symm

theorem valid_pteCreate (page : Frame) (type : BitVec 32) : valid (pteCreate page type) = true := by
  have bit : (pteCreate page type &&& pteV).getLsbD 0 = true := by simp [pteCreate, pteV]
  rw [valid, decide_eq_true_eq]
  intro zero
  rw [zero] at bit
  simp at bit

theorem or_flags {perm : BitVec 32} (flags : perm.toNat < 2 ^ 10) : (1 ||| perm).toNat < 2 ^ 10 := by
  rw [BitVec.toNat_or]
  exact Nat.or_lt_two_pow (by decide) flags

theorem pteCreate_low (page : Frame) {perm : BitVec 32} (flags : perm.toNat < 2 ^ 10) :
    pteCreate page (1 ||| perm) &&& 0x3FF = pteV ||| perm.setWidth 64 := by
  apply BitVec.eq_of_getLsbD_eq
  intro i inside
  have outside (j : Nat) (high : 10 ≤ j) : perm.getLsbD j = false := small_getLsbD flags j high
  have v : pteV.getLsbD i = decide (i = 0) := by
    cases i with
    | zero => rfl
    | succ i => simp [pteV]
  have mask : (0x3FF#64).getLsbD i = decide (i < 10) := by
    by_cases low : i < 10
    · interval_cases i <;> rfl
    · rw [@small_getLsbD 64 10 0x3FF#64 (by decide) i (by omega), decide_eq_false low]
  by_cases low : i < 10
  · simp [pteCreate, mask, v, low, BitVec.getLsbD_signExtend, inside, show i < 32 by omega, -BitVec.getLsbD_eq_getElem]
  · simp [mask, low, v, outside i (by omega), show i ≠ 0 by omega, -BitVec.getLsbD_eq_getElem]

theorem entry_pteCreate {page : Nat} {type : BitVec 32} (small : page < 2 ^ 52) (low : type.toNat < 2 ^ 10) :
    entry (pteCreate page type) = some page := by
  rw [entry, if_pos (valid_pteCreate page type), pteFrame_pteCreate small low]

theorem entry_valid {pte : BitVec 64} {f : Frame} (found : entry pte = some f) : valid pte = true ∧ pteFrame pte = f := by
  rw [entry] at found
  split at found
  next isValid => exact ⟨isValid, Option.some.inj found⟩
  next => cases found

theorem entry_invalid {pte : BitVec 64} (found : entry pte = none) : ¬ valid pte = true := by
  intro isValid
  rw [entry, if_pos isValid] at found
  cases found

theorem entry_zero : entry 0 = none := by decide

/-- The user part of a page directory has two entries. -/
def top : Nat := 2

/-- How many pages there are below it. -/
def userPages : Nat := top * 512 * 512

namespace Mem

def node (m : Mem) (n : Node Frame) : Option Frame := Radix.nodeAt entry 512 m.word n

/-- The leaf entry for the page number `v`. -/
def leaf (m : Mem) (pgdir : Frame) (v : Nat) : BitVec 64 := Radix.leafAt entry 512 m.word 0 pgdir v

/-- The frame is a page directory or page table of one of the trees. -/
def IsTable (m : Mem) (roots : Finset Frame) (f : Frame) : Prop := Radix.Placed entry 512 m.word top roots f

end Mem

/-- The page tables of the page directories `roots` are distinct frames in use. -/
structure Paged (roots : Finset Frame) (m : Mem) : Prop where
  unique : Radix.Unique entry 512 m.word top roots
  sound : ∀ f, m.IsTable roots f → f ∈ m.used ∧ nbase ≤ f ∧ f < m.npage

/-- Between the two states tables were added to the tree of `pgdir`. Every leaf is what it
was, and so is every frame that is not a new table or a table of this tree. -/
structure Grown (roots : Finset Frame) (pgdir : Frame) (m m' : Mem) : Prop where
  paged : Paged roots m'
  node : ∀ n : Node Frame, n.Inside top 512 → n.owner ∈ roots → ∀ f, m.node n = some f → m'.node n = some f
  others : ∀ n : Node Frame, n.Inside top 512 → n.owner ∈ roots → n.owner ≠ pgdir → m'.node n = m.node n
  leaf : ∀ r ∈ roots, ∀ v < userPages, m'.leaf r v = m.leaf r v
  used : ∃ new, m'.used = new ++ m.used ∧ new.Nodup ∧ ∀ f ∈ new, f ∉ m.used ∧ m'.IsTable {pgdir} f
  ref : ∀ f, ¬ (f ∈ m'.used ∧ f ∉ m.used) → m'.ref f = m.ref f
  word : ∀ f, ¬ m'.IsTable {pgdir} f → m'.word f = m.word f
  npage : m'.npage = m.npage
  heap : m'.blocks = m.blocks ∧ m'.kmallocs = m.kmallocs
  fresh : ∀ f, m'.IsTable roots f → m.IsTable roots f ∨ f ∉ m.used

variable {roots : Finset Frame} {m m' m'' : Mem} {pgdir page f : Frame} {n : Node Frame}

theorem IsTable.single (root : pgdir ∈ roots) (table : m.IsTable {pgdir} f) : m.IsTable roots f := by
  obtain ⟨n, inside, owned, found⟩ := table
  rw [Finset.mem_singleton] at owned
  exact ⟨n, inside, by rw [owned]; exact root, found⟩

theorem Grown.refl (paged : Paged roots m) : Grown roots pgdir m m where
  paged := paged
  node _ _ _ _ found := found
  others _ _ _ _ := rfl
  leaf _ _ _ _ := rfl
  used := ⟨[], rfl, List.nodup_nil, fun _ inside => absurd inside List.not_mem_nil⟩
  ref _ _ := rfl
  word _ _ := rfl
  npage := rfl
  heap := ⟨rfl, rfl⟩
  fresh _ table := .inl table

theorem Grown.table (grown : Grown roots pgdir m m') (root : pgdir ∈ roots) (table : m.IsTable {pgdir} f) : m'.IsTable {pgdir} f := by
  obtain ⟨n, inside, owned, found⟩ := table
  refine ⟨n, inside, owned, grown.node n inside ?_ f found⟩
  rw [Finset.mem_singleton.mp owned]
  exact root

theorem Grown.trans (first : Grown roots pgdir m m') (second : Grown roots pgdir m' m'') (root : pgdir ∈ roots) :
    Grown roots pgdir m m'' where
  paged := second.paged
  node n inside owned f found := second.node n inside owned f (first.node n inside owned f found)
  others n inside owned other := (second.others n inside owned other).trans (first.others n inside owned other)
  leaf r member v inside := (second.leaf r member v inside).trans (first.leaf r member v inside)
  used := by
    obtain ⟨new, used, distinct, fresh⟩ := first.used
    obtain ⟨new', used', distinct', fresh'⟩ := second.used
    refine ⟨new' ++ new, by rw [used', used, List.append_assoc], ?_, ?_⟩
    · refine List.nodup_append.mpr ⟨distinct', distinct, ?_⟩
      rintro f inNew' g inNew rfl
      refine (fresh' f inNew').1 ?_
      rw [used]
      exact List.mem_append_left _ inNew
    · intro f member
      rcases List.mem_append.mp member with inNew' | inNew
      · refine ⟨fun old => (fresh' f inNew').1 ?_, (fresh' f inNew').2⟩
        rw [used]
        exact List.mem_append_right _ old
      · exact ⟨(fresh f inNew).1, second.table root (fresh f inNew).2⟩
  ref f old := by
    have keeps : ∀ g ∈ m.used, g ∈ m'.used := by
      obtain ⟨new, used, _⟩ := first.used
      intro g member
      rw [used]
      exact List.mem_append_right _ member
    have keeps' : ∀ g ∈ m'.used, g ∈ m''.used := by
      obtain ⟨new, used, _⟩ := second.used
      intro g member
      rw [used]
      exact List.mem_append_right _ member
    rw [second.ref f fun bad => old ⟨bad.1, fun inUse => bad.2 (keeps f inUse)⟩]
    exact first.ref f fun bad => old ⟨keeps' f bad.1, bad.2⟩
  word f outside := by
    rw [second.word f outside]
    exact first.word f fun table => outside (second.table root table)
  npage := second.npage.trans first.npage
  heap := ⟨second.heap.1.trans first.heap.1, second.heap.2.trans first.heap.2⟩
  fresh f table := by
    rcases second.fresh f table with before | unused
    · exact first.fresh f before
    · obtain ⟨new, used, _⟩ := first.used
      rw [used] at unused
      exact .inr fun inUse => unused (List.mem_append_right _ inUse)

/-- `alloc_page` answers a frame that was not in use. -/
theorem allocPage_some (asked : m.allocPage = (some page, m')) :
    page ∉ m.used ∧ nbase ≤ page ∧ page < m.npage ∧
      m' = { m with used := page :: m.used, pages := fun call => m.pages (call + 1) } := by
  unfold Mem.allocPage Mem.allocPages at asked
  split at asked
  · split at asked
    next free =>
      cases asked
      exact ⟨free.2.2 page (by simp), free.1, free.2.1, rfl⟩
    next => cases asked
  · cases asked

theorem allocPage_none (asked : m.allocPage = (none, m')) : m' = { m with pages := fun call => m.pages (call + 1) } := by
  unfold Mem.allocPage Mem.allocPages at asked
  split at asked
  · split at asked
    next => cases asked
    next =>
      cases asked
      rfl
  · cases asked
    rfl

theorem Grown.answers (paged : Paged roots m) (answers : ℕ → Option Frame) : Grown roots pgdir m { m with pages := answers } :=
  ⟨⟨paged.unique, paged.sound⟩, fun _ _ _ _ found => found, fun _ _ _ _ => rfl, fun _ _ _ _ => rfl,
    ⟨[], rfl, List.nodup_nil, fun _ inside => absurd inside List.not_mem_nil⟩, fun _ _ => rfl, fun _ _ => rfl, rfl, ⟨rfl, rfl⟩,
    fun _ table => .inl table⟩

private theorem addTable_word (fresh : page ≠ f) (j : ℕ) :
    (m.addTable page f j).word page = (fun _ => 0) ∧ (m.addTable page f j).word f j = pteCreate page tableType ∧
      (∀ i, i ≠ j → (m.addTable page f j).word f i = m.word f i) ∧
      ∀ q, q ≠ page → q ≠ f → (m.addTable page f j).word q = m.word q := by
  have apart : f ≠ page := fresh.symm
  refine ⟨?_, ?_, ?_, ?_⟩
  · simp [Mem.addTable, Mem.setWord, Mem.setFrame, Mem.setRef, fresh]
  · simp [Mem.addTable, Mem.setWord, Mem.setFrame, Mem.setRef]
  · intro i other
    simp [Mem.addTable, Mem.setWord, Mem.setFrame, Mem.setRef, other, apart]
  · intro q first second
    simp [Mem.addTable, Mem.setWord, Mem.setFrame, Mem.setRef, first, second]

private theorem grown_addTable (paged : Paged roots m) (owned : n.owner ∈ roots) (proper : n.Proper) (inside : n.Inside top 512)
    (above : m.node (n.parent 512) = some f) (empty : m.node n = none) (asked : m.allocPage = (some page, m')) :
    Grown roots n.owner m (m'.addTable page f (n.index 512)) ∧ (m'.addTable page f (n.index 512)).node n = some page := by
  obtain ⟨unused, low, high, rfl⟩ := allocPage_some asked
  have parentTable : m.IsTable roots f := ⟨_, Radix.parent_inside inside, by rw [Radix.parent_owner]; exact owned, above⟩
  have notTable : ∀ q, m.IsTable roots q → q ≠ page := by
    rintro q table rfl
    exact unused (paged.sound q table).1
  have fresh : page ≠ f := (notTable f parentTable).symm
  obtain ⟨zeroed, written, same, others⟩ := addTable_word
    (m := { m with used := page :: m.used, pages := fun call => m.pages (call + 1) }) fresh (n.index 512)
  have ref : ∀ q, q ≠ page → (({ m with used := page :: m.used, pages := fun call => m.pages (call + 1) } : Mem).addTable page f
      (n.index 512)).ref q = m.ref q := fun q other => Function.update_of_ne other _ _
  generalize after : ({ m with used := page :: m.used, pages := fun call => m.pages (call + 1) } : Mem).addTable page f (n.index 512) = m'
    at zeroed written same others ref
  have used : m'.used = page :: m.used := by rw [← after]; rfl
  have npage : m'.npage = m.npage := by rw [← after]; rfl
  have heap : m'.blocks = m.blocks ∧ m'.kmallocs = m.kmallocs := by rw [← after]; exact ⟨rfl, rfl⟩
  have relinked : Radix.Relinked entry 512 m.word top roots n f m'.word := by
    refine ⟨proper, inside, owned, above, ?_⟩
    intro q j table away
    by_cases own : q = f
    · rw [own]
      exact same j fun index => away ⟨own, index⟩
    · rw [others q (notTable q table) own]
  have small : page < 2 ^ 52 := lt_of_lt_of_le high m.npage_le
  have here : m'.node n = some page := by
    rw [Mem.node, relinked.here paged.unique, written]
    exact entry_pteCreate small (by decide)
  -- a place below the new table is empty, before and after
  have below : ∀ n' : Node Frame, n'.parent 512 = n → m.node n' = none ∧ m'.node n' = none := by
    intro n' under
    have proper' : n'.Proper := by
      cases n' with
      | root r =>
        rw [← under] at proper
        cases proper
      | dir r i => trivial
      | table r s => trivial
    refine ⟨Radix.nodeAt_none proper' (by rw [under]; exact empty), ?_⟩
    rw [Mem.node, relinked.below paged.unique proper' under, written, entry_pteCreate small (by decide), Option.bind_some, zeroed]
    exact entry_zero
  have old : ∀ n' : Node Frame, n'.Inside top 512 → n'.owner ∈ roots → n' ≠ n → m'.node n' = m.node n' := by
    intro n' inside' owned' other
    by_cases under : n'.parent 512 = n
    · rw [(below n' under).1, (below n' under).2]
    · exact relinked.other paged.unique inside' owned' other under
  have tables : ∀ n' : Node Frame, n'.Inside top 512 → n'.owner ∈ roots → ∀ q, m'.node n' = some q →
      n' = n ∧ q = page ∨ n' ≠ n ∧ m.node n' = some q ∧ q ≠ page := by
    intro n' inside' owned' q found
    by_cases isNew : n' = n
    · rw [isNew, here] at found
      exact .inl ⟨isNew, (Option.some.inj found).symm⟩
    · rw [old n' inside' owned' isNew] at found
      exact .inr ⟨isNew, found, notTable q ⟨n', inside', owned', found⟩⟩
  refine ⟨⟨⟨?_, ?_⟩, ?_, ?_, ?_, ?_, ?_, ?_, npage, heap, ?_⟩, here⟩
  · intro n₁ n₂ inside₁ inside₂ owned₁ owned₂ q found₁ found₂
    rcases tables n₁ inside₁ owned₁ q found₁ with ⟨first, isPage⟩ | ⟨_, first, notPage⟩
    · rcases tables n₂ inside₂ owned₂ q found₂ with ⟨second, _⟩ | ⟨_, _, notPage⟩
      · rw [first, second]
      · exact absurd isPage notPage
    · rcases tables n₂ inside₂ owned₂ q found₂ with ⟨_, isPage⟩ | ⟨_, second, _⟩
      · exact absurd isPage notPage
      · exact paged.unique n₁ n₂ inside₁ inside₂ owned₁ owned₂ q first second
  · intro q table
    obtain ⟨n', inside', owned', found⟩ := table
    rw [used, npage]
    rcases tables n' inside' owned' q found with ⟨_, rfl⟩ | ⟨_, before, _⟩
    · exact ⟨List.mem_cons_self, low, high⟩
    · obtain ⟨inUse, range⟩ := paged.sound q ⟨n', inside', owned', before⟩
      exact ⟨List.mem_cons_of_mem _ inUse, range⟩
  · intro n' inside' owned' q found
    have other : n' ≠ n := by
      rintro rfl
      rw [empty] at found
      cases found
    rw [old n' inside' owned' other]
    exact found
  · intro n' inside' owned' foreign
    exact old n' inside' owned' fun same => foreign (by rw [same])
  · intro r member v bound
    have within : (Node.table r (v / 512)).Inside top 512 := Radix.slot_inside bound
    by_cases isNew : Node.table r (v / 512) = n
    · rw [Mem.leaf, Mem.leaf, Radix.leafAt_some (by rw [isNew]; exact here), Radix.leafAt_none (by rw [isNew]; exact empty), zeroed]
    · by_cases under : Node.dir r (v / 512 / 512) = n
      · have missing := below (.table r (v / 512)) under
        rw [Mem.leaf, Mem.leaf, Radix.leafAt_none missing.2, Radix.leafAt_none missing.1]
      · exact relinked.leaf paged.unique bound member isNew under
  · refine ⟨[page], used, List.nodup_singleton page, ?_⟩
    intro q member
    rw [List.mem_singleton.mp member]
    exact ⟨unused, n, inside, Finset.mem_singleton_self _, here⟩
  · intro q outside
    by_cases isPage : q = page
    · rw [isPage] at outside
      exact absurd ⟨by rw [used]; exact List.mem_cons_self, unused⟩ outside
    · exact ref q isPage
  · intro q outside
    refine others q ?_ ?_
    · rintro rfl
      exact outside ⟨n, inside, Finset.mem_singleton_self _, here⟩
    · rintro rfl
      refine outside ⟨n.parent 512, Radix.parent_inside inside, ?_, relinked.still paged.unique⟩
      rw [Radix.parent_owner]
      exact Finset.mem_singleton_self _
  · intro q table
    obtain ⟨n', inside', owned', found⟩ := table
    rcases tables n' inside' owned' q found with ⟨_, rfl⟩ | ⟨_, before, _⟩
    · exact .inr unused
    · exact .inl ⟨n', inside', owned', before⟩

/-- The tables are pages that the kernel can address. -/
def Mem.Addressable (m : Mem) (roots : Finset Frame) : Prop := ∀ f, m.IsTable roots f → nbase ≤ f ∧ f < m.npage

theorem Paged.addressable (paged : Paged roots m) : m.Addressable roots := fun f table => (paged.sound f table).2

private theorem nextTable_there (addressable : m.Addressable roots) (owned : n.owner ∈ roots) (proper : n.Proper)
    (inside : n.Inside top 512) (above : m.node (n.parent 512) = some f) (found : m.node n = some page) (create : Bool) :
    m.nextTable f (n.index 512) create = .ok (some page, m) := by
  have place : m.node n = entry (m.word f (n.index 512)) := Radix.nodeAt_some proper above
  have known := entry_valid (place.symm.trans found)
  have range := addressable page ⟨n, inside, owned, found⟩
  have address : m.kaddr (m.word f (n.index 512)) = .ok page := by
    rw [Mem.kaddr, known.2, if_neg (not_le.mpr range.2), if_neg (not_lt.mpr range.1)]
  rw [Mem.nextTable, if_pos known.1, address]
  rfl

private theorem nextTable_missing (proper : n.Proper) (above : m.node (n.parent 512) = some f) (missing : m.node n = none) :
    m.nextTable f (n.index 512) false = .ok (none, m) := by
  have place : m.node n = entry (m.word f (n.index 512)) := Radix.nodeAt_some proper above
  rw [Mem.nextTable, if_neg (entry_invalid (place.symm.trans missing))]
  rfl

private theorem nextTable_find (addressable : m.Addressable roots) (owned : n.owner ∈ roots) (proper : n.Proper)
    (inside : n.Inside top 512) (above : m.node (n.parent 512) = some f) : m.nextTable f (n.index 512) false = .ok (m.node n, m) := by
  cases found : m.node n with
  | some t => exact nextTable_there addressable owned proper inside above found false
  | none => exact nextTable_missing proper above found

theorem nextTable_spec (paged : Paged roots m) (owned : n.owner ∈ roots) (proper : n.Proper) (inside : n.Inside top 512)
    (above : m.node (n.parent 512) = some f) (create : Bool) :
    ∃ m', m.nextTable f (n.index 512) create = .ok (m'.node n, m') ∧ Grown roots n.owner m m' := by
  cases found : m.node n with
  | some t =>
    refine ⟨m, ?_, .refl paged⟩
    rw [nextTable_there paged.addressable owned proper inside above found, found]
  | none =>
    cases create with
    | false =>
      refine ⟨m, ?_, .refl paged⟩
      rw [nextTable_missing proper above found, found]
    | true =>
      have place : m.node n = entry (m.word f (n.index 512)) := Radix.nodeAt_some proper above
      rw [Mem.nextTable, if_neg (entry_invalid (place.symm.trans found)), if_pos rfl]
      cases asked : m.allocPage with
      | mk answer m₁ =>
        cases answer with
        | none =>
          obtain rfl := allocPage_none asked
          exact ⟨_, by rw [show ({ m with pages := fun call => m.pages (call + 1) } : Mem).node n = none from found],
            .answers paged _⟩
        | some page =>
          obtain ⟨grown, here⟩ := grown_addTable paged owned proper inside above found asked
          refine ⟨_, ?_, grown⟩
          have stored : (m₁.addTable page f (n.index 512)).word f (n.index 512) = pteCreate page tableType := by
            simp [Mem.addTable, Mem.setWord]
          have range := allocPage_some asked
          have limits : nbase ≤ page ∧ page < (m₁.addTable page f (n.index 512)).npage := by
            rw [grown.npage]
            exact ⟨range.2.1, range.2.2.1⟩
          have small : page < 2 ^ 52 := lt_of_lt_of_le range.2.2.1 m.npage_le
          have address : (m₁.addTable page f (n.index 512)).kaddr (pteCreate page tableType) = .ok page := by
            rw [Mem.kaddr, pteFrame_pteCreate small (by decide), if_neg (not_le.mpr limits.2), if_neg (not_lt.mpr limits.1)]
          simp only [stored, address, ok_bind, here]

theorem dir_of_user {la : Nat} (user : la < userTop) : pdx1 la < top ∧ la / 2 ^ 21 / 512 = pdx1 la := by
  unfold userTop at user
  unfold pdx1 top
  omega

theorem page_of_user {la : Nat} (user : la < userTop) : la / pgSize < userPages := by
  unfold userTop at user
  unfold userPages top pgSize
  omega

/-- The place of the page table for the address. -/
def tableOf (pgdir : Frame) (la : Nat) : Node Frame := .table pgdir (la / pgSize / 512)

theorem tableOf_inside {la : Nat} (user : la < userTop) : (tableOf pgdir la).Inside top 512 :=
  Radix.slot_inside (page_of_user user)

theorem tableOf_parent {la : Nat} (user : la < userTop) : (tableOf pgdir la).parent 512 = .dir pgdir (pdx1 la) := by
  refine congrArg (Node.dir pgdir) ?_
  rw [← (dir_of_user user).2, Nat.div_div_eq_div_mul la]
  rfl

theorem tableOf_index (la : Nat) : (tableOf pgdir la).index 512 = pdx0 la := by
  have slot : la / pgSize / 512 = la / 2 ^ 21 := Nat.div_div_eq_div_mul la _ _
  exact congrArg (· % 512) slot

theorem getPte_find (addressable : m.Addressable roots) (root : pgdir ∈ roots) {la : Nat} (user : la < userTop) :
    m.getPte pgdir la false = .ok ((m.node (tableOf pgdir la)).map fun t => (t, ptx la), m) := by
  have first : m.nextTable pgdir (pdx1 la) false = .ok (m.node (.dir pgdir (pdx1 la)), m) :=
    nextTable_find (n := .dir pgdir (pdx1 la)) addressable root trivial (dir_of_user user).1 rfl
  rw [Mem.getPte, first, ok_bind]
  cases found : m.node (.dir pgdir (pdx1 la)) with
  | none =>
    have missing : m.node (tableOf pgdir la) = none := Radix.nodeAt_none trivial (by rw [tableOf_parent user]; exact found)
    rw [missing]
    rfl
  | some d =>
    have second := nextTable_find (n := tableOf pgdir la) (f := d) addressable root trivial (tableOf_inside user)
      (by rw [tableOf_parent user]; exact found)
    rw [tableOf_index] at second
    simp only [second, ok_bind]

theorem getPte_spec (paged : Paged roots m) (root : pgdir ∈ roots) {la : Nat} (user : la < userTop) (create : Bool) :
    ∃ m', m.getPte pgdir la create = .ok ((m'.node (tableOf pgdir la)).map (fun t => (t, ptx la)), m') ∧ Grown roots pgdir m m' := by
  obtain ⟨m₁, first, grown⟩ := nextTable_spec (n := .dir pgdir (pdx1 la)) paged root trivial (dir_of_user user).1 rfl create
  rw [Mem.getPte]
  have first : m.nextTable pgdir (pdx1 la) create = .ok (m₁.node (.dir pgdir (pdx1 la)), m₁) := first
  rw [first, ok_bind]
  cases found : m₁.node (.dir pgdir (pdx1 la)) with
  | none =>
    have missing : m₁.node (tableOf pgdir la) = none := Radix.nodeAt_none trivial (by rw [tableOf_parent user]; exact found)
    refine ⟨m₁, ?_, grown⟩
    rw [missing]
    rfl
  | some d =>
    obtain ⟨m₂, second, grown'⟩ := nextTable_spec (n := tableOf pgdir la) (f := d) grown.paged root trivial (tableOf_inside user)
      (by rw [tableOf_parent user]; exact found) create
    rw [tableOf_index] at second
    refine ⟨m₂, ?_, grown.trans grown' root⟩
    simp only [second, ok_bind]

end Ucore
