import Ucore.Proofs.PageTable

/-! The functions that map, find and unmap a page. Each of them writes one leaf of the tree
at most, so the page tables of a page directory are a map from pages to entries. -/

namespace Ucore
open Lib

namespace Mem

/-- The entry that `get_pte` finds for the address, or zero if there is no page table for it. -/
def translation (m : Mem) (pgdir : Frame) (la : Nat) : Kern (BitVec 64) :=
  (m.getPte pgdir la false).map fun found => (found.1.map m.pte).getD 0

/-- The address has the same entry in both states, and `get_page` answers the same. -/
def SameAt (m m' : Mem) (pgdir : Frame) (la : Nat) : Prop :=
  m'.translation pgdir la = m.translation pgdir la ∧
    (m'.getPage pgdir la).map Prod.fst = (m.getPage pgdir la).map Prod.fst

/-- What the entry for the address maps is a page that is in use. -/
def Backed (m : Mem) (pgdir : Frame) (la : Nat) : Prop :=
  ∀ pte, m.translation pgdir la = .ok pte → valid pte = true →
    nbase ≤ pteFrame pte ∧ pteFrame pte < m.npage ∧ pteFrame pte ∈ m.used

/-- `ref` goes down by one, and a page whose `ref` becomes zero is not in use any more. -/
def dropped (m : Mem) (page : Frame) : Mem :=
  { m with
    used := if m.ref page - 1 = 0 then m.used.filter (· ∉ [page]) else m.used
    ref := Function.update m.ref page (m.ref page - 1) }

end Mem

variable {roots : Finset Frame} {m m' : Mem} {pgdir page t : Frame} {la va : Nat} {pte : BitVec 64} {code : Int}

/-- Only the leaf number `v` of the tree of `pgdir` is written. -/
structure Wrote (pgdir : Frame) (v : Nat) (pte : BitVec 64) (m m' : Mem) (t : Frame) : Prop where
  table : m.node (.table pgdir (v / 512)) = some t
  written : m'.word t (v % 512) = pte
  others : ∀ j, j ≠ v % 512 → m'.word t j = m.word t j
  same : ∀ q, q ≠ t → m'.word q = m.word q
  npage : m'.npage = m.npage
  heap : m'.blocks = m.blocks ∧ m'.kmallocs = m.kmallocs

section Wrote

variable {v : Nat} (unique : Radix.Unique entry 512 m.word top roots) (root : pgdir ∈ roots) (inside : v < userPages)
  (wrote : Wrote pgdir v pte m m' t)
include unique root inside wrote

theorem Wrote.node (n : Node Frame) (within : n.Inside top 512) (owned : n.owner ∈ roots) : m'.node n = m.node n :=
  Radix.nodeAt_write_leaf unique (Radix.slot_inside inside) root wrote.table within owned wrote.same

theorem Wrote.leaf {r : Frame} {v' : Nat} (within : v' < userPages) (owned : r ∈ roots) :
    m'.leaf r v' = if r = pgdir ∧ v' = v then pte else m.leaf r v' := by
  rw [← wrote.written]
  exact Radix.leafAt_write_leaf unique inside root wrote.table wrote.same wrote.others within owned

theorem Wrote.isTable (q : Frame) : m'.IsTable roots q ↔ m.IsTable roots q := by
  constructor
  · intro table
    obtain ⟨n, within, owned, found⟩ := table
    refine ⟨n, within, owned, ?_⟩
    rw [← found]
    exact (wrote.node unique root inside n within owned).symm
  · intro table
    obtain ⟨n, within, owned, found⟩ := table
    refine ⟨n, within, owned, ?_⟩
    rw [← found]
    exact wrote.node unique root inside n within owned

theorem Wrote.distinct : Radix.Unique entry 512 m'.word top roots := by
  intro n n' within within' owned owned' f found found'
  apply unique n n' within within' owned owned' f
  · rw [← found]
    exact (wrote.node unique root inside n within owned).symm
  · rw [← found']
    exact (wrote.node unique root inside n' within' owned').symm

theorem Wrote.addressable (addressable : m.Addressable roots) : m'.Addressable roots := by
  intro q table
  rw [wrote.npage]
  exact addressable q ((wrote.isTable unique root inside q).mp table)

end Wrote

theorem translation_eq (addressable : m.Addressable roots) (root : pgdir ∈ roots) (user : la < userTop) :
    m.translation pgdir la = .ok (m.leaf pgdir (la / pgSize)) := by
  rw [Mem.translation, getPte_find addressable root user]
  cases found : m.node (tableOf pgdir la) with
  | none => exact congrArg Except.ok (Radix.leafAt_none found).symm
  | some t => exact congrArg Except.ok (Radix.leafAt_some found).symm

theorem getPage_eq (addressable : m.Addressable roots) (root : pgdir ∈ roots) (user : la < userTop) :
    (m.getPage pgdir la).map Prod.fst =
      if valid (m.leaf pgdir (la / pgSize)) then (m.pte2page (m.leaf pgdir (la / pgSize))).map some else .ok none := by
  rw [Mem.getPage, getPte_find addressable root user, ok_bind]
  cases found : m.node (tableOf pgdir la) with
  | none =>
    have nothing : m.leaf pgdir (la / pgSize) = 0 := Radix.leafAt_none found
    rw [nothing]
    rfl
  | some t =>
    have here : m.pte (t, ptx la) = m.leaf pgdir (la / pgSize) := (Radix.leafAt_some found).symm
    simp only [Option.map_some, here]
    split
    · cases m.pte2page (m.leaf pgdir (la / pgSize)) with
      | error halt => rfl
      | ok page => rfl
    · rfl

theorem sameAt_of_leaf (addressable : m.Addressable roots) (addressable' : m'.Addressable roots) (root : pgdir ∈ roots)
    (user : la < userTop) (npage : m'.npage = m.npage) (leaf : m'.leaf pgdir (la / pgSize) = m.leaf pgdir (la / pgSize)) :
    m.SameAt m' pgdir la := by
  constructor
  · rw [translation_eq addressable root user, translation_eq addressable' root user, leaf]
  · rw [getPage_eq addressable root user, getPage_eq addressable' root user, leaf, Mem.pte2page, Mem.pte2page, Mem.pde2page,
      Mem.pde2page, npage]

theorem pte2page_some (isValid : valid pte = true) (low : nbase ≤ pteFrame pte) (high : pteFrame pte < m.npage) :
    m.pte2page pte = .ok (pteFrame pte) := by
  rw [Mem.pte2page, if_pos isValid, Mem.pde2page, if_neg (not_le.mpr high), if_neg (not_lt.mpr low)]

theorem pte2page_ok (found : m.pte2page pte = .ok page) : valid pte = true ∧ nbase ≤ page ∧ page < m.npage ∧ page = pteFrame pte := by
  unfold Mem.pte2page Mem.pde2page at found
  split at found
  next isValid =>
    split at found
    · cases found
    · split at found
      · cases found
      next high low =>
        cases found
        exact ⟨isValid, not_lt.mp low, not_le.mp high, rfl⟩
  · cases found

variable {ptep : Frame × Nat}

private theorem freePage_zero (inUse : page ∈ m.used) :
    (m.setRef page 0).freePage page = .ok { m with used := m.used.filter (· ∉ [page]), ref := Function.update m.ref page 0 } := by
  have zero : (fun q => if q ∈ [page] then 0 else Function.update m.ref page 0 q) = Function.update m.ref page 0 := by
    funext q
    by_cases own : q = page
    · simp [own]
    · simp [own]
  unfold Mem.freePage Mem.freePages
  rw [if_pos (by simpa [Mem.setRef] using inUse)]
  simp only [Mem.setRef, List.range'_one, zero]

/-- An entry that is valid gives up its page and becomes zero. -/
theorem pageRemovePte_valid (isValid : valid (m.pte ptep) = true) (low : nbase ≤ pteFrame (m.pte ptep))
    (high : pteFrame (m.pte ptep) < m.npage) (inUse : m.ref (pteFrame (m.pte ptep)) - 1 = 0 → pteFrame (m.pte ptep) ∈ m.used) :
    m.pageRemovePte ptep = .ok ((m.dropped (pteFrame (m.pte ptep))).setPte ptep 0) := by
  rw [Mem.pageRemovePte, if_pos isValid, pte2page_some isValid low high, ok_bind]
  generalize pteFrame (m.pte ptep) = page at low high inUse
  have ref : (m.setRef page (m.ref page - 1)).ref page = m.ref page - 1 := Function.update_self ..
  show (onlyIf ((m.setRef page (m.ref page - 1)).ref page = 0) (Mem.freePage page) (m.setRef page (m.ref page - 1)) >>=
    fun m => Except.ok (m.setPte ptep 0)) = _
  rw [ref, Mem.dropped]
  by_cases last : m.ref page - 1 = 0
  · rw [last, onlyIf, if_pos rfl, freePage_zero (inUse last), if_pos rfl]
    rfl
  · rw [onlyIf, if_neg last, if_neg last]
    rfl

theorem pageRemovePte_invalid (invalid : ¬ valid (m.pte ptep) = true) : m.pageRemovePte ptep = .ok m := by
  rw [Mem.pageRemovePte, if_neg invalid]

theorem pageRemovePte_ok (removed : m.pageRemovePte ptep = .ok m') :
    (¬ valid (m.pte ptep) = true ∧ m' = m) ∨
      (valid (m.pte ptep) = true ∧ nbase ≤ pteFrame (m.pte ptep) ∧ pteFrame (m.pte ptep) < m.npage ∧
        m' = (m.dropped (pteFrame (m.pte ptep))).setPte ptep 0) := by
  by_cases isValid : valid (m.pte ptep) = true
  · obtain ⟨page, found, rest⟩ := bind_ok (by rw [Mem.pageRemovePte, if_pos isValid] at removed; exact removed)
    obtain ⟨_, low, high, rfl⟩ := pte2page_ok found
    have inUse : m.ref (pteFrame (m.pte ptep)) - 1 = 0 → pteFrame (m.pte ptep) ∈ m.used := by
      intro last
      by_contra free
      obtain ⟨m₁, freed, _⟩ := bind_ok rest
      have ref : (m.setRef (pteFrame (m.pte ptep)) (m.ref (pteFrame (m.pte ptep)) - 1)).ref (pteFrame (m.pte ptep)) = 0 := by
        rw [← last]
        exact Function.update_self ..
      rw [onlyIf, if_pos ref, Mem.freePage, Mem.freePages, if_neg (by simpa [Mem.setRef] using free)] at freed
      cases freed
    rw [pageRemovePte_valid isValid low high inUse] at removed
    exact .inr ⟨isValid, low, high, (Except.ok.inj removed).symm⟩
  · rw [pageRemovePte_invalid isValid] at removed
    exact .inl ⟨isValid, (Except.ok.inj removed).symm⟩

/-- The words of memory after a write to an entry. -/
theorem setPte_word (m : Mem) (ptep : Frame × Nat) (pte : BitVec 64) :
    (m.setPte ptep pte).word ptep.1 ptep.2 = pte ∧ (∀ j, j ≠ ptep.2 → (m.setPte ptep pte).word ptep.1 j = m.word ptep.1 j) ∧
      ∀ q, q ≠ ptep.1 → (m.setPte ptep pte).word q = m.word q := by
  refine ⟨?_, ?_, ?_⟩
  · simp [Mem.setPte, Mem.setWord]
  · intro j other
    simp [Mem.setPte, Mem.setWord, other]
  · intro q other
    simp [Mem.setPte, Mem.setWord, other]

theorem pageRemove_there (addressable : m.Addressable roots) (root : pgdir ∈ roots) (user : la < userTop)
    (found : m.node (tableOf pgdir la) = some t) : m.pageRemove pgdir la = m.pageRemovePte (t, ptx la) := by
  rw [Mem.pageRemove, getPte_find addressable root user, ok_bind, found]
  rfl

theorem pageRemove_missing (addressable : m.Addressable roots) (root : pgdir ∈ roots) (user : la < userTop)
    (missing : m.node (tableOf pgdir la) = none) : m.pageRemove pgdir la = .ok m := by
  rw [Mem.pageRemove, getPte_find addressable root user, ok_bind, missing]
  rfl

/-- `page_remove` makes a valid entry zero and leaves any other as it is. -/
theorem pageRemove_ok (addressable : m.Addressable roots) (root : pgdir ∈ roots) (user : la < userTop)
    (removed : m.pageRemove pgdir la = .ok m') :
    (¬ valid (m.leaf pgdir (la / pgSize)) = true ∧ m' = m) ∨
      (valid (m.leaf pgdir (la / pgSize)) = true ∧ nbase ≤ pteFrame (m.leaf pgdir (la / pgSize)) ∧
        pteFrame (m.leaf pgdir (la / pgSize)) < m.npage ∧
        ∃ t, Wrote pgdir (la / pgSize) 0 m m' t ∧ m'.used = (m.dropped (pteFrame (m.leaf pgdir (la / pgSize)))).used ∧
          m'.ref = (m.dropped (pteFrame (m.leaf pgdir (la / pgSize)))).ref) := by
  cases found : m.node (tableOf pgdir la) with
  | none =>
    rw [pageRemove_missing addressable root user found] at removed
    have nothing : m.leaf pgdir (la / pgSize) = 0 := Radix.leafAt_none found
    rw [nothing]
    exact .inl ⟨by decide, (Except.ok.inj removed).symm⟩
  | some t =>
    rw [pageRemove_there addressable root user found] at removed
    have here : m.pte (t, ptx la) = m.leaf pgdir (la / pgSize) := (Radix.leafAt_some found).symm
    rcases pageRemovePte_ok removed with ⟨invalid, same⟩ | ⟨isValid, low, high, result⟩
    · rw [here] at invalid
      exact .inl ⟨invalid, same⟩
    · rw [here] at isValid low high result
      obtain ⟨written, others, same⟩ := setPte_word (m.dropped (pteFrame (m.leaf pgdir (la / pgSize)))) (t, ptx la) 0
      rw [← result] at written others same
      refine .inr ⟨isValid, low, high, t, ⟨found, written, others, same, ?_, ?_⟩, ?_, ?_⟩
      · rw [result]
        rfl
      · rw [result]
        exact ⟨rfl, rfl⟩
      · rw [result]
        rfl
      · rw [result]
        rfl

variable {perm : BitVec 32}

/-- What `page_insert` has done when it comes to write the entry: the page counts one more
mapping, and what the entry mapped one less. -/
def Mem.swapped (m : Mem) (page : Frame) (pte : BitVec 64) : Mem :=
  if valid pte = true then
    if pteFrame pte = page then m.setRef page (m.ref page) else (m.setRef page (m.ref page + 1)).dropped (pteFrame pte)
  else m.setRef page (m.ref page + 1)

theorem swapped_word (m : Mem) (page : Frame) (pte : BitVec 64) :
    (m.swapped page pte).word = m.word ∧ (m.swapped page pte).npage = m.npage ∧
      (m.swapped page pte).blocks = m.blocks ∧ (m.swapped page pte).kmallocs = m.kmallocs := by
  unfold Mem.swapped
  split
  · split
    · exact ⟨rfl, rfl, rfl, rfl⟩
    · exact ⟨rfl, rfl, rfl, rfl⟩
  · exact ⟨rfl, rfl, rfl, rfl⟩

private theorem setPte_setPte (m : Mem) (ptep : Frame × Nat) (first second : BitVec 64) :
    (m.setPte ptep first).setPte ptep second = m.setPte ptep second := by
  simp [Mem.setPte, Mem.setWord]

private theorem insert_at (m : Mem) (page : Frame) (ptep : Frame × Nat) (pte : BitVec 64)
    (inserted : (onlyIf (valid (m.pte ptep) = true) (Mem.replacePage page ptep) (m.setRef page (m.ref page + 1)) >>=
      fun m => Except.ok ((0 : Int), m.setPte ptep pte)) = .ok (code, m')) :
    code = 0 ∧ m' = (m.swapped page (m.pte ptep)).setPte ptep pte := by
  obtain ⟨m₁, replaced, result⟩ := bind_ok inserted
  cases result
  refine ⟨rfl, ?_⟩
  unfold onlyIf at replaced
  rw [Mem.swapped]
  split at replaced
  next isValid =>
    rw [if_pos isValid]
    obtain ⟨p, found, rest⟩ := bind_ok replaced
    obtain ⟨_, low, high, frame⟩ := pte2page_ok found
    have frame : p = pteFrame (m.pte ptep) := frame
    split at rest
    next same =>
      rw [if_pos (frame.symm.trans same)]
      cases rest
      simp [Mem.setRef]
    next other =>
      rw [if_neg (fun same => other (frame.trans same))]
      rcases pageRemovePte_ok rest with ⟨invalid, _⟩ | ⟨_, _, _, removed⟩
      · exact absurd isValid invalid
      · rw [removed]
        exact setPte_setPte _ _ _ _
  next invalid =>
    rw [if_neg invalid]
    cases replaced
    rfl

/-- `page_insert` adds tables, and then writes the entry if there is a table for it. -/
theorem pageInsert_ok (paged : Paged roots m) (root : pgdir ∈ roots) (user : la < userTop)
    (inserted : m.pageInsert pgdir page la perm = .ok (code, m')) :
    ∃ m₁, Grown roots pgdir m m₁ ∧
      (code = -eNoMem ∧ m' = m₁ ∧ m₁.node (tableOf pgdir la) = none ∨
        code = 0 ∧ ∃ t, Wrote pgdir (la / pgSize) (pteCreate page (1 ||| perm)) m₁ m' t ∧
          m'.used = (m₁.swapped page (m.leaf pgdir (la / pgSize))).used ∧
          m'.ref = (m₁.swapped page (m.leaf pgdir (la / pgSize))).ref) := by
  obtain ⟨m₁, found, grown⟩ := getPte_spec paged root user true
  refine ⟨m₁, grown, ?_⟩
  rw [Mem.pageInsert, found, ok_bind] at inserted
  cases place : m₁.node (tableOf pgdir la) with
  | none =>
    rw [place] at inserted
    cases inserted
    exact .inl ⟨rfl, rfl, rfl⟩
  | some t =>
    rw [place] at inserted
    obtain ⟨rfl, result⟩ := insert_at m₁ page (t, ptx la) (pteCreate page (1 ||| perm)) inserted
    have here : m₁.pte (t, ptx la) = m.leaf pgdir (la / pgSize) := by
      rw [← grown.leaf pgdir root _ (page_of_user user)]
      exact (Radix.leafAt_some place).symm
    rw [here] at result
    obtain ⟨written, others, same⟩ := setPte_word (m₁.swapped page (m.leaf pgdir (la / pgSize))) (t, ptx la) (pteCreate page (1 ||| perm))
    rw [← result] at written others same
    rw [(swapped_word ..).1] at others same
    refine .inr ⟨rfl, t, ⟨place, written, others, same, ?_, ?_⟩, ?_, ?_⟩
    · rw [result]
      exact (swapped_word ..).2.1
    · rw [result]
      exact (swapped_word ..).2.2
    · rw [result]
      rfl
    · rw [result]
      rfl

theorem pageInsert_returns (page : Frame) (perm : BitVec 32) (paged : Paged roots m) (root : pgdir ∈ roots) (user : la < userTop) (backed : m.Backed pgdir la) :
    ∃ code m', m.pageInsert pgdir page la perm = .ok (code, m') := by
  obtain ⟨m₁, found, grown⟩ := getPte_spec paged root user true
  rw [Mem.pageInsert, found, ok_bind]
  cases place : m₁.node (tableOf pgdir la) with
  | none => exact ⟨_, _, rfl⟩
  | some t =>
    have here : m₁.pte (t, ptx la) = m.leaf pgdir (la / pgSize) := by
      rw [← grown.leaf pgdir root _ (page_of_user user)]
      exact (Radix.leafAt_some place).symm
    have backed := backed _ (translation_eq paged.addressable root user)
    rw [← here, ← grown.npage] at backed
    obtain ⟨new, used, _⟩ := grown.used
    generalize counted : m₁.setRef page (m₁.ref page + 1) = m₂
    have same : m₂.pte (t, ptx la) = m₁.pte (t, ptx la) ∧ m₂.npage = m₁.npage ∧ m₂.used = m₁.used := by
      rw [← counted]
      exact ⟨rfl, rfl, rfl⟩
    show ∃ code m', (onlyIf (valid ((m₁.setRef page (m₁.ref page + 1)).pte (t, ptx la)) = true) (Mem.replacePage page (t, ptx la))
      (m₁.setRef page (m₁.ref page + 1)) >>= fun m => Except.ok (0, m.setPte (t, ptx la) (pteCreate page (1 ||| perm)))) = .ok (code, m')
    rw [counted, same.1]
    by_cases isValid : valid (m₁.pte (t, ptx la)) = true
    · obtain ⟨low, high, inUse⟩ := backed isValid
      have there : pteFrame (m₂.pte (t, ptx la)) ∈ m₂.used := by
        rw [same.1, same.2.2, used]
        exact List.mem_append_right _ inUse
      rw [← same.1] at isValid low high
      rw [← same.2.1] at high
      rw [onlyIf, ← same.1, if_pos isValid, Mem.replacePage, pte2page_some isValid low high, ok_bind]
      split
      · exact ⟨_, _, rfl⟩
      · rw [pageRemovePte_valid isValid low high fun _ => there]
        exact ⟨_, _, rfl⟩
    · rw [onlyIf, if_neg isValid]
      exact ⟨_, _, rfl⟩

theorem pageRemove_returns (addressable : m.Addressable roots) (root : pgdir ∈ roots) (user : la < userTop)
    (backed : m.Backed pgdir la) : ∃ m', m.pageRemove pgdir la = .ok m' := by
  cases found : m.node (tableOf pgdir la) with
  | none => exact ⟨m, pageRemove_missing addressable root user found⟩
  | some t =>
    rw [pageRemove_there addressable root user found]
    have here : m.pte (t, ptx la) = m.leaf pgdir (la / pgSize) := (Radix.leafAt_some found).symm
    have backed := backed _ (translation_eq addressable root user)
    rw [← here] at backed
    by_cases isValid : valid (m.pte (t, ptx la)) = true
    · obtain ⟨low, high, inUse⟩ := backed isValid
      exact ⟨_, pageRemovePte_valid isValid low high fun _ => inUse⟩
    · exact ⟨m, pageRemovePte_invalid isValid⟩

theorem Grown.sameAt (grown : Grown roots pgdir m m') (paged : Paged roots m) (root : pgdir ∈ roots) (user : la < userTop) :
    m.SameAt m' pgdir la :=
  sameAt_of_leaf paged.addressable grown.paged.addressable root user grown.npage (grown.leaf pgdir root _ (page_of_user user))

/-- Page tables behave as a map from the pages of user space to entries. -/
theorem page_map (paged : Paged roots m) (root : pgdir ∈ roots) {la la2 : Nat} (user : la < userTop) (user2 : la2 < userTop)
    (apart : la / pgSize ≠ la2 / pgSize) {page : Frame} (managed : nbase ≤ page ∧ page < m.npage) {perm : BitVec 32}
    (flags : perm.toNat < 2 ^ 10) :
    (∀ m', m.pageInsert pgdir page la perm = .ok (0, m') →
      (m'.getPage pgdir la).map Prod.fst = .ok (some page) ∧
        (∃ pte, m'.translation pgdir la = .ok pte ∧ pte &&& 0x3FF = pteV ||| perm.setWidth 64) ∧ m.SameAt m' pgdir la2) ∧
    (∀ m', m.pageRemove pgdir la = .ok m' → (m'.getPage pgdir la).map Prod.fst = .ok none ∧ m.SameAt m' pgdir la2) ∧
    (∀ m', m.pageInsert pgdir page la perm = .ok (-eNoMem, m') →
      (∀ va, va < userTop → m.SameAt m' pgdir va) ∧ ∀ f, ¬ m'.IsTable {pgdir} f → m'.ref f = m.ref f) ∧
    (∃ ptep, m.getPte pgdir la false = .ok (ptep, m)) ∧
    (m.Backed pgdir la → (∃ code m', m.pageInsert pgdir page la perm = .ok (code, m') ∧ (code = 0 ∨ code = -eNoMem)) ∧
      ∃ m', m.pageRemove pgdir la = .ok m') := by
  have inside := page_of_user user
  have inside2 := page_of_user user2
  refine ⟨?_, ?_, ?_, ⟨_, getPte_find paged.addressable root user⟩, ?_⟩
  · intro m' inserted
    obtain ⟨m₁, grown, ⟨failed, _⟩ | ⟨_, t, wrote, _⟩⟩ := pageInsert_ok paged root user inserted
    · cases failed
    have addressable' := wrote.addressable grown.paged.unique root inside grown.paged.addressable
    have leaf : m'.leaf pgdir (la / pgSize) = pteCreate page (1 ||| perm) := by
      rw [wrote.leaf grown.paged.unique root inside inside root, if_pos ⟨rfl, rfl⟩]
    have small : page < 2 ^ 52 := lt_of_lt_of_le managed.2 m.npage_le
    have frame : pteFrame (pteCreate page (1 ||| perm)) = page := pteFrame_pteCreate small (or_flags flags)
    refine ⟨?_, ⟨_, ?_, pteCreate_low page flags⟩, ?_⟩
    · rw [getPage_eq addressable' root user, leaf, if_pos (valid_pteCreate ..), pte2page_some (valid_pteCreate ..), frame]
      · rfl
      · rw [frame]
        exact managed.1
      · rw [frame, wrote.npage, grown.npage]
        exact managed.2
    · rw [translation_eq addressable' root user, leaf]
    · apply sameAt_of_leaf paged.addressable addressable' root user2 (wrote.npage.trans grown.npage)
      rw [wrote.leaf grown.paged.unique root inside inside2 root, if_neg fun same => apart same.2.symm]
      exact grown.leaf pgdir root _ inside2
  · intro m' removed
    rcases pageRemove_ok paged.addressable root user removed with ⟨invalid, rfl⟩ | ⟨isValid, _, _, t, wrote, _⟩
    · refine ⟨?_, rfl, rfl⟩
      rw [getPage_eq paged.addressable root user, if_neg invalid]
    · have addressable' := wrote.addressable paged.unique root inside paged.addressable
      have leaf : m'.leaf pgdir (la / pgSize) = 0 := by
        rw [wrote.leaf paged.unique root inside inside root, if_pos ⟨rfl, rfl⟩]
      refine ⟨?_, ?_⟩
      · rw [getPage_eq addressable' root user, leaf]
        rfl
      · apply sameAt_of_leaf paged.addressable addressable' root user2 wrote.npage
        rw [wrote.leaf paged.unique root inside inside2 root, if_neg fun same => apart same.2.symm]
  · intro m' inserted
    obtain ⟨m₁, grown, ⟨_, rfl, _⟩ | ⟨worked, _⟩⟩ := pageInsert_ok paged root user inserted
    · refine ⟨fun va user => grown.sameAt paged root user, ?_⟩
      intro f outside
      apply grown.ref
      intro fresh
      obtain ⟨new, used, _, tables⟩ := grown.used
      rw [used] at fresh
      rcases List.mem_append.mp fresh.1 with inNew | old
      · exact outside (tables f inNew).2
      · exact fresh.2 old
    · cases worked
  · intro backed
    refine ⟨?_, pageRemove_returns paged.addressable root user backed⟩
    obtain ⟨code, m', inserted⟩ := pageInsert_returns page perm paged root user backed
    refine ⟨code, m', inserted, ?_⟩
    obtain ⟨m₁, _, ⟨failed, _⟩ | ⟨worked, _⟩⟩ := pageInsert_ok paged root user inserted
    · exact .inr failed
    · exact .inl worked

theorem Paged.empty (zero : ∀ j, m.word pgdir j = 0) (inUse : pgdir ∈ m.used) (managed : nbase ≤ pgdir ∧ pgdir < m.npage) :
    Paged {pgdir} m := by
  have single (n : Node Frame) (owned : n.owner ∈ ({pgdir} : Finset Frame)) (f : Frame) (found : m.node n = some f) :
      n = .root pgdir ∧ f = pgdir := by
    rw [Finset.mem_singleton] at owned
    cases n with
    | root r =>
      obtain rfl : r = pgdir := owned
      exact ⟨rfl, (Option.some.inj found).symm⟩
    | dir r i =>
      obtain rfl : r = pgdir := owned
      rw [Mem.node, Radix.nodeAt, zero] at found
      cases found
    | table r s =>
      obtain rfl : r = pgdir := owned
      rw [Mem.node, Radix.nodeAt, zero] at found
      cases found
  constructor
  · intro n n' _ _ owned owned' f found found'
    rw [(single n owned f found).1, (single n' owned' f found').1]
  · intro f table
    obtain ⟨n, _, owned, found⟩ := table
    rw [(single n owned f found).2]
    exact ⟨inUse, managed⟩

/-- A memory of eight pages, whose first page is an empty page directory. -/
def Mem.eightPages : Mem where
  npage := nbase + 8
  word _ _ := 0
  ref _ := 0
  used := [nbase]
  pages call := some (nbase + 1 + call)
  blocks := []
  kmallocs _ := none
  npage_le := by decide

theorem page_map_eightPages :
    ∃ m', Mem.eightPages.pageInsert nbase (nbase + 5) 0x200000 0x1E = .ok (0, m') ∧
      (m'.getPage nbase 0x200000).map Prod.fst = .ok (some (nbase + 5)) ∧ Mem.eightPages.SameAt m' nbase 0x201000 := by
  have paged : Paged {nbase} Mem.eightPages := .empty (fun _ => rfl) (by decide) (by decide)
  obtain ⟨inserts, _⟩ := page_map paged (Finset.mem_singleton_self nbase) (by decide : 0x200000 < userTop) (by decide : 0x201000 < userTop)
    (by decide) (by decide : nbase ≤ nbase + 5 ∧ nbase + 5 < Mem.eightPages.npage) (by decide : (0x1E : BitVec 32).toNat < 2 ^ 10)
  have mapped : (Mem.eightPages.pageInsert nbase (nbase + 5) 0x200000 0x1E).map Prod.fst = .ok 0 := by decide +kernel
  cases inserted : Mem.eightPages.pageInsert nbase (nbase + 5) 0x200000 0x1E with
  | error halt =>
    rw [inserted] at mapped
    cases mapped
  | ok result =>
    rw [inserted] at mapped
    obtain ⟨code, m'⟩ := result
    obtain rfl : code = 0 := Except.ok.inj mapped
    obtain ⟨answer, _, same⟩ := inserts m' inserted
    exact ⟨m', rfl, answer, same⟩

end Ucore
