import Mathlib
import Ucore.Lib.Triple
import Ucore.Proofs.Ownership

/-! The loops of `load_icode` over a segment. What they build stands beside the address spaces in use, and its pages show what the file
describes: the bytes of the segment and the zeros behind them. -/

namespace Ucore
open Lib

/-- An address space that is being built and shares nothing. -/
structure Raised (roots : Finset Frame) (other : Set Frame) (beside : List Block) (block : Block) (mm : MmStruct) (c : Frame) (m₀ m : Mem) : Prop
    extends Annexed roots other beside block mm c m₀ m where
  unshared : Unshared (insert c roots) m

/-- The kernel can read `n` bytes of the file from `offset` on without a halt that is `bad`. -/
def Image.Reads (image : Image) (bad : Halt → Prop) (satp : Frame) (offset n : Nat) : Prop :=
  ∀ m : Mem, (∀ i < 511, m.word satp i = 0) → ∀ i < n, Ensures bad (image.byte satp m (offset + i)) fun _ => True

/-- What the file puts at the address `a` of a segment: its bytes, and zeros behind them. -/
def ProgHdr.Puts (header : ProgHdr) (image : Image) (satp : Frame) (m : Mem) (a : Nat) (value : BitVec 8) : Prop :=
  if a < header.pVa + header.pFilesz then image.byte satp m (header.pOffset + (a - header.pVa)) = .ok value else value = 0

/-- The pages of the segment show what the file puts there, up to the address `stop`. -/
def Mem.Shows (m : Mem) (c : Frame) (header : ProgHdr) (image : Image) (satp : Frame) (m₀ : Mem) (stop : Nat) : Prop :=
  ∀ a, header.pVa ≤ a → a < stop → ∃ page, m.target (c, a / pgSize) = some page ∧ m.leaf c (a / pgSize) = pteCreate page (1 ||| header.perm) ∧
    header.Puts image satp m₀ a (m.byte page (a % pgSize))

/-- The pages that `c` maps are the same in both states, with the same words. -/
def Keeps (c : Frame) (m m' : Mem) : Prop := ∀ v < userPages, ∀ f, m.target (c, v) = some f → m'.leaf c v = m.leaf c v ∧ m'.word f = m.word f

/-- The cursor of the loops over a segment: up to `start` its pages show what the file puts there, and `page` is the one in front of `la`. -/
structure Cursor.Fills (cursor : Cursor) (header : ProgHdr) (image : Image) (satp : Frame) (m₀ : Mem) (vma : Vma) (c : Frame) (mₛ m : Mem) : Prop where
  aligned : cursor.la % pgSize = 0
  low : vma.vmStart ≤ cursor.la
  begun : header.pVa ≤ cursor.start
  behind : cursor.start ≤ cursor.la ∨ cursor.start = header.pVa
  within : cursor.start < cursor.la + pgSize
  near : cursor.la ≤ cursor.start + pgSize
  held : cursor.start < cursor.la → cursor.page.isSome
  last : ∀ page ∈ cursor.page, vma.vmStart + pgSize ≤ cursor.la ∧ m.target (c, cursor.la / pgSize - 1) = some page ∧
    m.leaf c (cursor.la / pgSize - 1) = pteCreate page (1 ||| header.perm)
  shows : m.Shows c header image satp m₀ cursor.start
  keeps : Keeps c mₛ m

variable {roots : Finset Frame} {held other : Set Frame} {beside : List Block} {block : Block} {mm mm' : MmStruct} {m m₀ m₁ m₂ mₛ m' : Mem}
  {c page satp f : Frame} {vma : Vma} {cursor cursor' : Cursor} {image : Image} {header : ProgHdr} {perm : BitVec 32} {pte : BitVec 64} {bad : Halt → Prop}
  {off o src size stop fuel v : Nat} {value : BitVec 8}

theorem setFrame_self (m : Mem) (page : Frame) : m.setFrame page (m.word page) = m := by
  rw [Mem.setFrame, Function.update_eq_self]

theorem setFrame_setFrame (m : Mem) (page : Frame) (first second : Nat → BitVec 64) : (m.setFrame page first).setFrame page second = m.setFrame page second := by
  simp [Mem.setFrame]

theorem copyBytes_frame (copied : m.copyBytes image satp page off src size = .ok m') : ∃ words, m' = m.setFrame page words := by
  induction size generalizing off src m with
  | zero =>
    cases copied
    exact ⟨_, (setFrame_self _ page).symm⟩
  | succ size ih =>
    obtain ⟨value, _, copied⟩ := bind_ok copied
    obtain ⟨words, rfl⟩ := ih copied
    exact ⟨words, setFrame_setFrame m page _ words⟩

theorem zeroBytes_frame (m : Mem) (page : Frame) (off size : Nat) : ∃ words, m.zeroBytes page off size = m.setFrame page words := by
  induction size generalizing off m with
  | zero => exact ⟨_, (setFrame_self m page).symm⟩
  | succ size ih =>
    obtain ⟨words, zeroed⟩ := ih (m.setByte page off 0) (off + 1)
    exact ⟨words, zeroed.trans (setFrame_setFrame m page _ words)⟩

private theorem getByte_setByte (word : BitVec 64) {i j : Nat} (wide : i < 8) (wide' : j < 8) (value : BitVec 8) :
    getByte (setByte word i value) j = if j = i then value else getByte word j := by
  have ones : ∀ n, (0xFF#64).getLsbD n = decide (n < 8) := by
    intro n
    have power : 0xFF = 2 ^ 8 - 1 := rfl
    rw [BitVec.getLsbD_ofNat, power, Nat.testBit_two_pow_sub_one]
    simp only [Bool.and_eq_right_iff_imp, decide_eq_true_eq]
    omega
  refine BitVec.eq_of_getLsbD_eq fun k small => ?_
  unfold getByte setByte
  rw [BitVec.getLsbD_setWidth, BitVec.getLsbD_ushiftRight, BitVec.getLsbD_or, BitVec.getLsbD_and, BitVec.getLsbD_not, BitVec.getLsbD_shiftLeft,
    BitVec.getLsbD_shiftLeft, BitVec.getLsbD_setWidth, ones]
  split
  next same =>
    have place : 8 * j + k - 8 * i = k := by omega
    rw [place]
    simp only [small, decide_true, Bool.true_and]
    have inside : 8 * j + k < 64 := by omega
    have above : ¬ 8 * j + k < 8 * i := by omega
    simp [inside, above]
    omega
  next other =>
    rw [BitVec.getLsbD_setWidth, BitVec.getLsbD_ushiftRight]
    have inside : 8 * j + k < 64 := by omega
    by_cases above : 8 * j + k < 8 * i
    · simp [inside, above]
    · have beyond : ¬ 8 * j + k - 8 * i < 8 := by omega
      have outside : value.getLsbD (8 * j + k - 8 * i) = false := BitVec.getLsbD_of_ge _ _ (by omega)
      simp [inside, above, beyond, outside]

theorem byte_setByte (m : Mem) (page f : Frame) (off o : Nat) (value : BitVec 8) :
    (m.setByte page off value).byte f o = if f = page ∧ o = off then value else m.byte f o := by
  unfold Mem.byte Mem.setByte Mem.setWord
  dsimp only
  by_cases here : f = page
  · rw [here, Function.update_self]
    by_cases word : o / 8 = off / 8
    · rw [word, Function.update_self, getByte_setByte _ (Nat.mod_lt _ (by decide)) (Nat.mod_lt _ (by decide))]
      have index : o % 8 = off % 8 ↔ o = off := by omega
      simp only [index, true_and]
    · rw [Function.update_of_ne word, if_neg fun both => word (congrArg (· / 8) both.2)]
  · rw [Function.update_of_ne here, if_neg fun both => here both.1]

theorem byte_word (same : m'.word f = m.word f) (o : Nat) : m'.byte f o = m.byte f o := by
  rw [Mem.byte, Mem.byte, same]

theorem setFrame_word_ne {words : Nat → BitVec 64} (apart : f ≠ page) : (m.setFrame page words).word f = m.word f := by
  unfold Mem.setFrame
  exact Function.update_of_ne apart words m.word

theorem byte_bare {satp' : Frame} (zero : ∀ i < 511, m.word satp i = 0) (zero' : ∀ i < 511, m'.word satp' i = 0) (offset : Nat) :
    image.byte satp m offset = image.byte satp' m' offset := by
  unfold Image.byte
  dsimp only
  split
  · rfl
  next low => rw [walk_zero zero (not_le.mp low), walk_zero zero' (not_le.mp low)]

theorem copyBytes_bytes (zero : ∀ i < 511, m.word satp i = 0) (apart : page ≠ satp) (copied : m.copyBytes image satp page off src size = .ok m') :
    (∀ o, o < off ∨ off + size ≤ o → m'.byte page o = m.byte page o) ∧ ∀ i < size, image.byte satp m (src + i) = .ok (m'.byte page (off + i)) := by
  induction size generalizing off src m with
  | zero =>
    cases copied
    exact ⟨fun _ _ => rfl, fun i impossible => absurd impossible (Nat.not_lt_zero i)⟩
  | succ size ih =>
    obtain ⟨value, read, copied⟩ := bind_ok copied
    have zero₁ : ∀ i < 511, (m.setByte page off value).word satp i = 0 := by
      intro i low
      unfold Mem.setByte Mem.setWord
      dsimp only
      rw [Function.update_of_ne apart.symm]
      exact zero i low
    obtain ⟨others, bytes⟩ := ih zero₁ copied
    refine ⟨fun o outside => ?_, fun i inside => ?_⟩
    · rw [others o (by omega), byte_setByte, if_neg (by omega)]
    · cases i with
      | zero =>
        rw [Nat.add_zero, Nat.add_zero, others off (.inl (Nat.lt_succ_self off)), byte_setByte, if_pos ⟨rfl, rfl⟩]
        exact read
      | succ i =>
        have next := bytes i (by omega)
        rw [byte_bare zero₁ zero] at next
        rw [Nat.add_comm i 1, ← Nat.add_assoc, ← Nat.add_assoc]
        exact next

theorem zeroBytes_bytes (m : Mem) (page : Frame) (off size o : Nat) :
    (m.zeroBytes page off size).byte page o = if off ≤ o ∧ o < off + size then 0 else m.byte page o := by
  induction size generalizing off m with
  | zero =>
    rw [if_neg (by omega)]
    rfl
  | succ size ih =>
    rw [Mem.zeroBytes, ih, byte_setByte]
    by_cases first : o = off
    · rw [if_neg (by omega), if_pos ⟨rfl, first⟩, if_pos (by omega)]
    · have same : off + 1 ≤ o ∧ o < off + 1 + size ↔ off ≤ o ∧ o < off + (size + 1) := by omega
      have away : ¬ (page = page ∧ o = off) := fun both => first both.2
      rw [if_neg away]
      simp only [same]

theorem byte_wrap (image : Image) (satp : Frame) (m : Mem) (offset : Nat) : image.byte satp m (wrap offset) = image.byte satp m offset := by
  unfold Image.byte
  have place : wrap (image.binary + wrap offset) = wrap (image.binary + offset) := by
    unfold wrap
    omega
  have inside : wrap (wrap offset) = wrap offset := Nat.mod_mod _ _
  rw [place, inside]

theorem copyBytes_reads (zero : ∀ i < 511, m.word satp i = 0) (apart : page ≠ satp) (reads : image.Reads bad satp src size) :
    Ensures bad (m.copyBytes image satp page off src size) fun _ => True := by
  induction size generalizing off src m with
  | zero => exact .ok trivial
  | succ size ih =>
    refine (reads m zero 0 (Nat.succ_pos size)).bind fun value _ => ih ?_ fun m' zero' i inside => ?_
    · unfold Mem.setByte Mem.setWord
      dsimp only
      rw [Function.update_of_ne apart.symm]
      exact zero
    · have next := reads m' zero' (i + 1) (Nat.succ_lt_succ inside)
      rw [Nat.add_right_comm]
      exact next

theorem minus_of_le {a b : Nat} (less : b ≤ a) (word : a < 2 ^ 64) : minus a b = a - b := by
  unfold minus wrap
  omega

theorem memcpyPage_eq (fits : off + size ≤ pgSize) : m.memcpyPage image satp page off src size = m.copyBytes image satp page off src size :=
  if_neg (not_lt.mpr fits)

theorem memsetPage_eq (fits : off + size ≤ pgSize) : m.memsetPage page off size = .ok (m.zeroBytes page off size) :=
  if_neg (not_lt.mpr fits)

section Size

variable (ahead : cursor.la ≤ cursor.start) (before : cursor.start < stop) (user : stop ≤ userTop) (within : cursor.start < cursor.la + pgSize)
include ahead before user within

theorem Cursor.size_eq : cursor.size stop = min stop (cursor.la + pgSize) - cursor.start := by
  unfold userTop at user
  have off : minus cursor.start cursor.la = cursor.start - cursor.la := minus_of_le ahead (by omega)
  have goes : wrap (cursor.la + pgSize) = cursor.la + pgSize := by
    unfold wrap pgSize
    omega
  have rest : minus pgSize (cursor.start - cursor.la) = pgSize - (cursor.start - cursor.la) := minus_of_le (by omega) (by decide)
  unfold Cursor.size
  dsimp only
  rw [off, goes, rest]
  unfold pgSize at within ⊢
  split
  next early =>
    rw [minus_of_le early.le (by omega), minus_of_le (by omega) (by omega)]
    omega
  next => omega

theorem Cursor.size_fits : minus cursor.start cursor.la + cursor.size stop ≤ pgSize := by
  rw [Cursor.size_eq ahead before user within]
  unfold userTop at user
  rw [minus_of_le ahead (by omega)]
  omega

theorem Cursor.next_eq (page : Frame) :
    (cursor.next page (cursor.size stop)).start = min stop (cursor.la + pgSize) ∧ (cursor.next page (cursor.size stop)).la = cursor.la + pgSize := by
  unfold Cursor.next
  dsimp only
  rw [Cursor.size_eq ahead before user within]
  unfold userTop at user
  unfold wrap
  unfold pgSize at within ⊢
  omega

omit within in
/-- Where the byte at `a` is in the page at `la`. -/
theorem Cursor.offset_eq {a : Nat} (aligned : cursor.la % pgSize = 0) (low : cursor.start ≤ a) (high : a < cursor.la + pgSize) :
    a % pgSize = minus cursor.start cursor.la + (a - cursor.start) := by
  unfold userTop at user
  rw [minus_of_le ahead (by omega)]
  unfold pgSize at aligned high ⊢
  omega

end Size

theorem ProgHdr.perm_flags (header : ProgHdr) : header.perm.toNat < 2 ^ 10 := by
  unfold ProgHdr.perm
  split <;> split <;> split <;> decide

theorem Raised.write (raised : Raised roots other beside block mm c m₀ m) {v : Nat} (inside : v < userPages) (here : m.target (c, v) = some page)
    (words : Nat → BitVec 64) : Raised roots other beside block mm c m₀ (m.setFrame page words) := by
  obtain ⟨annexed, unshared⟩ := raised.toAnnexed.write raised.unshared inside here words
  exact ⟨annexed, unshared⟩

theorem Keeps.refl : Keeps c m m := fun _ _ _ _ => ⟨rfl, rfl⟩

theorem Keeps.target (keeps : Keeps c m m') (inside : v < userPages) (here : m.target (c, v) = some f) : m'.target (c, v) = some f := by
  rw [Mem.target, (keeps v inside f here).1]
  exact here

theorem Keeps.trans (first : Keeps c m m₁) (second : Keeps c m₁ m₂) : Keeps c m m₂ := by
  intro w within g here
  obtain ⟨leaf, word⟩ := first w within g here
  obtain ⟨leaf', word'⟩ := second w within g (first.target within here)
  exact ⟨leaf'.trans leaf, word'.trans word⟩

theorem Keeps.word (same : m'.word = m.word) : Keeps c m m' := by
  intro w within g here
  rw [Mem.leaf, same]
  exact ⟨rfl, rfl⟩

/-- A page that is new to the address space. -/
theorem Keeps.remapped (keeps : Keeps c mₛ m) (counted : Counted roots held other m) (root : c ∈ roots) (unmapped : mₛ.target (c, v) = none)
    (remapped : Remapped roots c v pte m m') : Keeps c mₛ m' := by
  intro w within g here
  obtain ⟨leaf, word⟩ := keeps w within g here
  have apart : w ≠ v := by
    rintro rfl
    rw [unmapped] at here
    cases here
  obtain ⟨inUse, _, outside, _⟩ := counted.mapped g ⟨c, root, w, within, keeps.target within here⟩
  rw [remapped.leaf c root w within, if_neg fun both => apart both.2, remapped.word g inUse outside]
  exact ⟨leaf, word⟩

theorem Keeps.setFrame (keeps : Keeps c mₛ m) (counted : Counted roots held other m) (unshared : Unshared roots m) (root : c ∈ roots)
    (unmapped : mₛ.target (c, v) = none) (inside : v < userPages) (here : m.target (c, v) = some page) (words : Nat → BitVec 64) :
    Keeps c mₛ (m.setFrame page words) := by
  have outside := (counted.mapped page ⟨c, root, v, inside, here⟩).2.2.1
  intro w within g there
  obtain ⟨leaf, word⟩ := keeps w within g there
  have apart : g ≠ page := by
    rintro rfl
    obtain rfl := (unshared c root v inside c root w within g here (keeps.target within there)).2
    rw [unmapped] at there
    cases there
  rw [setFrame_leaf outside words root within, setFrame_word_ne apart]
  exact ⟨leaf, word⟩

theorem Mem.Shows.keeps (shows : m.Shows c header image satp m₀ stop) (user : stop ≤ userTop) (keeps : Keeps c m m') :
    m'.Shows c header image satp m₀ stop := by
  intro a low high
  have inside := page_of_user (high.trans_le user)
  obtain ⟨page, here, leaf, puts⟩ := shows a low high
  obtain ⟨leaf', word⟩ := keeps _ inside page here
  refine ⟨page, keeps.target inside here, leaf'.trans leaf, ?_⟩
  rw [byte_word word]
  exact puts

section Segment

variable (area : vma ∈ mm.mmapList) (below : stop ≤ vma.vmEnd) (unmapped : ∀ v, vma.Covers v → mₛ.target (c, v) = none)
include area below unmapped

/-- A page comes to the segment, and what is written to it is what the file puts there. -/
theorem Raised.fillPage (raised : Raised roots other beside block mm c m₀ m) (fills : cursor.Fills header image satp m₀ vma c mₛ m)
    (ahead : cursor.la ≤ cursor.start) (before : cursor.start < stop) (allocated : m.pgdirAllocPage c cursor.la header.perm = .ok (some page, m₁))
    (words : Nat → BitVec 64)
    (puts : ∀ a, cursor.start ≤ a → a < min stop (cursor.la + pgSize) →
      header.Puts image satp m₀ a ((m₁.setFrame page words).byte page (a % pgSize))) :
    Raised roots other beside block mm c m₀ (m₁.setFrame page words) ∧
      (cursor.next page (cursor.size stop)).Fills header image satp m₀ vma c mₛ (m₁.setFrame page words) ∧
      (cursor.next page (cursor.size stop)).start = min stop (cursor.la + pgSize) ∧
      (cursor.next page (cursor.size stop)).la = cursor.la + pgSize := by
  have root := Finset.mem_insert_self c roots
  obtain ⟨first, last, user⟩ := assertRange_ok (raised.covered.passes vma area)
  have high : stop ≤ userTop := below.trans user.2.2
  have inArea : vma.vmStart ≤ cursor.la ∧ cursor.la < vma.vmEnd := ⟨fills.low, lt_of_le_of_lt ahead (lt_of_lt_of_le before below)⟩
  have low : cursor.la < userTop := lt_of_lt_of_le inArea.2 user.2.2
  have inside := page_of_user low
  have aligned := fills.aligned
  have free : mₛ.target (c, cursor.la / pgSize) = none := by
    refine unmapped _ ?_
    unfold Vma.Covers pgSize
    unfold pgSize at last
    omega
  have first := fills.within
  obtain ⟨start, la⟩ := Cursor.next_eq ahead before high first page
  obtain ⟨_, something⟩ := raised.counted.pgdirAllocPage_remapped root low header.perm_flags allocated
  obtain ⟨unused, _, remapped⟩ := something page rfl
  obtain ⟨annexed, unshared, found⟩ := raised.toAnnexed.pgdirAllocPage area inArea header.perm_flags raised.unshared allocated
  have raised₁ : Raised roots other beside block mm c m₀ m₁ := ⟨annexed, unshared⟩
  have here := found page rfl
  have outside := (annexed.counted.mapped page ⟨c, root, _, inside, here⟩).2.2.1
  have target : (m₁.setFrame page words).target (c, cursor.la / pgSize) = some page := by
    rw [setFrame_target outside words root inside]
    exact here
  have leaf : (m₁.setFrame page words).leaf c (cursor.la / pgSize) = pteCreate page (1 ||| header.perm) := by
    rw [setFrame_leaf outside words root inside, remapped.leaf c root _ inside, if_pos ⟨rfl, rfl⟩]
  refine ⟨raised₁.write inside here words, ⟨?_, ?_, ?_, ?_, ?_, ?_, fun _ => rfl, ?_, ?_, ?_⟩, start, la⟩
  · rw [la, Nat.add_mod_right]
    exact aligned
  · rw [la]
    exact fills.low.trans (Nat.le_add_right _ _)
  · rw [start]
    exact fills.begun.trans (le_min before.le first.le)
  · rw [start, la]
    exact .inl (min_le_right _ _)
  · rw [start, la]
    exact lt_of_le_of_lt (min_le_right _ _) (Nat.lt_add_of_pos_right (by decide))
  · rw [la, start]
    exact Nat.add_le_add_right (le_min (ahead.trans before.le) (Nat.le_add_right _ _)) _
  · intro own same
    obtain rfl := Option.some.inj same
    have number : (cursor.la + pgSize) / pgSize - 1 = cursor.la / pgSize := by
      rw [Nat.add_div_right _ (by decide)]
      rfl
    rw [la, number]
    exact ⟨Nat.add_le_add_right fills.low _, target, leaf⟩
  · intro a begins ends
    rw [start] at ends
    by_cases old : a < cursor.start
    · -- The bytes that were there are in other pages.
      have behind : a < cursor.la := by
        rcases fills.behind with behind | first
        · exact old.trans_le behind
        · omega
      obtain ⟨g, there, leaf', puts'⟩ := fills.shows a begins old
      have within := page_of_user (behind.trans low)
      have apart : a / pgSize ≠ cursor.la / pgSize := by
        unfold pgSize at aligned ⊢
        omega
      obtain ⟨inUse, _, noTable, _⟩ := raised.counted.mapped g ⟨c, root, _, within, there⟩
      have away : g ≠ page := by
        rintro rfl
        exact unused inUse
      have same : (m₁.setFrame page words).leaf c (a / pgSize) = m.leaf c (a / pgSize) := by
        rw [setFrame_leaf outside words root within, remapped.leaf c root _ within, if_neg fun both => apart both.2]
      have word : (m₁.setFrame page words).word g = m.word g := (setFrame_word_ne away).trans (remapped.word g inUse noTable)
      refine ⟨g, ?_, same.trans leaf', ?_⟩
      · rw [Mem.target, same]
        exact there
      · rw [byte_word word]
        exact puts'
    · have number : a / pgSize = cursor.la / pgSize := by
        unfold pgSize at aligned ends ⊢
        omega
      rw [number]
      exact ⟨page, target, leaf, puts a (not_lt.mp old) ends⟩
  · exact (fills.keeps.remapped raised.counted root free remapped).setFrame annexed.counted unshared root free inside here words

omit unmapped in
/-- The page that a round of a loop asks for: it comes to the address space, or there is none. -/
theorem Raised.allocPage (raised : Raised roots other beside block mm c m₀ m) (fills : cursor.Fills header image satp m₀ vma c mₛ m)
    (ahead : cursor.la ≤ cursor.start) (before : cursor.start < stop) :
    Ensures bad (m.pgdirAllocPage c cursor.la header.perm) fun answer =>
      Raised roots other beside block mm c m₀ answer.2 ∧ ∀ page ∈ answer.1, page ∉ other := by
  have root := Finset.mem_insert_self c roots
  obtain ⟨_, _, user⟩ := assertRange_ok (raised.covered.passes vma area)
  have inArea : vma.vmStart ≤ cursor.la ∧ cursor.la < vma.vmEnd := ⟨fills.low, lt_of_le_of_lt ahead (lt_of_lt_of_le before below)⟩
  have low : cursor.la < userTop := lt_of_lt_of_le inArea.2 user.2.2
  obtain ⟨found, m', done, _⟩ := raised.counted.pgdirAllocPage root low header.perm_flags
  obtain ⟨annexed, unshared, here⟩ := raised.toAnnexed.pgdirAllocPage area inArea header.perm_flags raised.unshared done
  rw [done]
  exact .ok ⟨⟨annexed, unshared⟩, fun page same => (annexed.counted.mapped page ⟨c, root, _, page_of_user low, here page same⟩).2.2.2.2⟩

theorem Raised.fillData (kernel : satp ∈ other) (zero : ∀ i < 511, m₀.word satp i = 0) (data : stop = header.pVa + header.pFilesz)
    (reads : image.Reads bad satp header.pOffset header.pFilesz) (raised : Raised roots other beside block mm c m₀ m)
    (fills : cursor.Fills header image satp m₀ vma c mₛ m)
    (ahead : cursor.start < stop → cursor.la ≤ cursor.start) (begun : cursor.start ≤ stop)
    (source : wrap cursor.src = wrap (header.pOffset + (cursor.start - header.pVa))) (rounds : stop + pgSize < cursor.la + fuel * pgSize) :
    Ensures bad (Ucore.loadData image satp c header.perm stop fuel cursor m) fun answer => Raised roots other beside block mm c m₀ answer.2 ∧
      ∀ cursor' ∈ answer.1, cursor'.Fills header image satp m₀ vma c mₛ answer.2 ∧ cursor'.start = stop := by
  have user : stop ≤ userTop := below.trans (assertRange_ok (raised.covered.passes vma area)).2.2.2.2
  induction fuel generalizing cursor m with
  | zero =>
    have near := fills.near
    omega
  | succ fuel ih =>
    unfold Ucore.loadData
    split
    next before =>
      have ahead := ahead before
      have first := fills.begun
      have size := Cursor.size_eq ahead before user fills.within
      refine (raised.allocPage area below fills ahead before).result.bind fun answer asked => ?_
      obtain ⟨answer, m₁⟩ := answer
      obtain ⟨⟨raised₁, outside⟩, allocated⟩ := asked
      cases answer with
      | none => exact .ok ⟨raised₁, fun cursor' impossible => by cases impossible⟩
      | some page =>
        have zero₁ : ∀ i < 511, m₁.word satp i = 0 := by
          rw [raised₁.spares.words satp kernel]
          exact zero
        have apart : page ≠ satp := by
          rintro rfl
          exact outside page rfl kernel
        have place : ∀ i, wrap (cursor.src + i) = wrap (header.pOffset + (cursor.start - header.pVa + i)) := by
          intro i
          unfold wrap at source ⊢
          omega
        have given : image.Reads bad satp cursor.src (cursor.size stop) := by
          intro m zero i inside
          rw [← byte_wrap, place, byte_wrap]
          exact reads m zero _ (by omega)
        dsimp only
        rw [memcpyPage_eq (Cursor.size_fits ahead before user fills.within)]
        refine (copyBytes_reads zero₁ apart given).result.bind fun m₂ copied => ?_
        obtain ⟨words, rfl⟩ := copyBytes_frame copied.2
        obtain ⟨_, bytes⟩ := copyBytes_bytes zero₁ apart copied.2
        have puts : ∀ a, cursor.start ≤ a → a < min stop (cursor.la + pgSize) →
            header.Puts image satp m₀ a ((m₁.setFrame page words).byte page (a % pgSize)) := by
          intro a low high
          have inside : a < header.pVa + header.pFilesz := by omega
          have read := bytes (a - cursor.start) (by omega)
          rw [← Cursor.offset_eq ahead before user fills.aligned low (lt_of_lt_of_le high (min_le_right _ _)), byte_bare zero₁ zero, ← byte_wrap, place,
            byte_wrap] at read
          have goes : cursor.start - header.pVa + (a - cursor.start) = a - header.pVa := by omega
          rw [goes] at read
          rw [ProgHdr.Puts, if_pos inside]
          exact read
        obtain ⟨raised₂, fills₂, start, la⟩ := raised.fillPage area below unmapped fills ahead before allocated words puts
        refine ih raised₂ fills₂ ?_ ?_ ?_ ?_
        · rw [start, la]
          omega
        · rw [start]
          exact min_le_left _ _
        · have within := fills.within
          have goes : cursor.start - header.pVa + cursor.size stop = min stop (cursor.la + pgSize) - header.pVa := by omega
          rw [start, ← goes, ← place]
          exact Nat.mod_mod _ _
        · rw [la]
          unfold pgSize at rounds ⊢
          omega
    next after =>
      refine .ok ⟨raised, fun cursor' same => ?_⟩
      obtain rfl := Option.some.inj same
      exact ⟨fills, le_antisymm begun (not_lt.mp after)⟩

theorem Raised.fillBss (raised : Raised roots other beside block mm c m₀ m) (fills : cursor.Fills header image satp m₀ vma c mₛ m)
    (copied : header.pVa + header.pFilesz ≤ cursor.start) (ahead : cursor.start < stop → cursor.la ≤ cursor.start) (begun : cursor.start ≤ stop)
    (rounds : stop + pgSize < cursor.la + fuel * pgSize) :
    Ensures bad (Ucore.loadBss c header.perm stop fuel cursor m) fun answer => Raised roots other beside block mm c m₀ answer.2 ∧
      ∀ cursor' ∈ answer.1, cursor'.Fills header image satp m₀ vma c mₛ answer.2 ∧ cursor'.start = stop := by
  have user : stop ≤ userTop := below.trans (assertRange_ok (raised.covered.passes vma area)).2.2.2.2
  induction fuel generalizing cursor m with
  | zero =>
    have near := fills.near
    omega
  | succ fuel ih =>
    unfold Ucore.loadBss
    split
    next before =>
      have ahead := ahead before
      have size := Cursor.size_eq ahead before user fills.within
      refine (raised.allocPage area below fills ahead before).result.bind fun answer asked => ?_
      obtain ⟨answer, m₁⟩ := answer
      obtain ⟨⟨raised₁, _⟩, allocated⟩ := asked
      cases answer with
      | none => exact .ok ⟨raised₁, fun cursor' impossible => by cases impossible⟩
      | some page =>
        dsimp only
        rw [memsetPage_eq (Cursor.size_fits ahead before user fills.within), ok_bind]
        obtain ⟨words, framed⟩ := zeroBytes_frame m₁ page (minus cursor.start cursor.la) (cursor.size stop)
        have puts : ∀ a, cursor.start ≤ a → a < min stop (cursor.la + pgSize) →
            header.Puts image satp m₀ a ((m₁.setFrame page words).byte page (a % pgSize)) := by
          intro a low high
          have behind : ¬ a < header.pVa + header.pFilesz := by omega
          rw [ProgHdr.Puts, if_neg behind, ← framed, zeroBytes_bytes,
            Cursor.offset_eq ahead before user fills.aligned low (lt_of_lt_of_le high (min_le_right _ _)), if_pos (by omega)]
        obtain ⟨raised₂, fills₂, start, la⟩ := raised.fillPage area below unmapped fills ahead before allocated words puts
        rw [framed]
        refine ih raised₂ fills₂ ?_ ?_ ?_ ?_
        · rw [start]
          exact le_min (copied.trans before.le) (copied.trans fills.within.le)
        · rw [start, la]
          omega
        · rw [start]
          exact min_le_left _ _
        · rw [la]
          unfold pgSize at rounds ⊢
          omega
    next after =>
      refine .ok ⟨raised, fun cursor' same => ?_⟩
      obtain rfl := Option.some.inj same
      exact ⟨fills, le_antisymm begun (not_lt.mp after)⟩

/-- The zeros behind DATA in its last page. -/
private theorem Raised.zeroTail (raised : Raised roots other beside block mm c m₀ m) (fills : cursor.Fills header image satp m₀ vma c mₛ m)
    (copied : header.pVa + header.pFilesz ≤ cursor.start) (before : cursor.start < stop) (inside : cursor.start < cursor.la)
    (own : cursor.page = some page) :
    Raised roots other beside block mm c m₀ (m.zeroBytes page (cursor.start + pgSize - cursor.la) (min stop cursor.la - cursor.start)) ∧
      Cursor.Fills { cursor with start := min stop cursor.la } header image satp m₀ vma c mₛ
        (m.zeroBytes page (cursor.start + pgSize - cursor.la) (min stop cursor.la - cursor.start)) := by
  have root := Finset.mem_insert_self c roots
  obtain ⟨_, last, user⟩ := assertRange_ok (raised.covered.passes vma area)
  obtain ⟨low, here, leaf⟩ := fills.last page own
  have aligned := fills.aligned
  have near := fills.near
  have high : vma.vmEnd ≤ userTop := user.2.2
  have within : cursor.la / pgSize - 1 < userPages := by
    have number : cursor.la / pgSize - 1 = (cursor.la - pgSize) / pgSize := by
      unfold pgSize
      omega
    rw [number]
    exact page_of_user (by omega)
  have free : mₛ.target (c, cursor.la / pgSize - 1) = none := by
    refine unmapped _ ?_
    unfold Vma.Covers pgSize
    unfold pgSize at last low near
    omega
  have outside := (raised.counted.mapped page ⟨c, root, _, within, here⟩).2.2.1
  obtain ⟨words, framed⟩ := zeroBytes_frame m page (cursor.start + pgSize - cursor.la) (min stop cursor.la - cursor.start)
  have bytes := zeroBytes_bytes m page (cursor.start + pgSize - cursor.la) (min stop cursor.la - cursor.start)
  rw [framed] at bytes ⊢
  refine ⟨raised.write within here words, ⟨aligned, fills.low, ?_, .inl (min_le_right _ _), ?_, ?_, ?_, ?_, ?_, ?_⟩⟩
  · exact fills.begun.trans (le_min before.le inside.le)
  · exact lt_of_le_of_lt (min_le_right _ _) (Nat.lt_add_of_pos_right (by decide))
  · exact near.trans (Nat.add_le_add_right (le_min before.le inside.le) _)
  · intro _
    dsimp only
    rw [own]
    rfl
  · intro page' own'
    obtain rfl := Option.some.inj (own.symm.trans own')
    refine ⟨low, (setFrame_target outside words root within).trans here, (setFrame_leaf outside words root within).trans leaf⟩
  · intro a begins ends
    dsimp only at ends
    by_cases tail : a / pgSize = cursor.la / pgSize - 1
    · rw [tail, setFrame_target outside words root within, setFrame_leaf outside words root within]
      refine ⟨page, here, leaf, ?_⟩
      rw [bytes]
      split
      next zeroed =>
        have behind : ¬ a < header.pVa + header.pFilesz := by
          unfold pgSize at zeroed tail aligned near
          omega
        rw [ProgHdr.Puts, if_neg behind]
      next before =>
        have old : a < cursor.start := by
          unfold pgSize at before tail aligned near
          omega
        obtain ⟨g, there, _, puts⟩ := fills.shows a begins old
        rw [tail] at there
        obtain rfl := Option.some.inj (there.symm.trans here)
        exact puts
    · have old : a < cursor.start := by
        unfold pgSize at tail aligned near
        omega
      obtain ⟨g, there, leaf', puts⟩ := fills.shows a begins old
      have goes : a / pgSize < userPages := page_of_user (by omega)
      have apart : g ≠ page := by
        rintro rfl
        exact tail (raised.unshared c root _ goes c root _ within g there here).2.symm
      refine ⟨g, (setFrame_target outside words root goes).trans there, (setFrame_leaf outside words root goes).trans leaf', ?_⟩
      rw [byte_word (setFrame_word_ne apart)]
      exact puts
  · exact fills.keeps.setFrame raised.counted raised.unshared root free within here words

/-- The rest of the last page of DATA. -/
theorem Raised.fillHead (raised : Raised roots other beside block mm c m₀ m) (fills : cursor.Fills header image satp m₀ vma c mₛ m)
    (copied : header.pVa + header.pFilesz ≤ cursor.start) (begun : cursor.start ≤ stop) :
    Ensures bad (Ucore.loadBssHead stop cursor m) fun answer => Raised roots other beside block mm c m₀ answer.2.2 ∧
      answer.2.1.Fills header image satp m₀ vma c mₛ answer.2.2 ∧ cursor.start ≤ answer.2.1.start ∧ answer.2.1.start ≤ stop ∧
      (answer.1 = true → answer.2.1.start = stop) ∧ (answer.1 = false → answer.2.1.start < stop → answer.2.1.la ≤ answer.2.1.start) := by
  have root := Finset.mem_insert_self c roots
  obtain ⟨first, last, user⟩ := assertRange_ok (raised.covered.passes vma area)
  have high : stop ≤ userTop := below.trans user.2.2
  unfold Ucore.loadBssHead
  split
  next inside =>
    split
    next whole => exact .ok ⟨raised, fills, le_rfl, begun, fun _ => whole, fun impossible => absurd impossible.symm Bool.false_ne_true⟩
    next partly =>
      obtain ⟨page, own⟩ := Option.isSome_iff_exists.mp (fills.held inside)
      have before : cursor.start < stop := lt_of_le_of_ne begun partly
      have near := fills.near
      have whole : wrap (cursor.start + pgSize) = cursor.start + pgSize := by
        unfold userTop at high
        unfold wrap pgSize
        omega
      have off : minus (wrap (cursor.start + pgSize)) cursor.la = cursor.start + pgSize - cursor.la := by
        rw [whole]
        refine minus_of_le near ?_
        unfold userTop at high
        unfold pgSize
        omega
      have size : (if stop < cursor.la then minus (minus pgSize (cursor.start + pgSize - cursor.la)) (minus cursor.la stop)
          else minus pgSize (cursor.start + pgSize - cursor.la)) = min stop cursor.la - cursor.start := by
        have rest : minus pgSize (cursor.start + pgSize - cursor.la) = cursor.la - cursor.start := by
          rw [minus_of_le (by omega) (by decide)]
          omega
        unfold userTop at high
        unfold pgSize at near
        rw [rest]
        split
        next early =>
          rw [minus_of_le early.le (by omega), minus_of_le (by omega) (by omega)]
          omega
        next => omega
      have start : wrap (cursor.start + (min stop cursor.la - cursor.start)) = min stop cursor.la := by
        unfold userTop at high
        unfold wrap
        omega
      have fits : cursor.start + pgSize - cursor.la + (min stop cursor.la - cursor.start) ≤ pgSize := by omega
      have passes : ((stop < cursor.la && min stop cursor.la = stop) || (stop ≥ cursor.la && min stop cursor.la = cursor.la) : Bool) = true := by
        rcases lt_or_ge stop cursor.la with early | late
        · simp [early, early.le]
        · simp [late]
      have there : deref cursor.page = .ok page := by rw [own, deref]
      rw [there, ok_bind]
      dsimp only
      rw [off, size, start, memsetPage_eq fits, ok_bind, passes, assert_true, ok_bind]
      obtain ⟨raised', fills'⟩ := raised.zeroTail area below unmapped fills copied before inside own
      refine .ok ⟨raised', fills', le_min begun inside.le, min_le_left _ _, fun impossible => absurd impossible Bool.false_ne_true, fun _ more => ?_⟩
      dsimp only at more ⊢
      omega
  next ahead => exact .ok ⟨raised, fills, le_rfl, begun, fun impossible => absurd impossible Bool.false_ne_true, fun _ _ => not_lt.mp ahead⟩

end Segment

/-- The three loops over a segment. -/
theorem Raised.fillPages (kernel : satp ∈ other) (zero : ∀ i < 511, m₀.word satp i = 0)
    (reads : image.Reads bad satp header.pOffset header.pFilesz) (raised : Raised roots other beside block mm c m₀ m)
    (area : vma ∈ mm.mmapList) (first : vma.vmStart = roundDown header.pVa pgSize) (last : header.pVa + header.pMemsz ≤ vma.vmEnd)
    (fits : header.pFilesz ≤ header.pMemsz) (unmapped : ∀ v, vma.Covers v → m.target (c, v) = none) :
    Ensures bad (Ucore.loadPages image satp c header m) fun answer => Raised roots other beside block mm c m₀ answer.2 ∧ answer.1 ≤ 0 ∧
      (answer.1 = 0 → answer.2.Shows c header image satp m₀ (header.pVa + header.pMemsz) ∧ Keeps c m answer.2) := by
  have user : vma.vmEnd ≤ userTop := (assertRange_ok (raised.covered.passes vma area)).2.2.2.2
  have short : header.pVa + header.pFilesz ≤ header.pVa + header.pMemsz := Nat.add_le_add_left fits _
  have data : wrap (header.pVa + header.pFilesz) = header.pVa + header.pFilesz := by
    unfold userTop at user
    unfold wrap
    omega
  have bss : wrap (header.pVa + header.pMemsz) = header.pVa + header.pMemsz := by
    unfold userTop at user
    unfold wrap
    omega
  have rounds : ∀ stop la, stop + pgSize < la + (Mem.pageFuel stop + 1) * pgSize := by
    intro stop la
    unfold Mem.pageFuel pgSize
    omega
  unfold Ucore.loadPages
  dsimp only
  rw [data, bss]
  have begins : (⟨header.pVa, roundDown header.pVa pgSize, header.pOffset, none⟩ : Cursor).Fills header image satp m₀ vma c m m := by
    have below : roundDown header.pVa pgSize ≤ header.pVa := Nat.sub_le _ _
    refine ⟨?_, first.le, le_rfl, .inr rfl, ?_, below.trans (Nat.le_add_right _ _), fun impossible => absurd impossible (not_lt.mpr below),
      fun page impossible => absurd impossible.symm (Option.some_ne_none page), fun a low high => absurd low (not_le.mpr high), .refl⟩
    all_goals
      unfold roundDown pgSize
      dsimp only
      omega
  refine (raised.fillData area (short.trans last) unmapped kernel zero rfl reads begins (fun _ => Nat.sub_le _ _) (Nat.le_add_right _ _) ?_ (rounds _ _)).bind
    fun answer copies => ?_
  · dsimp only
    rw [Nat.sub_self, Nat.add_zero]
  obtain ⟨copied, m₁⟩ := answer
  obtain ⟨raised₁, goes⟩ := copies
  cases copied with
  | none => exact .ok ⟨raised₁, show -eNoMem ≤ 0 by decide, fun impossible => absurd (show -eNoMem = 0 from impossible) (by decide)⟩
  | some cursor =>
    obtain ⟨fills, start⟩ := goes cursor rfl
    dsimp only at raised₁ fills ⊢
    refine (raised₁.fillHead area last unmapped fills start.ge (start.le.trans short)).bind fun answer head => ?_
    obtain ⟨done, cursor', m₂⟩ := answer
    obtain ⟨raised₂, fills₂, forth, most, whole, ahead⟩ := head
    dsimp only at raised₂ fills₂ forth most whole ahead ⊢
    split
    next finished =>
      refine .ok ⟨raised₂, le_rfl, fun _ => ⟨?_, fills₂.keeps⟩⟩
      rw [← whole finished]
      exact fills₂.shows
    next more =>
      refine (raised₂.fillBss area last unmapped fills₂ (start.ge.trans forth) (ahead (Bool.eq_false_iff.mpr more)) most (rounds _ _)).bind fun answer built => ?_
      obtain ⟨found, m₃⟩ := answer
      obtain ⟨raised₃, ends⟩ := built
      cases found with
      | none => exact .ok ⟨raised₃, show -eNoMem ≤ 0 by decide, fun impossible => absurd (show -eNoMem = 0 from impossible) (by decide)⟩
      | some cursor₃ =>
        obtain ⟨fills₃, stops⟩ := ends cursor₃ rfl
        refine .ok ⟨raised₃, le_rfl, fun _ => ?_⟩
        rw [← stops]
        exact ⟨fills₃.shows, fills₃.keeps⟩

end Ucore
