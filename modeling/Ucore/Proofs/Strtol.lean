import Mathlib
import Ucore.Strings

/-! `strtol` against the grammar that its comment documents. -/

namespace Ucore

variable {base : Int} {s run rest : List Char} {c : Char}

/-- `c` is a digit or a letter that is valid in `base`. -/
def ValidIn (base : Int) (c : Char) : Prop := ∃ dig ∈ strtolDigit c, (dig : Int) < base

instance (base : Int) (c : Char) : Decidable (ValidIn base c) :=
  inferInstanceAs (Decidable (∃ dig ∈ strtolDigit c, (dig : Int) < base))

/-- The value of a run of digits and letters, continued from `value`. -/
def numeral (base : Int) (value : Int) (run : List Char) : Int :=
  run.foldl (fun value c => value * base + (strtolDigit c).getD 0) value

/-- `s` begins with one of `prefixes` and a hexadecimal digit. -/
def HexFollows (prefixes : List (List Char)) (s : List Char) : Prop :=
  ∃ hex ∈ prefixes, hex <+: s ∧ s[2]?.any fun c => ValidIn 16 c

instance (prefixes : List (List Char)) (s : List Char) : Decidable (HexFollows prefixes s) :=
  inferInstanceAs (Decidable (∃ hex ∈ prefixes, hex <+: s ∧ s[2]?.any fun c => ValidIn 16 c))

/-- The base that is selected, and the text behind the prefix that is skipped. -/
def documentedPrefix (base : Int) (s : List Char) : Int × List Char :=
  if base = 16 then (16, if HexFollows [['0', 'x'], ['0', 'X']] s then s.drop 2 else s)
  else if base = 0 then
    if ['0', 'x'] <+: s then (16, if HexFollows [['0', 'x']] s then s.drop 2 else s)
    else if ['0'] <+: s then (8, s)
    else (10, s)
  else (base, s)

/-- What `s` denotes: the signed value of the longest run of digits that are valid in the
base, and the rest of the string. -/
def documented (s : List Char) (base : Int) : Int × List Char :=
  let s := s.dropWhile fun c => c = ' ' ∨ c = '\t'
  let (neg, s) := strtolSign s
  let (base, s) := documentedPrefix base s
  let value := numeral base 0 (s.takeWhile fun c => ValidIn base c)
  (if neg then -value else value, s.dropWhile fun c => ValidIn base c)

/-- The text behind the blanks and the sign. -/
def unsignedPart (s : List Char) : List Char := (strtolSign (s.dropWhile fun c => c = ' ' ∨ c = '\t')).2

/-- The prefixes that `strtol` takes for what they are not: `0X` in base 16 in front of a
hexadecimal digit, and `0x` in front of anything else. -/
def Misread (base : Int) (s : List Char) : Prop :=
  (base = 16 ∧ HexFollows [['0', 'X']] s) ∨ ((base = 0 ∨ base = 16) ∧ ['0', 'x'] <+: s ∧ ¬ HexFollows [['0', 'x']] s)

instance (base : Int) (s : List Char) : Decidable (Misread base s) :=
  inferInstanceAs (Decidable (_ ∨ _))

section Loop

theorem strtolDigits_eq (value : Int) :
    strtolDigits base (BitVec.ofInt 64 value) s =
      (BitVec.ofInt 64 (numeral base value (s.takeWhile fun c => ValidIn base c)), s.dropWhile fun c => ValidIn base c) := by
  induction s generalizing value with
  | nil => rfl
  | cons c s ih =>
    rw [strtolDigits]
    cases digit : strtolDigit c with
    | none =>
      have invalid : ¬ ValidIn base c := by simp [ValidIn, digit]
      simp [invalid, numeral]
    | some dig =>
      dsimp only
      by_cases large : (dig : Int) ≥ base
      · have invalid : ¬ ValidIn base c := by simp [ValidIn, digit, large]
        rw [if_pos large]
        simp [invalid, numeral]
      · have valid : ValidIn base c := by simpa [ValidIn, digit] using large
        have next : BitVec.ofInt 64 value * BitVec.ofInt 64 base + BitVec.ofNat 64 dig = BitVec.ofInt 64 (value * base + dig) := by
          rw [BitVec.ofInt_add, BitVec.ofInt_mul, BitVec.ofInt_natCast]
        rw [if_neg large, next, ih]
        simp [valid, numeral, digit]

theorem signed_toInt {value : Int} {neg : Bool} (low : -2 ^ 63 ≤ if neg then -value else value)
    (high : (if neg then -value else value) < 2 ^ 63) :
    (if neg then -BitVec.ofInt 64 value else BitVec.ofInt 64 value).toInt = if neg then -value else value := by
  cases neg with
  | false =>
    simp only [Bool.false_eq_true, if_false] at low high ⊢
    exact BitVec.toInt_ofInt_eq_self (by decide) low high
  | true =>
    simp only [if_true] at low high ⊢
    rw [← BitVec.ofInt_neg]
    exact BitVec.toInt_ofInt_eq_self (by decide) low high

end Loop

section Prefix

private theorem zero_valid (base : Int) (positive : 2 ≤ base) : ValidIn base '0' := ⟨0, rfl, by omega⟩

private theorem x_invalid : ¬ ValidIn 16 'x' := by decide

private theorem capital_invalid : ¬ ValidIn 16 'X' := by decide

/-- The text of the run, and what is behind it. -/
def scanned (found : Int × List Char) : Int × List Char :=
  (numeral found.1 0 (found.2.takeWhile fun c => ValidIn found.1 c), found.2.dropWhile fun c => ValidIn found.1 c)

private theorem scanned_zero (positive : 2 ≤ base) (s : List Char) : scanned (base, '0' :: s) = scanned (base, s) := by
  have valid := zero_valid base positive
  simp [scanned, valid, numeral, strtolDigit]

theorem strtolPrefix_scanned (read : ¬ Misread base s) : scanned (strtolPrefix base s) = scanned (documentedPrefix base s) := by
  rw [Misread, not_or] at read
  obtain ⟨capital, small⟩ := read
  by_cases hex : base = 16
  · subst hex
    rw [strtolPrefix, documentedPrefix, if_pos rfl]
    by_cases prefixed : ['0', 'x'] <+: s
    · have follows : HexFollows [['0', 'x']] s := by
        by_contra truncated
        exact small ⟨Or.inr rfl, prefixed, truncated⟩
      obtain ⟨hex, member, found⟩ := follows
      rw [if_pos ⟨Or.inr rfl, prefixed⟩, if_pos ⟨hex, List.mem_cons.mpr (Or.inl (List.mem_singleton.mp member)), found⟩]
    · have bare : ¬ HexFollows [['0', 'x'], ['0', 'X']] s := by
        rintro ⟨hex, member, found⟩
        rcases List.mem_cons.mp member with rfl | member
        · exact prefixed found.1
        · exact capital ⟨rfl, hex, member, found⟩
      rw [if_neg (fun both => prefixed both.2), if_neg (fun both => absurd both.1 (by decide)), if_neg (by decide), if_neg bare]
  · rw [documentedPrefix, if_neg hex]
    by_cases free : base = 0
    · subst free
      rw [if_pos rfl, strtolPrefix]
      by_cases prefixed : ['0', 'x'] <+: s
      · have follows : HexFollows [['0', 'x']] s := by
          by_contra truncated
          exact small ⟨Or.inl rfl, prefixed, truncated⟩
        rw [if_pos ⟨Or.inl rfl, prefixed⟩, if_pos prefixed, if_pos follows]
      · rw [if_neg (fun both => prefixed both.2), if_neg prefixed]
        by_cases octal : ['0'] <+: s
        · rw [if_pos ⟨rfl, octal⟩, if_pos octal]
          obtain ⟨rest, rfl⟩ := octal
          exact (scanned_zero (by decide) rest).symm
        · rw [if_neg (fun both => octal both.2), if_pos rfl, if_neg octal]
    · rw [strtolPrefix, if_neg (fun both => both.1.elim free hex), if_neg (fun both => free both.1), if_neg free, if_neg free]

private theorem scanned_length (found : Int × List Char) : (scanned found).2.length ≤ found.2.length :=
  (List.dropWhile_sublist _).length_le

theorem strtolPrefix_stray (misread : Misread base s) :
    (scanned (strtolPrefix base s)).2 ≠ (scanned (documentedPrefix base s)).2 := by
  intro same
  rcases misread with ⟨rfl, hex, member, ⟨rest, rfl⟩, digit⟩ | ⟨range, ⟨rest, rfl⟩, truncated⟩
  · obtain rfl := List.mem_singleton.mp member
    obtain ⟨c, behind, rfl⟩ : ∃ c behind, rest = c :: behind := by
      cases rest with
      | nil => cases digit
      | cons c behind => exact ⟨c, behind, rfl⟩
    have early : (scanned (strtolPrefix 16 (['0', 'X'] ++ c :: behind))).2 = 'X' :: c :: behind := by
      have invalid := capital_invalid
      have zero := zero_valid 16 (by decide)
      simp [strtolPrefix, scanned, invalid, zero]
    have follows : HexFollows [['0', 'x'], ['0', 'X']] (['0', 'X'] ++ c :: behind) :=
      ⟨['0', 'X'], by decide, ⟨c :: behind, rfl⟩, digit⟩
    have late := scanned_length (documentedPrefix 16 (['0', 'X'] ++ c :: behind))
    rw [documentedPrefix, if_pos rfl, if_pos follows] at late same
    rw [early] at same
    rw [← same] at late
    simp at late
  · have stops : rest.dropWhile (fun c => ValidIn 16 c) = rest := by
      cases rest with
      | nil => rfl
      | cons c behind =>
        have invalid : ¬ ValidIn 16 c := fun valid =>
          truncated ⟨['0', 'x'], List.mem_singleton.mpr rfl, ⟨c :: behind, rfl⟩, decide_eq_true valid⟩
        simp [invalid]
    have skipped : strtolPrefix base (['0', 'x'] ++ rest) = (16, rest) := by
      rw [strtolPrefix, if_pos ⟨range, rest, rfl⟩]
      rfl
    have bare : ¬ HexFollows [['0', 'x'], ['0', 'X']] (['0', 'x'] ++ rest) := by
      rintro ⟨hex, member, found⟩
      rcases List.mem_cons.mp member with rfl | member
      · exact truncated ⟨_, List.mem_singleton.mpr rfl, found⟩
      · obtain rfl := List.mem_singleton.mp member
        obtain ⟨⟨behind, split⟩, -⟩ := found
        simp at split
    have kept : documentedPrefix base (['0', 'x'] ++ rest) = (16, ['0', 'x'] ++ rest) := by
      rw [documentedPrefix]
      rcases range with rfl | rfl
      · rw [if_neg (by decide), if_pos rfl, if_pos ⟨rest, rfl⟩, if_neg truncated]
      · rw [if_pos rfl, if_neg bare]
    have invalid := x_invalid
    have digit := zero_valid 16 (by decide)
    rw [skipped, kept] at same
    have late : (scanned (16, ['0', 'x'] ++ rest)).2 = 'x' :: rest := by simp [scanned, invalid, digit]
    rw [late] at same
    have length := congrArg List.length (stops.symm.trans same)
    simp at length

end Prefix

section Whole

/-- The sign of `s`. -/
def negative (s : List Char) : Bool := (strtolSign (s.dropWhile fun c => c = ' ' ∨ c = '\t')).1

def withSign (neg : Bool) (value : Int) : Int := if neg then -value else value

theorem strtol_eq (s : List Char) (base : Int) : strtol s base =
    ((if negative s then -BitVec.ofInt 64 (scanned (strtolPrefix base (unsignedPart s))).1
      else BitVec.ofInt 64 (scanned (strtolPrefix base (unsignedPart s))).1).toInt,
      (scanned (strtolPrefix base (unsignedPart s))).2) := by
  have parts : strtol s base =
      ((if negative s then -(strtolDigits (strtolPrefix base (unsignedPart s)).1 (BitVec.ofInt 64 0) (strtolPrefix base (unsignedPart s)).2).1
        else (strtolDigits (strtolPrefix base (unsignedPart s)).1 (BitVec.ofInt 64 0) (strtolPrefix base (unsignedPart s)).2).1).toInt,
        (strtolDigits (strtolPrefix base (unsignedPart s)).1 (BitVec.ofInt 64 0) (strtolPrefix base (unsignedPart s)).2).2) := rfl
  rw [parts, strtolDigits_eq]
  rfl

theorem documented_eq (s : List Char) (base : Int) : documented s base =
    (withSign (negative s) (scanned (documentedPrefix base (unsignedPart s))).1,
      (scanned (documentedPrefix base (unsignedPart s))).2) := rfl

/-- `strtol` reads what its comment documents, in every string that denotes a `long`, unless
it misreads the prefix. -/
theorem strtol_documented : ∀ (s : List Char) (base : Int), base = 0 ∨ (2 ≤ base ∧ base ≤ 36) →
    -2 ^ 63 ≤ (documented s base).1 → (documented s base).1 < 2 ^ 63 →
    (strtol s base = documented s base ↔ ¬ Misread base (unsignedPart s)) := by
  intro s base _ low high
  constructor
  · intro same misread
    rw [strtol_eq, documented_eq] at same
    exact strtolPrefix_stray misread (Prod.mk.inj same).2
  · intro read
    rw [documented_eq] at low high
    rw [strtol_eq, documented_eq, strtolPrefix_scanned read]
    exact congrArg (fun value => (value, _)) (signed_toInt low high)

/-- A number with all that the grammar has: blanks, a sign and a prefix. -/
theorem strtol_documented_hex : strtol [' ', '-', '0', 'x', '1', 'f', 'g'] 0 = (-31, ['g']) := by
  have read := (strtol_documented [' ', '-', '0', 'x', '1', 'f', 'g'] 0 (Or.inl rfl) (by decide +kernel) (by decide +kernel)).mpr (by decide +kernel)
  rw [read]
  decide +kernel

/-- The prefix `0X`, which the comment allows in base 16, is not skipped. -/
theorem strtol_capital : ¬ ∀ (s : List Char) (base : Int), base = 0 ∨ (2 ≤ base ∧ base ≤ 36) →
    -2 ^ 63 ≤ (documented s base).1 → (documented s base).1 < 2 ^ 63 → strtol s base = documented s base := by
  intro reads
  exact absurd (reads ['0', 'X', '1', 'f'] 16 (Or.inr (by decide)) (by decide +kernel) (by decide +kernel)) (by decide +kernel)

end Whole

end Ucore
