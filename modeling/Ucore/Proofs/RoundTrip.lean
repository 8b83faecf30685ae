import Mathlib
import Ucore.Proofs.Printnum
import Ucore.Proofs.Strtol

/-! What `vprintfmt` prints with `%ld` and `%lx` is what `strtol` reads. -/

namespace Ucore

variable {digits : List Char} {base : Int} {c : Char} {args : Arguments}

section Print

theorem vprintfmt_long (conversion : Conversion) : vprintfmt ['%', 'l', conversion.char] args =
    .ok (signOf (conversion.value 1 (args.slot 0)) ++ conversion.digits (conversion.value 1 (args.slot 0))) := by
  apply vprintfmt_single rfl
  have passed := @reswitch_longs ['%', 'l', conversion.char] ['%'] [conversion.char] args 3 0 .start 1 rfl
  have printed := @reswitch_conversion ['%', 'l', conversion.char] ['%', 'l'] args 2 0 ⟨' ', -1, -1, 1, false⟩ conversion rfl
  have unpadded : (cInt (-1 - ((conversion.digits (conversion.value 1 (args.slot 0))).length : Int))).toNat = 0 := by
    have bound := conversion.digits_length 1 (args.slot 0)
    rw [cInt_small (by omega) (by omega)]
    omega
  dsimp only at printed
  rw [unpadded] at printed
  exact passed.trans printed

end Print

section Parse

private theorem digit_valid {mod : Nat} (small : mod < 16) : strtolDigit mod.digitChar = some mod := by
  interval_cases mod <;> rfl

theorem toDigits_valid {base num : Nat} (low : 2 ≤ base) (high : base ≤ 16) : ∀ c ∈ Nat.toDigits base num, ValidIn base c := by
  intro c inside
  obtain ⟨mod, small, rfl⟩ := mem_toDigits low inside
  exact ⟨mod, digit_valid (lt_of_lt_of_le small high), Int.ofNat_lt.mpr small⟩

theorem numeral_toDigits {base : Nat} (low : 2 ≤ base) (high : base ≤ 16) (num : Nat) : numeral base 0 (Nat.toDigits base num) = num := by
  induction num using Nat.strongRecOn with
  | ind num ih =>
    by_cases more : base ≤ num
    · have front := ih (num / base) (Nat.div_lt_self (by omega) (by omega))
      have digit : num % base < 16 := lt_of_lt_of_le (Nat.mod_lt num (by omega)) high
      rw [Nat.toDigits_of_base_le (by omega) more, numeral, List.foldl_append]
      rw [numeral] at front
      rw [front, List.foldl_cons, List.foldl_nil, digit_valid digit]
      have whole := Nat.div_add_mod' num base
      exact_mod_cast whole
    · rw [Nat.toDigits_of_lt_base (by omega), numeral, List.foldl_cons, List.foldl_nil, digit_valid (by omega)]
      simp

theorem unsignedPart_signed (value : Int) (some : digits ≠ []) (valid : ∀ c ∈ digits, ValidIn 16 c) :
    unsignedPart (signOf value ++ digits) = digits ∧ negative (signOf value ++ digits) = decide (value < 0) := by
  obtain ⟨c, rest, rfl⟩ := List.exists_cons_of_ne_nil some
  have own := valid c List.mem_cons_self
  rw [signOf]
  split
  · rename_i below
    simp [unsignedPart, negative, strtolSign, below]
  · rename_i positive
    have blank : ¬ (c = ' ' ∨ c = '\t') := by
      rintro (rfl | rfl)
      · exact absurd own (by decide)
      · exact absurd own (by decide)
    have plus : c ≠ '+' := by
      rintro rfl
      exact absurd own (by decide)
    have minus : c ≠ '-' := by
      rintro rfl
      exact absurd own (by decide)
    have kept : (c :: rest).dropWhile (fun c => c = ' ' ∨ c = '\t') = c :: rest := by simp [blank]
    have bare : strtolSign (c :: rest) = (false, c :: rest) := by
      rw [strtolSign]
      · exact fun _ same => plus (List.cons.inj same).1
      · exact fun _ same => minus (List.cons.inj same).1
    rw [List.nil_append, unsignedPart, negative, kept, bare, decide_eq_false positive]
    exact ⟨rfl, rfl⟩

theorem scanned_valid (valid : ∀ c ∈ digits, ValidIn base c) : scanned (base, digits) = (numeral base 0 digits, []) := by
  have whole : digits.takeWhile (fun c => ValidIn base c) = digits :=
    List.takeWhile_eq_self_iff.mpr (fun c inside => decide_eq_true (valid c inside))
  have rest : digits.dropWhile (fun c => ValidIn base c) = [] :=
    List.dropWhile_eq_nil_iff.mpr (fun c inside => decide_eq_true (valid c inside))
  rw [scanned, whole, rest]

theorem ValidIn.mono {high : Int} (valid : ValidIn base c) (above : base ≤ high) : ValidIn high c := by
  obtain ⟨dig, digit, small⟩ := valid
  exact ⟨dig, digit, lt_of_lt_of_le small above⟩

/-- The number that `strtol` makes out of a sign and the digits of a magnitude. -/
theorem strtol_signed (value : Int) {num : Nat} {radix : Nat} (low : 2 ≤ radix) (high : radix ≤ 16)
    (select : strtolPrefix base (Nat.toDigits radix num) = ((radix : Int), Nat.toDigits radix num)) :
    strtol (signOf value ++ Nat.toDigits radix num) base =
      ((if value < 0 then -BitVec.ofNat 64 num else BitVec.ofNat 64 num).toInt, []) := by
  have valid := @toDigits_valid radix num low high
  obtain ⟨unsigned, sign⟩ := unsignedPart_signed value (Nat.toDigits_ne_nil (n := num) (b := radix))
    (fun c inside => (valid c inside).mono (by omega))
  rw [strtol_eq, unsigned, sign, select, scanned_valid valid, numeral_toDigits low high, BitVec.ofInt_natCast]
  by_cases below : value < 0
  · simp [below]
  · simp [below]

theorem toDigits_bare {radix num : Nat} (low : 2 ≤ radix) (high : radix ≤ 16) : ¬ ['0', 'x'] <+: Nat.toDigits radix num := by
  intro hex
  have inside : 'x' ∈ Nat.toDigits radix num := hex.subset (by decide)
  exact absurd ((toDigits_valid low high 'x' inside).mono (show (radix : Int) ≤ 16 by omega)) (by decide)

end Parse

/-- `strtol` reads the number that `vprintfmt` has printed, and stops at the end of the
text: in base 10, and in base 0 unless the digits begin with a zero, for `%ld`; in base
16 for `%lx`. -/
theorem print_parse : ∀ args : Arguments,
    (∃ text, vprintfmt ['%', 'l', 'd'] args = .ok text ∧ strtol text 10 = ((args.slot 0).toInt, []) ∧
      ((unsignedPart text).head? = some '0' ∨ strtol text 0 = ((args.slot 0).toInt, []))) ∧
    ∃ text, vprintfmt ['%', 'l', 'x'] args = .ok text ∧ strtol text 16 = ((args.slot 0).toInt, []) := by
  intro args
  generalize argument : args.slot 0 = bits
  have signed : (if bits.toInt < 0 then -BitVec.ofNat 64 bits.toInt.natAbs else BitVec.ofNat 64 bits.toInt.natAbs).toInt = bits.toInt := by
    split
    · rename_i below
      have magnitude : -(bits.toInt.natAbs : Int) = bits.toInt := by omega
      rw [← BitVec.ofInt_natCast, ← BitVec.ofInt_neg, magnitude, BitVec.ofInt_toInt]
    · rename_i positive
      have magnitude : (bits.toInt.natAbs : Int) = bits.toInt := by omega
      rw [← BitVec.ofInt_natCast, magnitude, BitVec.ofInt_toInt]
  constructor
  · have printed := @vprintfmt_long args .d
    rw [argument] at printed
    have text : Conversion.d.digits (Conversion.d.value 1 bits) = Nat.toDigits 10 bits.toInt.natAbs := rfl
    rw [text, show Conversion.d.value 1 bits = bits.toInt from rfl] at printed
    refine ⟨_, printed, ?_, ?_⟩
    · have select : strtolPrefix 10 (Nat.toDigits 10 bits.toInt.natAbs) = (((10 : Nat) : Int), Nat.toDigits 10 bits.toInt.natAbs) := by
        rw [strtolPrefix, if_neg (fun both => absurd both.1 (by decide)), if_neg (fun both => absurd both.1 (by decide)),
          if_neg (by decide)]
        rfl
      rw [strtol_signed bits.toInt (by decide) (by decide) select, signed]
    · by_cases zero : (unsignedPart (signOf bits.toInt ++ Nat.toDigits 10 bits.toInt.natAbs)).head? = some '0'
      · exact Or.inl zero
      · right
        have valid := @toDigits_valid 10 bits.toInt.natAbs (by decide) (by decide)
        rw [(unsignedPart_signed bits.toInt Nat.toDigits_ne_nil (fun c inside => (valid c inside).mono (by decide))).1] at zero
        have octal : ¬ ['0'] <+: Nat.toDigits 10 bits.toInt.natAbs := by
          rintro ⟨rest, split⟩
          rw [← split] at zero
          exact zero rfl
        have select : strtolPrefix 0 (Nat.toDigits 10 bits.toInt.natAbs) = (((10 : Nat) : Int), Nat.toDigits 10 bits.toInt.natAbs) := by
          rw [strtolPrefix, if_neg (fun both => toDigits_bare (by decide) (by decide) both.2), if_neg (fun both => octal both.2), if_pos rfl]
          rfl
        rw [strtol_signed bits.toInt (by decide) (by decide) select, signed]
  · have printed := @vprintfmt_long args .x
    rw [argument] at printed
    have text : Conversion.x.digits (Conversion.x.value 1 bits) = Nat.toDigits 16 bits.toNat := rfl
    have unsigned : signOf (Conversion.x.value 1 bits) = signOf 0 := if_neg (not_lt.mpr (Int.natCast_nonneg bits.toNat))
    rw [text, unsigned] at printed
    refine ⟨_, printed, ?_⟩
    have select : strtolPrefix 16 (Nat.toDigits 16 bits.toNat) = (((16 : Nat) : Int), Nat.toDigits 16 bits.toNat) := by
      rw [strtolPrefix, if_neg (fun both => toDigits_bare (by decide) (by decide) both.2), if_neg (fun both => absurd both.1 (by decide)),
        if_neg (by decide)]
      rfl
    rw [strtol_signed 0 (by decide) (by decide) select, if_neg (lt_irrefl 0), BitVec.ofNat_toNat, BitVec.setWidth_eq]

end Ucore
