import Mathlib
import Ucore.Printfmt

/-! What `vprintfmt` emits for the numeric conversions. -/

namespace Ucore

variable {fmt before behind : List Char} {args : Arguments} {fuel i ap : Nat} {escape : Escape}

section Digits

theorem charAt_next (before behind : List Char) : charAt (before ++ behind) before.length = .ok (behind.headD nul) := by
  rw [charAt, List.getElem?_append_right (le_refl _), Nat.sub_self]
  cases behind with
  | nil =>
    rw [List.append_nil]
    exact if_pos rfl
  | cons c behind => rfl

theorem charAt_append (before : List Char) (c : Char) (behind : List Char) : charAt (before ++ c :: behind) before.length = .ok c :=
  charAt_next before (c :: behind)

theorem charAt_end (s : List Char) : charAt s s.length = .ok nul := by
  rw [charAt, List.getElem?_eq_none (le_refl _)]
  exact if_pos rfl

theorem digitOf_lt {mod : Nat} (small : mod < 16) : digitOf mod = .ok mod.digitChar := by
  interval_cases mod <;> rfl

theorem cInt_sub (value less : Int) : cInt (cInt value - less) = cInt (value - less) := Int.bmod_sub_bmod

theorem cInt_small {value : Int} (low : -2 ^ 31 ≤ value) (high : value < 2 ^ 31) : cInt value = value :=
  Int.bmod_eq_of_le (by omega) (by omega)

theorem printnum_spec {base : Nat} (low : 2 ≤ base) (high : base ≤ 16) (fuel num : Nat) (width : Int) (padc : Char)
    (enough : num < base ^ (fuel + 1)) : printnum (fuel + 1) num base width padc =
      .ok (List.replicate (cInt (width - (Nat.toDigits base num).length)).toNat padc ++ Nat.toDigits base num) := by
  have digit : digitOf (num % base) = .ok (num % base).digitChar := by
    have small := Nat.mod_lt num (show 0 < base by omega)
    exact digitOf_lt (by omega)
  induction fuel generalizing num width with
  | zero =>
    rw [Nat.pow_one] at enough
    rw [Nat.mod_eq_of_lt enough] at digit
    simp only [printnum, ge_iff_le, if_neg (Nat.not_le.mpr enough), Nat.mod_eq_of_lt enough, digit, ok_bind,
      Nat.toDigits_of_lt_base enough]
    rfl
  | succ fuel ih =>
    rw [printnum]
    by_cases more : num ≥ base
    · have rest : num / base < base ^ (fuel + 1) := by
        rw [Nat.div_lt_iff_lt_mul (by omega), ← Nat.pow_succ]
        exact enough
      have inner : digitOf (num / base % base) = .ok (num / base % base).digitChar := by
        have small := Nat.mod_lt (num / base) (show 0 < base by omega)
        exact digitOf_lt (by omega)
      rw [if_pos more, ih _ _ rest inner]
      simp only [ok_bind, digit]
      have missing : width - 1 - (Nat.toDigits base (num / base)).length = width - ((Nat.toDigits base (num / base)).length + 1 : Nat) := by
        omega
      rw [Nat.toDigits_of_base_le (by omega) more, List.length_append, List.length_singleton, List.append_assoc, cInt_sub, missing]
    · have less : num < base := Nat.not_le.mp more
      rw [Nat.mod_eq_of_lt less] at digit
      simp only [if_neg more, Nat.mod_eq_of_lt less, digit, ok_bind, Nat.toDigits_of_lt_base less]
      rfl

theorem Escape.number_spec (escape : Escape) (num : BitVec 64) {base : Nat} (low : 2 ≤ base) (high : base ≤ 16) :
    escape.number num base = .ok (List.replicate (cInt (escape.width - (Nat.toDigits base num.toNat).length)).toNat escape.padc ++
      Nat.toDigits base num.toNat) := by
  apply printnum_spec low high
  calc num.toNat < 2 ^ 64 := num.isLt
    _ ≤ base ^ 64 := Nat.pow_le_pow_left low 64

theorem mem_toDigits {base num : Nat} {c : Char} (low : 2 ≤ base) (inside : c ∈ Nat.toDigits base num) : ∃ mod < base, c = mod.digitChar := by
  induction num using Nat.strongRecOn with
  | ind num ih =>
    by_cases more : base ≤ num
    · rw [Nat.toDigits_of_base_le (by omega) more, List.mem_append, List.mem_singleton] at inside
      rcases inside with early | rfl
      · exact ih (num / base) (Nat.div_lt_self (by omega) (by omega)) early
      · exact ⟨num % base, Nat.mod_lt _ (by omega), rfl⟩
    · rw [Nat.toDigits_of_lt_base (by omega), List.mem_singleton] at inside
      exact ⟨num, by omega, inside⟩

/-- The minus sign of a number. -/
def signOf (value : Int) : List Char := if value < 0 then ['-'] else []

theorem Escape.decimal_spec (escape : Escape) (num : BitVec 64) : escape.decimal num =
    .ok (signOf num.toInt ++ (List.replicate (cInt (escape.width - (Nat.toDigits 10 num.toInt.natAbs).length)).toNat escape.padc ++
      Nat.toDigits 10 num.toInt.natAbs)) := by
  rw [Escape.decimal, signOf]
  by_cases negative : num.toInt < 0
  · have magnitude : (-num).toNat = num.toInt.natAbs := by
      have bound := num.isLt
      rw [BitVec.toInt_eq_toNat_cond] at negative ⊢
      rw [BitVec.toNat_neg]
      split at negative
      · omega
      · rename_i large
        rw [if_neg large]
        omega
    rw [if_pos negative, if_pos negative, escape.number_spec (-num) (by decide) (by decide), magnitude, ok_bind]
    rfl
  · have magnitude : num.toNat = num.toInt.natAbs := by
      have bound := num.isLt
      rw [BitVec.toInt_eq_toNat_cond] at negative ⊢
      split at negative
      · rename_i small
        rw [if_pos small]
        rfl
      · omega
    rw [if_neg negative, if_neg negative, escape.number_spec num (by decide) (by decide), magnitude]
    rfl

end Digits

/-- The numeric conversions. -/
inductive Conversion where
  | d
  | u
  | o
  | x

namespace Conversion

def char : Conversion → Char
  | d => 'd'
  | u => 'u'
  | o => 'o'
  | x => 'x'

def base : Conversion → Nat
  | d | u => 10
  | o => 8
  | x => 16

/-- The value of an argument: its low 32 bits, or all of it behind an `l`. -/
def value (conversion : Conversion) (longs : Nat) (argument : BitVec 64) : Int :=
  match conversion with
  | d => if longs ≥ 1 then argument.toInt else (argument.setWidth 32).toInt
  | u | o | x => if longs ≥ 1 then argument.toNat else (argument.setWidth 32).toNat

/-- The shortest digit string of a value. -/
def digits (conversion : Conversion) (value : Int) : List Char := Nat.toDigits conversion.base value.natAbs

theorem base_range (conversion : Conversion) : 2 ≤ conversion.base ∧ conversion.base ≤ 16 := by
  cases conversion <;> decide

private theorem value_lt (conversion : Conversion) (longs : Nat) (argument : BitVec 64) : (conversion.value longs argument).natAbs < 2 ^ 64 := by
  have whole := argument.isLt
  have half := (argument.setWidth 32).isLt
  have least := BitVec.le_toInt argument
  have most := BitVec.toInt_lt (x := argument)
  have least' := BitVec.le_toInt (argument.setWidth 32)
  have most' := BitVec.toInt_lt (x := argument.setWidth 32)
  cases conversion <;> unfold value <;> dsimp only <;> split <;> omega

theorem digits_length (conversion : Conversion) (longs : Nat) (argument : BitVec 64) :
    1 ≤ (conversion.digits (conversion.value longs argument)).length ∧ (conversion.digits (conversion.value longs argument)).length ≤ 64 := by
  have low := conversion.base_range.1
  refine ⟨Nat.length_toDigits_pos, (Nat.length_toDigits_le_iff (by omega) (by decide)).mpr ?_⟩
  calc (conversion.value longs argument).natAbs < 2 ^ 64 := conversion.value_lt longs argument
    _ ≤ conversion.base ^ 64 := Nat.pow_le_pow_left low 64

end Conversion

section Scanner

theorem reswitch_minus (split : fmt = before ++ '-' :: behind) : reswitch fmt args (fuel + 1) escape before.length ap =
    reswitch fmt args fuel { escape with padc := '-' } (before.length + 1) ap := by
  rw [reswitch, split, charAt_append, ok_bind]
  rfl

theorem reswitch_zero (split : fmt = before ++ '0' :: behind) : reswitch fmt args (fuel + 1) escape before.length ap =
    reswitch fmt args fuel { escape with padc := '0' } (before.length + 1) ap := by
  rw [reswitch, split, charAt_append, ok_bind]
  rfl

theorem reswitch_star (split : fmt = before ++ '*' :: behind) : reswitch fmt args (fuel + 1) escape before.length ap =
    reswitch fmt args fuel (escape.processPrecision (args.int ap)) (before.length + 1) (ap + 1) := by
  rw [reswitch, split, charAt_append, ok_bind]
  rfl

theorem reswitch_long (split : fmt = before ++ 'l' :: behind) : reswitch fmt args (fuel + 1) escape before.length ap =
    reswitch fmt args fuel { escape with lflag := escape.lflag + 1 } (before.length + 1) ap := by
  rw [reswitch, split, charAt_append, ok_bind]
  rfl

theorem reswitch_longs (longs : Nat) (split : fmt = before ++ (List.replicate longs 'l' ++ behind)) :
    reswitch fmt args (fuel + longs) escape before.length ap =
      reswitch fmt args fuel { escape with lflag := escape.lflag + longs } (before.length + longs) ap := by
  induction longs generalizing before escape with
  | zero => rfl
  | succ longs ih =>
    rw [List.replicate_succ, List.cons_append] at split
    have next : fmt = (before ++ ['l']) ++ (List.replicate longs 'l' ++ behind) := by
      rw [split, List.append_assoc, List.singleton_append]
    have rest := @ih (before ++ ['l']) { escape with lflag := escape.lflag + 1 } next
    rw [List.length_append, List.length_singleton] at rest
    dsimp only at rest
    rw [Nat.add_right_comm before.length, Nat.add_right_comm escape.lflag] at rest
    exact (reswitch_long split).trans rest

/-- What a numeric conversion prints in the state `escape`. -/
theorem reswitch_conversion (conversion : Conversion) (split : fmt = before ++ [conversion.char]) :
    reswitch fmt args (fuel + 1) escape before.length ap =
      .ok (signOf (conversion.value escape.lflag (args.slot ap)) ++
        (List.replicate (cInt (escape.width - (conversion.digits (conversion.value escape.lflag (args.slot ap))).length)).toNat escape.padc ++
          conversion.digits (conversion.value escape.lflag (args.slot ap))), fmt.length, ap + 1) := by
  have here : charAt fmt before.length = .ok conversion.char := by
    rw [split]
    exact charAt_append before conversion.char []
  have length : fmt.length = before.length + 1 := by rw [split, List.length_append, List.length_singleton]
  have unsigned : ∀ base, 2 ≤ base → base ≤ 16 → ∀ value : Nat, (getuint args ap escape.lflag).toNat = value →
      escape.number (getuint args ap escape.lflag) base = .ok (signOf value ++
        (List.replicate (cInt (escape.width - (Nat.toDigits base (value : Int).natAbs).length)).toNat escape.padc ++
          Nat.toDigits base (value : Int).natAbs)) := by
    rintro base low high value rfl
    rw [signOf, if_neg (by omega), Int.natAbs_natCast]
    exact escape.number_spec _ low high
  have argument : (getuint args ap escape.lflag).toNat =
      if escape.lflag ≥ 1 then (args.slot ap).toNat else ((args.slot ap).setWidth 32).toNat := by
    rw [getuint]
    split
    · rfl
    · exact BitVec.toNat_setWidth_of_le (by decide)
  have signed : (getint args ap escape.lflag).toInt =
      if escape.lflag ≥ 1 then (args.slot ap).toInt else ((args.slot ap).setWidth 32).toInt := by
    rw [getint]
    split
    · rfl
    · exact BitVec.toInt_signExtend_of_le (by decide)
  have cast : ((if escape.lflag ≥ 1 then (args.slot ap).toNat else ((args.slot ap).setWidth 32).toNat : Nat) : Int) =
      if escape.lflag ≥ 1 then ((args.slot ap).toNat : Int) else ((args.slot ap).setWidth 32).toNat := by
    split
    · rfl
    · rfl
  rw [reswitch, here, ok_bind, length]
  cases conversion with
  | d =>
    change (escape.decimal (getint args ap escape.lflag) >>= fun out => .ok (out, before.length + 1, ap + 1)) = _
    rw [escape.decimal_spec, signed]
    rfl
  | u =>
    change (escape.number (getuint args ap escape.lflag) 10 >>= fun out => .ok (out, before.length + 1, ap + 1)) = _
    rw [unsigned 10 (by decide) (by decide) _ argument, cast]
    rfl
  | o =>
    change (escape.number (getuint args ap escape.lflag) 8 >>= fun out => .ok (out, before.length + 1, ap + 1)) = _
    rw [unsigned 8 (by decide) (by decide) _ argument, cast]
    rfl
  | x =>
    change (escape.number (getuint args ap escape.lflag) 16 >>= fun out => .ok (out, before.length + 1, ap + 1)) = _
    rw [unsigned 16 (by decide) (by decide) _ argument, cast]
    rfl

/-- A format that is one escape. -/
theorem vprintfmt_single {body : List Char} {printed : Kern (List Char)} {after : Nat} (single : fmt = '%' :: body)
    (switched : reswitch fmt args (fmt.length + 1) .start 1 0 = printed >>= fun out => .ok (out, fmt.length, after)) :
    vprintfmt fmt args = printed := by
  subst single
  have opens : echo ('%' :: body) (body.length + 2) 0 = .ok ([], some 1) := rfl
  have ends : echo ('%' :: body) (body.length + 2) (body.length + 1) = .ok ([], none) := by
    have nothing : charAt ('%' :: body) (body.length + 1) = .ok nul := charAt_end ('%' :: body)
    rw [echo, nothing]
    rfl
  have last : scan ('%' :: body) args (body.length + 1) (body.length + 1) after = .ok [] := by
    rw [scan, List.length_cons, ends]
    rfl
  rw [List.length_cons] at switched
  rw [vprintfmt, scan, List.length_cons, opens, ok_bind]
  dsimp only
  rw [switched]
  cases printed with
  | error e => rfl
  | ok out =>
    rw [ok_bind, ok_bind]
    dsimp only
    rw [last]
    simp

theorem cInt_step (value : Nat) {ch : Char} (leading : '0' ≤ ch ∧ ch ≤ '9') :
    cInt (cInt value * 10 + ch.toNat - '0'.toNat) = cInt ((10 * value + (ch.toNat - '0'.toNat) : Nat) : Int) := by
  have low : '0'.toNat ≤ ch.toNat := leading.1
  have parts : cInt value * 10 + ch.toNat - '0'.toNat = cInt value * 10 + ((ch.toNat : Int) - '0'.toNat) := by ring
  have whole : ((10 * value + (ch.toNat - '0'.toNat) : Nat) : Int) = (value : Int) * 10 + ((ch.toNat : Int) - '0'.toNat) := by
    rw [Nat.cast_add, Nat.cast_mul, Nat.cast_sub low, mul_comm]
    rfl
  rw [parts, whole, cInt, cInt, cInt, ← Int.bmod_add_bmod, Int.bmod_mul_bmod, Int.bmod_add_bmod]

/-- The digits of a width, up to a character that is none or to the end of the string. -/
theorem scanWidth_spec {digits : List Char} {value : Nat} {ch : Char} (numeric : ∀ d ∈ digits, '0' ≤ d ∧ d ≤ '9')
    (leading : '0' ≤ ch ∧ ch ≤ '9') (stops : behind.headD nul < '0' ∨ behind.headD nul > '9')
    (split : fmt = before ++ (digits ++ behind)) (enough : digits.length < fuel) :
    scanWidth fmt fuel (cInt value) ch before.length =
      .ok (cInt (Nat.ofDigitChars 10 (ch :: digits) value : Nat), before.length + digits.length) := by
  obtain ⟨fuel, rfl⟩ : ∃ less, fuel = less + 1 := ⟨fuel - 1, by omega⟩
  induction digits generalizing before value ch fuel with
  | nil =>
    have here : charAt fmt before.length = .ok (behind.headD nul) := by
      rw [split]
      exact charAt_next before behind
    rw [scanWidth, here, ok_bind, if_pos stops, cInt_step value leading, Nat.ofDigitChars_cons]
    rfl
  | cons d digits ih =>
    rw [List.length_cons] at enough
    obtain ⟨fuel, rfl⟩ : ∃ less, fuel = less + 1 := ⟨fuel - 1, by omega⟩
    have here : charAt fmt before.length = .ok d := by
      rw [split]
      exact charAt_append before d (digits ++ behind)
    have digit := numeric d List.mem_cons_self
    have next : fmt = (before ++ [d]) ++ (digits ++ behind) := by
      rw [split, List.append_assoc, List.singleton_append, List.cons_append]
    have goes : ¬ (d < '0' ∨ d > '9') := by
      rw [not_or]
      exact ⟨not_lt.mpr digit.1, not_lt.mpr digit.2⟩
    have rest := @ih (before ++ [d]) (10 * value + (ch.toNat - '0'.toNat)) d (fun e inside => numeric e (List.mem_cons_of_mem _ inside))
      digit next fuel (by omega)
    rw [List.length_append, List.length_singleton] at rest
    rw [scanWidth, here, ok_bind, if_neg goes, cInt_step value leading, rest, Nat.ofDigitChars_cons (c := ch), List.length_cons,
      Nat.add_right_comm, Nat.add_assoc]

/-- A width is written in digits, or taken from the arguments. -/
def widthText (star : Bool) (w : Nat) : List Char := if star then ['*'] else Nat.toDigits 10 w

theorem isDigit_iff {c : Char} : c.isDigit = true ↔ '0' ≤ c ∧ c ≤ '9' := by
  rw [Char.isDigit, Bool.and_eq_true, decide_eq_true_eq, decide_eq_true_eq]
  rfl

private theorem toDigits_numeric (w : Nat) : ∀ d ∈ Nat.toDigits 10 w, '0' ≤ d ∧ d ≤ '9' := by
  intro d inside
  exact isDigit_iff.mp (Nat.isDigit_of_mem_toDigits (by decide) (by decide) inside)

private theorem toDigits_leading {w : Nat} (positive : 0 < w) : ∃ ch digits, Nat.toDigits 10 w = ch :: digits ∧ '1' ≤ ch ∧ ch ≤ '9' := by
  induction w using Nat.strongRecOn with
  | ind w ih =>
    by_cases small : w < 10
    · rw [Nat.toDigits_of_lt_base small]
      refine ⟨_, [], rfl, ?_⟩
      interval_cases w <;> decide
    · obtain ⟨ch, digits, same, leading⟩ := ih (w / 10) (Nat.div_lt_self positive (by decide)) (by omega)
      rw [Nat.toDigits_of_base_le (by decide) (by omega), same, List.cons_append]
      exact ⟨ch, _, rfl, leading⟩

/-- The scanner behind a width: what it pads with, and how far. -/
theorem reswitch_width {star : Bool} {w : Nat} {c : Char} (small : w < 2 ^ 31) (given : star = true → args.int ap = w)
    (fresh : escape.width = -1) (stops : c < '0' ∨ c > '9') (split : fmt = before ++ (widthText star w ++ c :: behind))
    (enough : (widthText star w).length ≤ fuel + 1) :
    ∃ padc width precision, reswitch fmt args (fuel + 1) escape before.length ap =
        reswitch fmt args fuel { escape with padc := padc, width := width, precision := precision }
          (before.length + (widthText star w).length) (if star then ap + 1 else ap) ∧
      ∀ n : Nat, 1 ≤ n → n ≤ 64 → List.replicate (cInt (width - n)).toNat padc = List.replicate (w - n) escape.padc := by
  have pads : ∀ n : Nat, 1 ≤ n → n ≤ 64 → List.replicate (cInt ((w : Int) - n)).toNat escape.padc = List.replicate (w - n) escape.padc := by
    intro n least most
    rw [cInt_small (by omega) (by omega), Int.toNat_sub]
  cases star with
  | true =>
    refine ⟨escape.padc, w, -1, ?_, pads⟩
    rw [reswitch_star split, given rfl, Escape.processPrecision, if_pos (show escape.width < 0 by omega)]
    rfl
  | false =>
    rw [widthText, if_neg Bool.false_ne_true] at split enough ⊢
    by_cases zero : w = 0
    · subst zero
      refine ⟨'0', escape.width, escape.precision, reswitch_zero split, fun n least most => ?_⟩
      rw [cInt_small (by omega) (by omega), Int.toNat_of_nonpos (by omega), Nat.zero_sub]
      rfl
    · obtain ⟨ch, digits, same, leading⟩ := toDigits_leading (Nat.pos_of_ne_zero zero)
      refine ⟨escape.padc, w, -1, ?_, pads⟩
      have numeric := toDigits_numeric w
      rw [same] at split numeric enough ⊢
      have here : charAt fmt before.length = .ok ch := by
        rw [split]
        exact charAt_append before ch (digits ++ c :: behind)
      have next : fmt = (before ++ [ch]) ++ (digits ++ c :: behind) := by
        rw [split, List.append_assoc, List.singleton_append, List.cons_append]
      have scanned := @scanWidth_spec fmt (before ++ [ch]) (c :: behind) (fuel + 1) digits 0 ch
        (fun d inside => numeric d (List.mem_cons_of_mem _ inside)) (numeric ch List.mem_cons_self) stops next enough
      have whole : cInt w = w := cInt_small (by omega) (by omega)
      rw [← same, Nat.ofDigitChars_ten_toDigits, whole, List.length_append, List.length_singleton] at scanned
      have other : ch ≠ '-' ∧ ch ≠ '0' := by
        constructor
        · rintro rfl
          exact absurd leading.1 (by decide)
        · rintro rfl
          exact absurd leading.1 (by decide)
      rw [reswitch, here, ok_bind, if_neg other.1, if_neg other.2, if_pos leading,
        show scanWidth fmt (fuel + 1) 0 ch (before.length + 1) = scanWidth fmt (fuel + 1) (cInt (0 : Nat)) ch (before.length + 1) from rfl,
        scanned, ok_bind]
      dsimp only
      rw [Escape.processPrecision, if_pos (show escape.width < 0 by omega), List.length_cons, Nat.add_assoc, Nat.add_comm 1]
      rfl

end Scanner

section Padding

/-- The flag of a conversion: none, `0` or `-`. -/
inductive Flag where
  | plain
  | zero
  | minus
  deriving DecidableEq

def Flag.text : Flag → List Char
  | plain => []
  | zero => ['0']
  | minus => ['-']

def Flag.padc : Flag → Char
  | plain => ' '
  | zero => '0'
  | minus => '-'

/-- A conversion with a flag, a width and modifiers. -/
def formatOf (flag : Flag) (star : Bool) (w longs : Nat) (conversion : Conversion) : List Char :=
  '%' :: (flag.text ++ (widthText star w ++ (List.replicate longs 'l' ++ [conversion.char])))

/-- A number padded to `w` characters: on the left, between sign and digits, or on the right. -/
def padded (flag : Flag) (w : Nat) (sign digits : List Char) : List Char :=
  match flag with
  | .plain => List.replicate (w - (sign ++ digits).length) ' ' ++ (sign ++ digits)
  | .zero => sign ++ List.replicate (w - (sign ++ digits).length) '0' ++ digits
  | .minus => sign ++ digits ++ List.replicate (w - (sign ++ digits).length) ' '

/-- What is printed: the sign comes first and is not counted, and the padding is on the left. -/
theorem vprintfmt_number (flag : Flag) (star : Bool) (w longs : Nat) (conversion : Conversion) (small : w < 2 ^ 31)
    (given : star = true → args.int 0 = w) :
    vprintfmt (formatOf flag star w longs conversion) args =
      .ok (signOf (conversion.value longs (args.slot (if star then 1 else 0))) ++
        (List.replicate (w - (conversion.digits (conversion.value longs (args.slot (if star then 1 else 0)))).length) flag.padc ++
          conversion.digits (conversion.value longs (args.slot (if star then 1 else 0))))) := by
  have flagged : ∀ fuel, reswitch (formatOf flag star w longs conversion) args (fuel + flag.text.length) .start 1 0 =
      reswitch (formatOf flag star w longs conversion) args fuel ⟨flag.padc, -1, -1, 0, false⟩ (1 + flag.text.length) 0 := by
    intro fuel
    cases flag with
    | plain => rfl
    | zero => exact @reswitch_zero _ ['%'] _ _ _ _ _ rfl
    | minus => exact @reswitch_minus _ ['%'] _ _ _ _ _ rfl
  obtain ⟨c, rest, tail, stops⟩ : ∃ c rest, List.replicate longs 'l' ++ [conversion.char] = c :: rest ∧ (c < '0' ∨ c > '9') := by
    cases longs with
    | zero => exact ⟨conversion.char, [], rfl, by cases conversion <;> decide⟩
    | succ longs => exact ⟨'l', List.replicate longs 'l' ++ [conversion.char], rfl, by decide⟩
  have front : ('%' :: flag.text).length = 1 + flag.text.length := by rw [List.length_cons, Nat.add_comm]
  have split : formatOf flag star w longs conversion = ('%' :: flag.text) ++ (widthText star w ++ c :: rest) := by
    rw [← tail]
    rfl
  obtain ⟨padc, width, precision, stepped, pads⟩ := @reswitch_width _ _ rest args ((widthText star w).length + 2 + longs) 0
    ⟨flag.padc, -1, -1, 0, false⟩ star w c small given rfl stops split (by omega)
  have split' : formatOf flag star w longs conversion =
      (('%' :: flag.text) ++ widthText star w) ++ (List.replicate longs 'l' ++ [conversion.char]) := by
    rw [split, tail, List.append_assoc]
  have passed := @reswitch_longs _ _ _ args ((widthText star w).length + 2) (if star then 1 else 0)
    ⟨padc, width, precision, 0, false⟩ longs split'
  have split'' : formatOf flag star w longs conversion =
      ((('%' :: flag.text) ++ widthText star w) ++ List.replicate longs 'l') ++ [conversion.char] := by
    rw [split']
    simp only [List.append_assoc]
  have printed := @reswitch_conversion _ _ args ((widthText star w).length + 1) (if star then 1 else 0)
    ⟨padc, width, precision, longs, false⟩ conversion split''
  have digits := conversion.digits_length longs (args.slot (if star then 1 else 0))
  rw [front] at stepped
  rw [List.length_append, front] at passed
  rw [List.length_append, List.length_append, front, List.length_replicate] at printed
  dsimp only at printed
  rw [pads _ digits.1 digits.2] at printed
  have opens : formatOf flag star w longs conversion =
      '%' :: (flag.text ++ (widthText star w ++ (List.replicate longs 'l' ++ [conversion.char]))) := rfl
  apply vprintfmt_single opens
  have length : (formatOf flag star w longs conversion).length + 1 = (widthText star w).length + 2 + longs + 1 + flag.text.length := by
    simp only [formatOf, List.length_cons, List.length_append, List.length_replicate, List.length_nil]
    omega
  rw [length, flagged, stepped]
  dsimp only
  rw [passed]
  dsimp only
  rw [Nat.zero_add]
  exact printed

private theorem digits_unsigned (conversion : Conversion) (value : Int) : '-' ∉ conversion.digits value := by
  intro inside
  obtain ⟨mod, small, same⟩ := mem_toDigits conversion.base_range.1 inside
  have bound : mod < 16 := lt_of_lt_of_le small conversion.base_range.2
  interval_cases mod <;> exact absurd same (by decide)

private theorem padded_iff (conversion : Conversion) (flag : Flag) (w : Nat) (value : Int) :
    signOf value ++ (List.replicate (w - (conversion.digits value).length) flag.padc ++ conversion.digits value) =
        padded flag w (signOf value) (conversion.digits value) ↔
      w ≤ (conversion.digits value).length ∨ (flag ≠ .minus ∧ 0 ≤ value) := by
  have unsigned := digits_unsigned conversion value
  generalize conversion.digits value = digits at unsigned ⊢
  by_cases short : w ≤ digits.length
  · have full : w - digits.length = 0 := by omega
    have full' : w - ((signOf value).length + digits.length) = 0 := by omega
    cases flag with
    | plain | zero | minus => simp [padded, full, full', short]
  · rw [or_iff_right short]
    by_cases negative : value < 0
    · have longer : signOf value ++ (List.replicate (w - digits.length) flag.padc ++ digits) ≠
          padded flag w (signOf value) digits := by
        intro same
        have lengths := congrArg List.length same
        rw [signOf, if_pos negative] at lengths
        cases flag with
        | plain | zero | minus =>
          simp only [padded, List.length_append, List.length_replicate, List.length_cons, List.length_nil] at lengths
          omega
      exact iff_of_false longer (fun both => absurd both.2 (by omega))
    · have sign : signOf value = [] := if_neg negative
      rw [sign]
      cases flag with
      | plain | zero => simp [padded, Flag.padc, not_lt.mp negative]
      | minus =>
        refine iff_of_false ?_ (fun both => both.1 rfl)
        intro same
        obtain ⟨pads, some⟩ : ∃ pads, w - digits.length = pads + 1 := ⟨w - digits.length - 1, by omega⟩
        rw [padded, List.nil_append, List.nil_append, some, List.replicate_succ, List.cons_append] at same
        cases digits with
        | nil => exact absurd (List.cons.inj same).1 (by decide)
        | cons ch rest => exact unsigned ((List.cons.inj same).1 ▸ List.mem_cons_self)

/-- The text of a numeric conversion is the number padded to its width exactly if there is
nothing to pad, or neither a sign nor the flag for the right side. -/
theorem number_format : ∀ (args : Arguments) (flag : Flag) (star : Bool) (w longs : Nat) (conversion : Conversion), w < 2 ^ 31 →
    (star = true → args.int 0 = w) → longs ≤ 2 → ∀ value, conversion.value longs (args.slot (if star then 1 else 0)) = value →
    (vprintfmt (formatOf flag star w longs conversion) args = .ok (padded flag w (signOf value) (conversion.digits value)) ↔
      w ≤ (conversion.digits value).length ∨ (flag ≠ .minus ∧ 0 ≤ value)) := by
  rintro args flag star w longs conversion small given - value rfl
  rw [vprintfmt_number flag star w longs conversion small given, ← padded_iff]
  exact ⟨fun same => Except.ok.inj same, fun same => congrArg Except.ok same⟩

/-- A positive number in a field that is padded with zeros. -/
theorem number_format_seven : vprintfmt ['%', '0', '5', 'd'] ⟨fun _ => 7, fun _ => []⟩ = .ok ['0', '0', '0', '0', '7'] := by
  have text := (number_format ⟨fun _ => 7, fun _ => []⟩ .zero false 5 0 .d (by decide) (fun star => absurd star (by decide)) (by decide) 7
    rfl).mpr (Or.inr ⟨by decide, by decide⟩)
  exact text

/-- The flag `-` pads on the left, with minus signs. -/
theorem number_format_minus : ¬ ∀ (args : Arguments) (flag : Flag) (star : Bool) (w longs : Nat) (conversion : Conversion), w < 2 ^ 31 →
    (star = true → args.int 0 = w) → longs ≤ 2 → ∀ value, conversion.value longs (args.slot (if star then 1 else 0)) = value →
    vprintfmt (formatOf flag star w longs conversion) args = .ok (padded flag w (signOf value) (conversion.digits value)) := by
  intro pads
  have text := pads ⟨fun _ => 7, fun _ => []⟩ .minus false 5 0 .d (by decide) (fun star => absurd star (by decide)) (by decide) 7 rfl
  exact absurd text (by decide +kernel)

end Padding

end Ucore
