import Mathlib
import Ucore.Lib.Runs
import Ucore.Proofs.Printnum

/-! The format scanner: the pieces of a format, and what is printed for each of them. -/

namespace Ucore
open Lib

section Pieces

/-- A piece of a format: a character outside of the escapes, an escape of a known conversion, or
one that stops at an unknown character or at the end of the string. -/
inductive Piece where
  | plain (c : Char)
  | known (flags : List Char) (conversion : Char)
  | unknown (flags : List Char) (stop : Option Char)
  deriving DecidableEq

/-- What may stand between `%` and the conversion. -/
def isFlag (c : Char) : Bool := decide (c ∈ ['-', '*', '.', '#', 'l'] ∨ '0' ≤ c ∧ c ≤ '9')

def isConversion (c : Char) : Bool := decide (c ∈ ['c', 'e', 's', 'd', 'u', 'o', 'p', 'x', '%'])

/-- The pieces of a format, from inside an escape if some flags were read. -/
def piecesFrom : Option (List Char) → List Char → List Piece
  | none, [] => []
  | none, c :: rest => if c = '%' then piecesFrom (some []) rest else .plain c :: piecesFrom none rest
  | some flags, [] => [.unknown flags none]
  | some flags, c :: rest =>
    if isFlag c then piecesFrom (some (flags ++ [c])) rest
    else if isConversion c then .known flags c :: piecesFrom none rest
    else .unknown flags (some c) :: piecesFrom none rest

def pieces (fmt : List Char) : List Piece := piecesFrom none fmt

/-- The text of a piece in the format. -/
def Piece.text : Piece → List Char
  | plain c => [c]
  | known flags conversion => '%' :: (flags ++ [conversion])
  | unknown flags stop => '%' :: (flags ++ stop.toList)

/-- The arguments behind the first `n`. -/
def Arguments.skip (args : Arguments) (n : Nat) : Arguments := { args with slot := fun i => args.slot (n + i) }

/-- How many arguments a conversion takes. -/
def taken (conversion : Char) : Nat := if conversion = '%' then 0 else 1

/-- What is printed for the pieces of a format: an escape that is known as it would be alone,
and everything else as it stands. -/
def emission (args : Arguments) : Nat → List Piece → Kern (List Char)
  | _, [] => .ok []
  | ap, .known flags conversion :: rest => do
    let printed ← vprintfmt (Piece.known flags conversion).text (args.skip ap)
    let others ← emission args (ap + flags.count '*' + taken conversion) rest
    .ok (printed ++ others)
  | ap, .plain c :: rest => do
    let others ← emission args ap rest
    .ok ((Piece.plain c).text ++ others)
  | ap, .unknown flags stop :: rest => do
    let others ← emission args (ap + flags.count '*') rest
    .ok ((Piece.unknown flags stop).text ++ others)

/-- The numbers of the arguments that `%e` takes. -/
def errorArguments : Nat → List Piece → List Nat
  | _, [] => []
  | ap, .known flags conversion :: rest =>
    (if conversion = 'e' then [ap + flags.count '*'] else []) ++ errorArguments (ap + flags.count '*' + taken conversion) rest
  | ap, .plain _ :: rest => errorArguments ap rest
  | ap, .unknown flags _ :: rest => errorArguments (ap + flags.count '*') rest

theorem pieces_text (fmt : List Char) : (pieces fmt).flatMap Piece.text = fmt := by
  have inside : ∀ state fmt, (piecesFrom state fmt).flatMap Piece.text = (state.elim [] (fun flags => '%' :: flags)) ++ fmt := by
    intro state fmt
    induction fmt generalizing state with
    | nil =>
      cases state with
      | none => rfl
      | some flags => simp [piecesFrom, Piece.text]
    | cons c fmt ih =>
      cases state with
      | none =>
        rw [piecesFrom]
        split
        next percent =>
          rw [ih, percent]
          rfl
        next => rw [List.flatMap_cons, ih]; rfl
      | some flags =>
        rw [piecesFrom]
        split
        next => rw [ih]; simp
        next =>
          split
          next => rw [List.flatMap_cons, ih]; simp [Piece.text]
          next => rw [List.flatMap_cons, ih]; simp [Piece.text]
  exact inside none fmt

example : pieces ['a', '%', '0', 'l', 'd', '%', '5', 'y', '%', '#'] =
    [.plain 'a', .known ['0', 'l'] 'd', .unknown ['5'] (some 'y'), .unknown ['#'] none] := by decide

theorem Arguments.skip_skip (args : Arguments) (n m : Nat) : (args.skip n).skip m = args.skip (n + m) := by
  simp only [Arguments.skip, Nat.add_assoc]

theorem Arguments.int_skip (args : Arguments) (n m : Nat) : (args.skip n).int m = args.int (n + m) := rfl

end Pieces

section Flags

variable {fmt before behind flags : List Char} {args supply : Arguments} {escape mid after : Escape} {fuel ap : Nat}

theorem digit_flag {c : Char} (other : isFlag c = false) : c < '0' ∨ c > '9' := by
  rw [isFlag, decide_eq_false_iff_not, not_or, not_and_or, not_le, not_le] at other
  exact other.2

/-- The scanner passes over the flags, wherever they stand in a format, if what follows them
meets `stops`. Its state afterwards depends on the arguments only. -/
def Passes (stops : Char → Prop) (flags : List Char) (args : Arguments) (escape after : Escape) : Prop :=
  ∀ (fmt before behind : List Char) (supply : Arguments) (ap fuel extra : Nat), supply.skip ap = args →
    fmt = before ++ (flags ++ behind) → stops (behind.headD nul) → flags.length + extra < fuel →
    ∃ left, extra < left ∧ reswitch fmt supply fuel escape before.length ap =
      reswitch fmt supply left after (before.length + flags.length) (ap + flags.count '*')

private theorem Passes.append {first last : Char → Prop} {front rest : List Char} (one : Passes first front args escape mid)
    (two : Passes last rest (args.skip (front.count '*')) mid after)
    (follows : ∀ behind : List Char, last (behind.headD nul) → first ((rest ++ behind).headD nul)) :
    Passes last (front ++ rest) args escape after := by
  intro fmt before behind supply ap fuel extra same split stops enough
  rw [List.length_append] at enough
  rw [List.append_assoc] at split
  obtain ⟨some, more, passed⟩ := one fmt before (rest ++ behind) supply ap fuel (rest.length + extra) same split (follows behind stops)
    (by omega)
  have here : fmt = (before ++ front) ++ (rest ++ behind) := by rw [split, List.append_assoc]
  have skipped : supply.skip (ap + front.count '*') = args.skip (front.count '*') := by rw [← same, Arguments.skip_skip]
  obtain ⟨left, enough, rested⟩ := two fmt (before ++ front) behind supply (ap + front.count '*') some extra skipped here stops more
  refine ⟨left, enough, passed.trans ?_⟩
  rw [List.length_append] at rested
  rw [rested, List.length_append, List.count_append, Nat.add_assoc before.length, Nat.add_assoc ap]

private theorem Passes.single {c : Char} (step : ∀ {fmt before behind supply ap fuel}, supply.skip ap = args → fmt = before ++ c :: behind →
    reswitch fmt supply (fuel + 1) escape before.length ap = reswitch fmt supply fuel after (before.length + 1) (ap + [c].count '*')) :
    Passes (fun _ => True) [c] args escape after := by
  intro fmt before behind supply ap fuel extra same split stops enough
  rw [List.length_singleton] at enough
  obtain ⟨fuel, rfl⟩ : ∃ less, fuel = less + 1 := ⟨fuel - 1, by omega⟩
  exact ⟨fuel, by omega, step same split⟩

private theorem reswitch_dot (split : fmt = before ++ '.' :: behind) : reswitch fmt args (fuel + 1) escape before.length ap =
    reswitch fmt args fuel (if escape.width < 0 then { escape with width := 0 } else escape) (before.length + 1) ap := by
  rw [reswitch, split, charAt_append, ok_bind]
  rfl

private theorem reswitch_sharp (split : fmt = before ++ '#' :: behind) : reswitch fmt args (fuel + 1) escape before.length ap =
    reswitch fmt args fuel { escape with altflag := true } (before.length + 1) ap := by
  rw [reswitch, split, charAt_append, ok_bind]
  rfl

private theorem zero_digit {c : Char} (low : '0' ≤ c) (small : ¬ '1' ≤ c) : c = '0' := by
  apply Char.toNat_inj.mp
  have least : '0'.toNat ≤ c.toNat := low
  have most : ¬ '1'.toNat ≤ c.toNat := small
  simp only [Char.reduceToNat] at least most ⊢
  omega

private theorem passes_flag {c : Char} (flag : isFlag c = true) (other : ¬ ('1' ≤ c ∧ c ≤ '9')) (args : Arguments) (escape : Escape) :
    ∃ after, Passes (fun _ => True) [c] args escape after := by
  rw [isFlag, decide_eq_true_eq] at flag
  rcases flag with special | digit
  · simp only [List.mem_cons, List.not_mem_nil, or_false] at special
    rcases special with rfl | rfl | rfl | rfl | rfl
    · exact ⟨_, .single fun _ split => reswitch_minus split⟩
    · refine ⟨escape.processPrecision (args.int 0), .single ?_⟩
      intro fmt before behind supply ap fuel same split
      rw [← same, Arguments.int_skip]
      exact reswitch_star split
    · exact ⟨_, .single fun _ split => reswitch_dot split⟩
    · exact ⟨_, .single fun _ split => reswitch_sharp split⟩
    · exact ⟨_, .single fun _ split => reswitch_long split⟩
  · have zero := zero_digit digit.1 (fun low => other ⟨low, digit.2⟩)
    subst zero
    exact ⟨_, .single fun _ split => reswitch_zero split⟩

private theorem passes_width {ch : Char} {digits : List Char} (leading : '1' ≤ ch ∧ ch ≤ '9')
    (numeric : ∀ d ∈ digits, '0' ≤ d ∧ d ≤ '9') (args : Arguments) (escape : Escape) :
    ∃ after, Passes (fun c => c < '0' ∨ c > '9') (ch :: digits) args escape after := by
  refine ⟨escape.processPrecision (cInt (Nat.ofDigitChars 10 (ch :: digits) 0 : Nat)), ?_⟩
  intro fmt before behind supply ap fuel extra same split stops enough
  rw [List.length_cons] at enough
  obtain ⟨fuel, rfl⟩ : ∃ less, fuel = less + 1 := ⟨fuel - 1, by omega⟩
  refine ⟨fuel, by omega, ?_⟩
  have here : charAt fmt before.length = .ok ch := by
    rw [split]
    exact charAt_append before ch (digits ++ behind)
  have next : fmt = (before ++ [ch]) ++ (digits ++ behind) := by
    rw [split, List.append_assoc, List.singleton_append, List.cons_append]
  have low : '0' ≤ ch := le_trans (by decide) leading.1
  have scanned := @scanWidth_spec fmt (before ++ [ch]) behind (fuel + 1) digits 0 ch numeric ⟨low, leading.2⟩ stops next (by omega)
  rw [List.length_append, List.length_singleton] at scanned
  have other : ch ≠ '-' ∧ ch ≠ '0' := by
    constructor
    · rintro rfl
      exact absurd leading.1 (by decide)
    · rintro rfl
      exact absurd leading.1 (by decide)
  have digit : ∀ d ∈ ch :: digits, '*' ≠ d := by
    rintro d inside rfl
    rcases List.mem_cons.mp inside with same | inside
    · exact absurd (same ▸ low) (by decide)
    · exact absurd (numeric '*' inside).1 (by decide)
  have none : (ch :: digits).count '*' = 0 := List.count_eq_zero.mpr fun inside => digit _ inside rfl
  rw [reswitch, here, ok_bind, if_neg other.1, if_neg other.2, if_pos leading,
    show scanWidth fmt (fuel + 1) 0 ch (before.length + 1) = scanWidth fmt (fuel + 1) (cInt (0 : Nat)) ch (before.length + 1) from rfl,
    scanned, ok_bind, none, List.length_cons]
  dsimp only
  rw [Nat.add_assoc before.length, Nat.add_comm 1]
  rfl

theorem passes_flags (flags : List Char) (flagged : ∀ c ∈ flags, isFlag c = true) (args : Arguments) (escape : Escape) :
    ∃ after, Passes (fun c => isFlag c = false) flags args escape after := by
  have nothing : ∀ args escape, Passes (fun c => isFlag c = false) [] args escape escape := by
    intro args escape fmt before behind supply ap fuel extra _ _ _ enough
    rw [List.length_nil, Nat.zero_add] at enough
    exact ⟨fuel, enough, rfl⟩
  obtain ⟨size, bound⟩ : ∃ size, flags.length ≤ size := ⟨_, le_refl _⟩
  -- A width is passed as a whole, so the induction is on the length.
  induction size generalizing flags args escape with
  | zero =>
    rw [List.length_eq_zero_iff.mp (Nat.le_zero.mp bound)]
    exact ⟨escape, nothing args escape⟩
  | succ size ih =>
    cases flags with
    | nil => exact ⟨escape, nothing args escape⟩
    | cons c rest =>
      rw [List.length_cons] at bound
      have others : ∀ d ∈ rest, isFlag d = true := fun d inside => flagged d (List.mem_cons_of_mem _ inside)
      by_cases leading : '1' ≤ c ∧ c ≤ '9'
      · obtain ⟨digits, rest, rfl, numeric, ends⟩ := exists_run Char.isDigit rest
        rw [List.length_append] at bound
        obtain ⟨mid, one⟩ := passes_width leading (fun d inside => isDigit_iff.mp (numeric d inside)) args escape
        obtain ⟨after, two⟩ := ih rest (fun d inside => others d (List.mem_append_right _ inside)) (args.skip ((c :: digits).count '*')) mid
          (by omega)
        refine ⟨after, one.append two ?_⟩
        -- Behind the width stands another flag, or what ends the flags.
        intro behind stops
        cases rest with
        | nil => exact digit_flag stops
        | cons d rest =>
          have other := ends d rfl
          rw [← Bool.not_eq_true, isDigit_iff, not_and_or, not_le, not_le] at other
          exact other
      · obtain ⟨mid, one⟩ := passes_flag (flagged c List.mem_cons_self) leading args escape
        obtain ⟨after, two⟩ := ih rest others (args.skip ([c].count '*')) mid (by omega)
        exact ⟨after, one.append two fun _ _ => trivial⟩

end Flags

section Conversions

variable {fmt before behind flags : List Char} {args supply : Arguments} {escape : Escape} {fuel i ap : Nat} {c conversion : Char}

theorem printError_ok {err : Int} (low : -2 ^ 31 ≤ err) (high : err < 2 ^ 31) : (∃ out, printError err = .ok out) ↔ err ≠ -2 ^ 31 := by
  have turned : (if err < 0 then cInt (-err) else err) < 0 ↔ err = -2 ^ 31 := by
    by_cases least : err = -2 ^ 31
    · subst least
      decide
    · refine iff_of_false ?_ least
      split
      next negative =>
        rw [cInt, Int.bmod_eq_of_le (by omega) (by omega)]
        omega
      next positive => exact positive
  rw [printError]
  rw [ne_eq, ← turned]
  generalize (if err < 0 then cInt (-err) else err) = err
  by_cases negative : err < 0
  · rw [if_pos negative]
    refine iff_of_false ?_ (not_not_intro negative)
    rintro ⟨out, same⟩
    cases same
  · rw [if_neg negative]
    refine iff_of_true ?_ negative
    cases (if err > maxError then none else errorString err) with
    | some text => exact ⟨_, rfl⟩
    | none =>
      dsimp only
      rw [Escape.decimal_spec]
      exact ⟨_, rfl⟩

/-- What a known conversion prints in the state `escape`, wherever it stands in a format. -/
def Prints (conversion : Char) (args : Arguments) (escape : Escape) (printed : Kern (List Char)) : Prop :=
  ∀ {fmt before behind : List Char} {supply : Arguments} {ap fuel : Nat}, supply.skip ap = args → fmt = before ++ conversion :: behind →
    reswitch fmt supply (fuel + 1) escape before.length ap =
      printed >>= fun out => .ok (out, before.length + 1, ap + taken conversion)

private theorem prints_regular (out : List Char) (regular : conversion ≠ 'e') (prints : Prints conversion args escape (.ok out)) :
    ∃ printed, Prints conversion args escape printed ∧ ((∃ out, printed = .ok out) ↔ (conversion = 'e' → args.int 0 ≠ -2 ^ 31)) :=
  ⟨.ok out, prints, iff_of_true ⟨out, rfl⟩ fun error => absurd error regular⟩

theorem reswitch_known (known : isConversion conversion = true) (args : Arguments) (escape : Escape) :
    ∃ printed, Prints conversion args escape printed ∧ ((∃ out, printed = .ok out) ↔ (conversion = 'e' → args.int 0 ≠ -2 ^ 31)) := by
  have number : ∀ num base, 2 ≤ base → base ≤ 16 → ∃ out, escape.number num base = .ok out :=
    fun num base low high => ⟨_, escape.number_spec num low high⟩
  rw [isConversion, decide_eq_true_eq] at known
  simp only [List.mem_cons, List.not_mem_nil, or_false] at known
  rcases known with rfl | rfl | rfl | rfl | rfl | rfl | rfl | rfl | rfl
  · refine prints_regular [Char.ofNat ((args.slot 0).toNat % 256)] (by decide) ?_
    rintro fmt before behind supply ap fuel rfl split
    rw [reswitch, split, charAt_append, ok_bind]
    rfl
  · refine ⟨printError (args.int 0), ?_, ?_⟩
    · rintro fmt before behind supply ap fuel rfl split
      rw [reswitch, split, charAt_append, ok_bind]
      rfl
    · rw [printError_ok (BitVec.le_toInt _) BitVec.toInt_lt]
      exact ⟨fun other _ => other, fun other => other rfl⟩
  · refine prints_regular (escape.string (if args.slot 0 = 0 then ['(', 'n', 'u', 'l', 'l', ')'] else args.text (args.slot 0)))
      (by decide) ?_
    rintro fmt before behind supply ap fuel rfl split
    rw [reswitch, split, charAt_append, ok_bind]
    rfl
  · obtain ⟨out, printed⟩ : ∃ out, escape.decimal (getint args 0 escape.lflag) = .ok out := ⟨_, escape.decimal_spec _⟩
    refine prints_regular out (by decide) ?_
    rintro fmt before behind supply ap fuel rfl split
    rw [reswitch, split, charAt_append, ok_bind]
    change (escape.decimal (getint (supply.skip ap) 0 escape.lflag) >>= fun out => .ok (out, before.length + 1, ap + 1)) = _
    rw [printed]
    rfl
  · obtain ⟨out, printed⟩ := number (getuint args 0 escape.lflag) 10 (by decide) (by decide)
    refine prints_regular out (by decide) ?_
    rintro fmt before behind supply ap fuel rfl split
    rw [reswitch, split, charAt_append, ok_bind]
    change (escape.number (getuint (supply.skip ap) 0 escape.lflag) 10 >>= fun out => .ok (out, before.length + 1, ap + 1)) = _
    rw [printed]
    rfl
  · obtain ⟨out, printed⟩ := number (getuint args 0 escape.lflag) 8 (by decide) (by decide)
    refine prints_regular out (by decide) ?_
    rintro fmt before behind supply ap fuel rfl split
    rw [reswitch, split, charAt_append, ok_bind]
    change (escape.number (getuint (supply.skip ap) 0 escape.lflag) 8 >>= fun out => .ok (out, before.length + 1, ap + 1)) = _
    rw [printed]
    rfl
  · obtain ⟨out, printed⟩ := number (args.slot 0) 16 (by decide) (by decide)
    refine prints_regular ('0' :: 'x' :: out) (by decide) ?_
    rintro fmt before behind supply ap fuel rfl split
    rw [reswitch, split, charAt_append, ok_bind]
    change (escape.number ((supply.skip ap).slot 0) 16 >>= fun out => .ok ('0' :: 'x' :: out, before.length + 1, ap + 1)) = _
    rw [printed]
    rfl
  · obtain ⟨out, printed⟩ := number (getuint args 0 escape.lflag) 16 (by decide) (by decide)
    refine prints_regular out (by decide) ?_
    rintro fmt before behind supply ap fuel rfl split
    rw [reswitch, split, charAt_append, ok_bind]
    change (escape.number (getuint (supply.skip ap) 0 escape.lflag) 16 >>= fun out => .ok (out, before.length + 1, ap + 1)) = _
    rw [printed]
    rfl
  · refine prints_regular ['%'] (by decide) ?_
    rintro fmt before behind supply ap fuel rfl split
    rw [reswitch, split, charAt_append, ok_bind]
    rfl

theorem flag_stops (known : isConversion conversion = true) : isFlag conversion = false := by
  rw [isConversion, decide_eq_true_eq] at known
  simp only [List.mem_cons, List.not_mem_nil, or_false] at known
  rcases known with rfl | rfl | rfl | rfl | rfl | rfl | rfl | rfl | rfl <;> decide

/-- An escape prints what it prints alone, and the scanner goes on behind it. -/
theorem escape_known (flagged : ∀ c ∈ flags, isFlag c = true) (known : isConversion conversion = true) (args : Arguments) :
    (∀ {fmt before behind : List Char} {supply : Arguments} {ap fuel : Nat}, supply.skip ap = args →
      fmt = before ++ (flags ++ conversion :: behind) → flags.length < fuel →
      reswitch fmt supply fuel .start before.length ap = vprintfmt (Piece.known flags conversion).text args >>= fun out =>
        .ok (out, before.length + flags.length + 1, ap + flags.count '*' + taken conversion)) ∧
    ((∃ out, vprintfmt (Piece.known flags conversion).text args = .ok out) ↔
      (conversion = 'e' → args.int (flags.count '*') ≠ -2 ^ 31)) := by
  obtain ⟨after, passes⟩ := passes_flags flags flagged args .start
  obtain ⟨printed, prints, regular⟩ := reswitch_known known (args.skip (flags.count '*')) after
  have switched : ∀ {fmt before behind : List Char} {supply : Arguments} {ap fuel : Nat}, supply.skip ap = args →
      fmt = before ++ (flags ++ conversion :: behind) → flags.length < fuel →
      reswitch fmt supply fuel .start before.length ap = printed >>= fun out =>
        .ok (out, before.length + flags.length + 1, ap + flags.count '*' + taken conversion) := by
    intro fmt before behind supply ap fuel same split enough
    obtain ⟨left, more, passed⟩ := passes fmt before (conversion :: behind) supply ap fuel 0 same split (flag_stops known) enough
    obtain ⟨left, rfl⟩ : ∃ less, left = less + 1 := ⟨left - 1, by omega⟩
    have here : fmt = (before ++ flags) ++ conversion :: behind := by rw [split, List.append_assoc]
    have skipped : supply.skip (ap + flags.count '*') = args.skip (flags.count '*') := by rw [← same, Arguments.skip_skip]
    have shown := @prints fmt (before ++ flags) behind supply (ap + flags.count '*') left skipped here
    rw [List.length_append] at shown
    rw [passed, shown]
  have alone : vprintfmt (Piece.known flags conversion).text args = printed := by
    have skipped : args.skip 0 = args := by simp only [Arguments.skip, Nat.zero_add]
    have length : (Piece.known flags conversion).text.length = ['%'].length + flags.length + 1 := by
      simp only [Piece.text, List.length_cons, List.length_append, List.length_nil]
      omega
    refine @vprintfmt_single (Piece.known flags conversion).text args (flags ++ [conversion]) printed
      (0 + flags.count '*' + taken conversion) rfl ?_
    rw [length]
    exact @switched _ ['%'] [] args 0 _ skipped rfl (by omega)
  rw [alone]
  exact ⟨switched, regular⟩

theorem walkBack_spec (flagged : ∀ c ∈ flags, c ≠ '%') (split : fmt = before ++ '%' :: (flags ++ behind)) :
    walkBack fmt (before.length + 1 + flags.length) = .ok (before.length + 1) := by
  induction flags using List.reverseRecOn generalizing behind with
  | nil =>
    have here : charAt fmt before.length = .ok '%' := by
      rw [split]
      exact charAt_append before '%' _
    rw [List.length_nil, Nat.add_zero, walkBack, here, ok_bind, if_pos rfl]
  | append_singleton flags c ih =>
    have here : charAt fmt (before.length + 1 + flags.length) = .ok c := by
      have place : before.length + 1 + flags.length = (before ++ '%' :: flags).length := by
        rw [List.length_append, List.length_cons]
        omega
      rw [split, place, List.append_assoc, ← List.cons_append, ← List.append_assoc]
      exact charAt_append _ c behind
    have other : c ≠ '%' := flagged c (List.mem_append_right _ List.mem_cons_self)
    rw [List.append_assoc] at split
    rw [List.length_append, List.length_singleton, ← Nat.add_assoc, walkBack, here, ok_bind, if_neg other]
    exact ih (fun d inside => flagged d (List.mem_append_left _ inside)) split

theorem reswitch_unknown (here : charAt fmt i = .ok c) (flag : isFlag c = false) (unknown : isConversion c = false) :
    reswitch fmt args (fuel + 1) escape i ap = walkBack fmt i >>= fun i => .ok (['%'], i, ap) := by
  rw [isFlag, decide_eq_false_iff_not] at flag
  rw [isConversion, decide_eq_false_iff_not] at unknown
  simp only [List.mem_cons, List.not_mem_nil, or_false, not_or] at flag unknown
  have zero : c ≠ '0' := by
    rintro rfl
    exact flag.2 (by decide)
  have digit : ¬ ('1' ≤ c ∧ c ≤ '9') := fun digit => flag.2 ⟨le_trans (by decide) digit.1, digit.2⟩
  simp only [reswitch, here, ok_bind, flag, unknown, zero, digit, if_false]

theorem escape_unknown (flagged : ∀ c ∈ flags, isFlag c = true) (split : fmt = before ++ '%' :: (flags ++ behind))
    (flag : isFlag (behind.headD nul) = false) (unknown : isConversion (behind.headD nul) = false) (enough : flags.length < fuel) :
    reswitch fmt args fuel .start (before.length + 1) ap = .ok (['%'], before.length + 1, ap + flags.count '*') := by
  obtain ⟨after, passes⟩ := passes_flags flags flagged (args.skip ap) .start
  have inside : fmt = (before ++ ['%']) ++ (flags ++ behind) := by
    rw [split, List.append_assoc, List.singleton_append]
  have there : fmt = (before ++ '%' :: flags) ++ behind := by
    rw [split, List.append_assoc, List.cons_append]
  obtain ⟨left, more, passed⟩ := passes fmt (before ++ ['%']) behind args ap fuel 0 rfl inside flag enough
  obtain ⟨left, rfl⟩ : ∃ less, left = less + 1 := ⟨left - 1, by omega⟩
  rw [List.length_append, List.length_singleton] at passed
  have here : charAt fmt (before.length + 1 + flags.length) = .ok (behind.headD nul) := by
    have place : before.length + 1 + flags.length = (before ++ '%' :: flags).length := by
      rw [List.length_append, List.length_cons]
      omega
    rw [there, place]
    exact charAt_next _ behind
  have regular : ∀ c ∈ flags, c ≠ '%' := by
    rintro c inside rfl
    exact absurd (flagged '%' inside) (by decide)
  rw [passed, reswitch_unknown here flag unknown, walkBack_spec regular split]
  rfl

end Conversions

section Scan

variable {fmt before behind plains flags : List Char} {args : Arguments} {fuel ap : Nat} {c : Char}

private theorem echo_plains (regular : ∀ c ∈ plains, c ≠ '%' ∧ c ≠ nul) (split : fmt = before ++ (plains ++ behind)) :
    echo fmt (plains.length + fuel) before.length =
      echo fmt fuel (before.length + plains.length) >>= fun found => .ok (plains ++ found.1, found.2) := by
  induction plains generalizing before with
  | nil =>
    rw [List.length_nil, Nat.zero_add, Nat.add_zero]
    cases echo fmt fuel before.length with
    | error e => rfl
    | ok found => rfl
  | cons c plains ih =>
    have here : charAt fmt before.length = .ok c := by
      rw [split]
      exact charAt_append before c (plains ++ behind)
    have next : fmt = (before ++ [c]) ++ (plains ++ behind) := by
      rw [split, List.append_assoc, List.singleton_append, List.cons_append]
    have this := regular c List.mem_cons_self
    have rest := @ih (before ++ [c]) (fun d inside => regular d (List.mem_cons_of_mem _ inside)) next
    rw [List.length_append, List.length_singleton] at rest
    rw [List.length_cons, Nat.add_right_comm, echo, here, ok_bind, if_neg this.1, if_neg this.2, rest, Nat.add_assoc before.length,
      Nat.add_comm 1]
    cases echo fmt fuel (before.length + (plains.length + 1)) with
    | error e => rfl
    | ok found => rfl

theorem echo_end (regular : ∀ c ∈ plains, c ≠ '%' ∧ c ≠ nul) (split : fmt = before ++ plains) :
    echo fmt (fmt.length + 1) before.length = .ok (plains, none) := by
  have ends : echo fmt (before.length + 1) (before.length + plains.length) = .ok ([], none) := by
    rw [echo, split, ← List.length_append, charAt_end]
    rfl
  have whole : fmt = before ++ (plains ++ []) := by rw [List.append_nil, split]
  have length : fmt.length + 1 = plains.length + (before.length + 1) := by
    rw [split, List.length_append]
    omega
  rw [length, echo_plains regular whole, ends, ok_bind, List.append_nil]

theorem echo_escape (regular : ∀ c ∈ plains, c ≠ '%' ∧ c ≠ nul) (split : fmt = before ++ (plains ++ '%' :: behind)) :
    echo fmt (fmt.length + 1) before.length = .ok (plains, some ((before ++ plains).length + 1)) := by
  have here : charAt fmt (before.length + plains.length) = .ok '%' := by
    rw [split, ← List.append_assoc, ← List.length_append]
    exact charAt_append _ '%' behind
  have opens : echo fmt (before.length + behind.length + 2) (before.length + plains.length) =
      .ok ([], some (before.length + plains.length + 1)) := by
    rw [echo, here, ok_bind, if_pos rfl]
  have length : fmt.length + 1 = plains.length + (before.length + behind.length + 2) := by
    rw [split, List.length_append, List.length_append, List.length_cons]
    omega
  rw [length, echo_plains regular split, opens, ok_bind, List.append_nil, List.length_append]

theorem pieces_plain (regular : ∀ c ∈ plains, c ≠ '%') (behind : List Char) :
    pieces (plains ++ behind) = plains.map Piece.plain ++ pieces behind := by
  induction plains with
  | nil => rfl
  | cons c plains ih =>
    have rest := ih fun d inside => regular d (List.mem_cons_of_mem _ inside)
    rw [List.cons_append, pieces, piecesFrom, if_neg (regular c List.mem_cons_self), ← pieces, rest]
    rfl

private theorem piecesFrom_flags (front : List Char) (flagged : ∀ c ∈ flags, isFlag c = true) (behind : List Char) :
    piecesFrom (some front) (flags ++ behind) = piecesFrom (some (front ++ flags)) behind := by
  induction flags generalizing front with
  | nil => rw [List.nil_append, List.append_nil]
  | cons c flags ih =>
    rw [List.cons_append, piecesFrom, if_pos (flagged c List.mem_cons_self),
      ih (front ++ [c]) fun d inside => flagged d (List.mem_cons_of_mem _ inside), List.append_assoc, List.singleton_append]

theorem pieces_escape (flagged : ∀ c ∈ flags, isFlag c = true) (behind : List Char) :
    pieces ('%' :: (flags ++ behind)) = piecesFrom (some flags) behind := by
  rw [pieces, piecesFrom, if_pos rfl, piecesFrom_flags [] flagged]
  rfl

theorem emission_plain (plains : List Char) (rest : List Piece) : emission args ap (plains.map Piece.plain ++ rest) =
    emission args ap rest >>= fun others => .ok (plains ++ others) := by
  induction plains with
  | nil =>
    cases same : emission args ap rest with
    | error e => exact same
    | ok others => exact same
  | cons c plains ih =>
    rw [List.map_cons, List.cons_append, emission, ih]
    cases emission args ap rest with
    | error e => rfl
    | ok others => rfl

private theorem emission_unknown (stop : Option Char) (flagged : ∀ c ∈ flags, isFlag c = true) (regular : ∀ c ∈ stop, c ≠ '%') :
    emission args ap (.unknown flags stop :: pieces behind) =
      emission args (ap + flags.count '*') (pieces (flags ++ (stop.toList ++ behind))) >>= fun others => .ok ('%' :: others) := by
  have plain : ∀ c ∈ flags ++ stop.toList, c ≠ '%' := by
    rintro c inside rfl
    rcases List.mem_append.mp inside with flag | last
    · exact absurd (flagged '%' flag) (by decide)
    · exact regular '%' (Option.mem_toList.mp last) rfl
  rw [← List.append_assoc, pieces_plain plain, emission_plain, emission]
  cases emission args (ap + flags.count '*') (pieces behind) with
  | error e => rfl
  | ok others => rfl

private theorem pieces_unknown (flagged : ∀ c ∈ flags, isFlag c = true) (flag : isFlag (behind.headD nul) = false)
    (unknown : isConversion (behind.headD nul) = false) :
    pieces ('%' :: (flags ++ behind)) = .unknown flags behind.head? :: pieces behind.tail := by
  rw [pieces_escape flagged]
  cases behind with
  | nil => rfl
  | cons c behind =>
    have this : isFlag c = false ∧ isConversion c = false := ⟨flag, unknown⟩
    rw [piecesFrom, this.1, this.2]
    rfl

private theorem scan_known {rest : List Char} (regular : ∀ c ∈ plains, c ≠ '%' ∧ c ≠ nul) (flagged : ∀ c ∈ flags, isFlag c = true)
    (known : isConversion c = true) (split : fmt = before ++ (plains ++ '%' :: (flags ++ c :: rest)))
    (resumes : ∀ ap, scan fmt args fuel (before ++ (plains ++ '%' :: (flags ++ [c]))).length ap = emission args ap (pieces rest)) :
    scan fmt args (fuel + 1) before.length ap = emission args ap (pieces (plains ++ '%' :: (flags ++ c :: rest))) := by
  have inside : fmt = (before ++ plains ++ ['%']) ++ (flags ++ c :: rest) := by
    rw [split]
    simp only [List.append_assoc, List.cons_append, List.nil_append]
  have length : flags.length < fmt.length + 1 := by
    simp only [split, List.length_append, List.length_cons]
    omega
  have place : (before ++ plains).length + 1 + flags.length + 1 = (before ++ (plains ++ '%' :: (flags ++ [c]))).length := by
    simp only [List.length_append, List.length_cons, List.length_nil]
    omega
  have switched := (escape_known flagged known (args.skip ap)).1 rfl inside length
  rw [List.length_append, List.length_singleton, place] at switched
  rw [scan, echo_escape regular split, ok_bind]
  dsimp only
  rw [switched, pieces_plain fun c inside => (regular c inside).1, emission_plain, pieces_escape flagged, piecesFrom, flag_stops known,
    if_neg Bool.false_ne_true, if_pos known, emission]
  cases vprintfmt (Piece.known flags c).text (args.skip ap) with
  | error e => rfl
  | ok out =>
    rw [ok_bind, ok_bind, ok_bind]
    dsimp only
    rw [resumes, ← pieces]
    cases emission args (ap + flags.count '*' + taken c) (pieces rest) with
    | error e => rfl
    | ok others => rw [ok_bind, ok_bind, ok_bind, List.append_assoc]

private theorem scan_unknown {rest : List Char} (regular : ∀ c ∈ plains, c ≠ '%' ∧ c ≠ nul) (flagged : ∀ c ∈ flags, isFlag c = true)
    (flag : isFlag (rest.headD nul) = false) (unknown : isConversion (rest.headD nul) = false)
    (split : fmt = before ++ (plains ++ '%' :: (flags ++ rest)))
    (resumes : ∀ ap, scan fmt args fuel (before ++ (plains ++ ['%'])).length ap = emission args ap (pieces (flags ++ rest))) :
    scan fmt args (fuel + 1) before.length ap = emission args ap (pieces (plains ++ '%' :: (flags ++ rest))) := by
  have inside : fmt = (before ++ plains) ++ '%' :: (flags ++ rest) := by rw [split, List.append_assoc]
  have length : flags.length < fmt.length + 1 := by
    simp only [split, List.length_append, List.length_cons]
    omega
  have place : (before ++ plains).length + 1 = (before ++ (plains ++ ['%'])).length := by
    simp only [List.length_append, List.length_cons, List.length_nil]
    omega
  have stop : ∀ c ∈ rest.head?, c ≠ '%' := by
    rintro c first rfl
    cases rest with
    | nil => cases first
    | cons d rest =>
      cases first
      have percent : isConversion '%' = true := by decide
      exact absurd (percent.symm.trans unknown) (by decide)
  have whole : rest.head?.toList ++ rest.tail = rest := by cases rest <;> rfl
  rw [scan, echo_escape regular split, ok_bind]
  dsimp only
  rw [escape_unknown flagged inside flag unknown length, ok_bind]
  dsimp only
  rw [place, resumes, pieces_plain fun c inside => (regular c inside).1, emission_plain, pieces_unknown flagged flag unknown,
    emission_unknown _ flagged stop, whole]
  cases emission args (ap + flags.count '*') (pieces (flags ++ rest)) with
  | error e => rfl
  | ok others =>
    rw [ok_bind, ok_bind, ok_bind, List.append_assoc]
    rfl

/-- The scanner prints the pieces of what it has not read yet. The induction is on the fuel,
since behind the `%` of an unknown escape the scanner goes on inside of it. -/
theorem scan_spec (ended : nul ∉ fmt) (split : fmt = before ++ behind) (enough : behind.length < fuel) :
    scan fmt args fuel before.length ap = emission args ap (pieces behind) := by
  induction fuel generalizing before behind ap with
  | zero => exact absurd enough (Nat.not_lt_zero _)
  | succ fuel ih =>
    obtain ⟨plains, tail, rfl, plain, stops⟩ := exists_run (fun c => c ≠ '%') behind
    have percent : ∀ c ∈ plains, c ≠ '%' := fun c inside => of_decide_eq_true (plain c inside)
    have regular : ∀ c ∈ plains, c ≠ '%' ∧ c ≠ nul := by
      refine fun c inside => ⟨percent c inside, ?_⟩
      rintro rfl
      rw [split] at ended
      exact ended (List.mem_append_right _ (List.mem_append_left _ inside))
    cases tail with
    | nil =>
      rw [List.append_nil] at split
      rw [pieces_plain percent, emission_plain, scan, echo_end regular split, ok_bind]
      dsimp only
      rw [show emission args ap (pieces []) = .ok [] from rfl, ok_bind, List.append_nil]
    | cons c body =>
      have opens : c = '%' := by simpa using stops c rfl
      subst opens
      obtain ⟨flags, rest, rfl, flagged, ends⟩ := exists_run isFlag body
      simp only [List.length_append, List.length_cons] at enough
      cases known : isConversion (rest.headD nul) with
      | true =>
        cases rest with
        | nil => exact absurd known (by decide)
        | cons c rest =>
          rw [List.headD_cons] at known
          rw [List.length_cons] at enough
          apply scan_known regular flagged known split
          intro ap
          apply ih _ (by omega)
          rw [split]
          simp only [List.append_assoc, List.cons_append, List.nil_append]
      | false =>
        have flag : isFlag (rest.headD nul) = false := by
          cases rest with
          | nil => rfl
          | cons c rest => exact ends c rfl
        apply scan_unknown regular flagged flag known split
        intro ap
        apply ih
        · rw [split]
          simp only [List.append_assoc, List.cons_append, List.nil_append]
        · rw [List.length_append]
          omega

theorem vprintfmt_spec (ended : nul ∉ fmt) : vprintfmt fmt args = emission args 0 (pieces fmt) :=
  @scan_spec fmt [] fmt args (fmt.length + 1) 0 ended rfl (Nat.lt_succ_self _)

/-- The flags and the conversion of a known piece. -/
def Piece.WellFormed : Piece → Prop
  | known flags conversion => (∀ c ∈ flags, isFlag c = true) ∧ isConversion conversion = true
  | plain _ | unknown _ _ => True

theorem pieces_wellFormed (fmt : List Char) : ∀ piece ∈ pieces fmt, piece.WellFormed := by
  have inside : ∀ (state : Option (List Char)) (fmt : List Char), (∀ flags ∈ state, ∀ c ∈ flags, isFlag c = true) →
      ∀ piece ∈ piecesFrom state fmt, piece.WellFormed := by
    intro state fmt flagged
    induction fmt generalizing state with
    | nil =>
      cases state with
      | none => simp [piecesFrom]
      | some flags => simp [piecesFrom, Piece.WellFormed]
    | cons c fmt ih =>
      cases state with
      | none =>
        rw [piecesFrom]
        split
        next => exact ih _ (by simp)
        next => exact List.forall_mem_cons.mpr ⟨trivial, ih _ (by simp)⟩
      | some flags =>
        rw [piecesFrom]
        split
        next flag =>
          apply ih
          rintro - ⟨⟩ d inside
          rcases List.mem_append.mp inside with early | last
          · exact flagged flags rfl d early
          · rw [List.mem_singleton.mp last]
            exact flag
        next =>
          split
          next known => exact List.forall_mem_cons.mpr ⟨⟨flagged flags rfl, known⟩, ih _ (by simp)⟩
          next => exact List.forall_mem_cons.mpr ⟨trivial, ih _ (by simp)⟩
  exact inside none fmt (by simp)

private theorem bind_ok_iff {rest : Kern (List Char)} {front : List Char} :
    (∃ out, (rest >>= fun others => .ok (front ++ others)) = .ok out) ↔ ∃ others, rest = .ok others := by
  cases rest with
  | error e =>
    refine iff_of_false ?_ ?_
    · rintro ⟨out, same⟩
      cases same
    · rintro ⟨others, same⟩
      cases same
  | ok others => exact iff_of_true ⟨_, rfl⟩ ⟨_, rfl⟩

theorem emission_ok (ps : List Piece) (formed : ∀ piece ∈ ps, piece.WellFormed) :
    (∃ out, emission args ap ps = .ok out) ↔ ∀ n ∈ errorArguments ap ps, args.int n ≠ -2 ^ 31 := by
  induction ps generalizing ap with
  | nil => exact iff_of_true ⟨[], rfl⟩ (by simp [errorArguments])
  | cons piece ps ih =>
    have rest := fun ap => @ih ap fun piece inside => formed piece (List.mem_cons_of_mem _ inside)
    cases piece with
    | plain c =>
      rw [emission, bind_ok_iff, errorArguments]
      exact rest ap
    | unknown flags stop =>
      rw [emission, bind_ok_iff, errorArguments]
      exact rest _
    | known flags conversion =>
      have this := formed _ List.mem_cons_self
      have regular := (escape_known this.1 this.2 (args.skip ap)).2
      rw [Arguments.int_skip] at regular
      have first : (∀ n ∈ (if conversion = 'e' then [ap + flags.count '*'] else []), args.int n ≠ -2 ^ 31) ↔
          (conversion = 'e' → args.int (ap + flags.count '*') ≠ -2 ^ 31) := by
        by_cases error : conversion = 'e'
        · simp [error]
        · simp [error]
      rw [emission, errorArguments, List.forall_mem_append, first, ← regular, ← rest]
      cases vprintfmt (Piece.known flags conversion).text (args.skip ap) with
      | error e =>
        refine iff_of_false ?_ ?_
        · rintro ⟨out, same⟩
          cases same
        · rintro ⟨⟨out, same⟩, -⟩
          cases same
      | ok printed =>
        rw [ok_bind, bind_ok_iff, and_iff_right ⟨printed, rfl⟩]

/-- The pieces are the format, and they are printed one after the other up to its end exactly if
no `%e` gets the least `int`. -/
theorem format_scan (fmt : List Char) (args : Arguments) (ended : nul ∉ fmt) :
    (pieces fmt).flatMap Piece.text = fmt ∧
      ((∃ out, vprintfmt fmt args = .ok out ∧ emission args 0 (pieces fmt) = .ok out) ↔
        ∀ n ∈ errorArguments 0 (pieces fmt), args.int n ≠ -2 ^ 31) := by
  refine ⟨pieces_text fmt, ?_⟩
  rw [vprintfmt_spec ended, ← emission_ok (pieces fmt) (pieces_wellFormed fmt)]
  exact exists_congr fun out => and_self_iff

/-- A known escape, and one that the end of the string cuts off. -/
theorem format_scan_cut : ∃ out, vprintfmt ['a', '%', 'e', '%', '5', '.'] ⟨fun _ => 4, fun _ => []⟩ = .ok out ∧
    emission ⟨fun _ => 4, fun _ => []⟩ 0 (pieces ['a', '%', 'e', '%', '5', '.']) = .ok out :=
  (format_scan ['a', '%', 'e', '%', '5', '.'] ⟨fun _ => 4, fun _ => []⟩ (by decide)).2.mpr (by decide +kernel)

/-- The least `int` has no positive counterpart, and is no index of `error_string`. -/
theorem format_scan_least : ¬ ∀ (fmt : List Char) (args : Arguments), nul ∉ fmt →
    (pieces fmt).flatMap Piece.text = fmt ∧ ∃ out, vprintfmt fmt args = .ok out ∧ emission args 0 (pieces fmt) = .ok out := by
  intro ends
  obtain ⟨-, out, same, -⟩ := ends ['%', 'e'] ⟨fun _ => 0x80000000, fun _ => []⟩ (by decide)
  have fails : vprintfmt ['%', 'e'] ⟨fun _ => 0x80000000, fun _ => []⟩ = .error .fault := by rfl
  rw [fails] at same
  cases same

end Scan

end Ucore
