import Mathlib
import Ucore.Kmonitor
import Ucore.Lib.Runs

/-! The words that `parse` finds on a command line. -/

namespace Ucore
open Lib

variable {text stale front back word : List Char} {c : Char} {p fuel : Nat} {argv : Nat → Option Nat}

def blank (c : Char) : Bool := whitespace.contains c

/-- A maximal run of characters that are not blank begins at `p`. -/
def begins (text : List Char) (p : Nat) : Bool :=
  text[p]?.any (fun c => !blank c) && (p == 0 || text[p - 1]?.any blank)

/-- The places of the words, in order. -/
def wordStarts (text : List Char) : List Nat := (List.range text.length).filter (begins text)

def wordAt (text : List Char) (p : Nat) : List Char := (text.drop p).takeWhile fun c => !blank c

/-- `parse` stays within `argv`, and its strings are the first words of the line, each
in its place and with a NUL behind it. -/
structure Tokenized (text : List Char) (argv : Nat → Option Nat) (after : Parsed) : Prop where
  bounded : ∀ i ≥ maxArgs, after.argv i = argv i
  argc_le : after.argc ≤ maxArgs
  count : after.argc = min (wordStarts text).length maxArgs
  strings : ∀ i < after.argc, ∃ p, after.argv i = some p ∧ (wordStarts text)[i]? = some p ∧
    wordAt text p ++ [nul] <+: after.buf.drop p

theorem strchr_eq_none (s : List Char) : strchr s c = none ↔ c ∉ s := by
  induction s with
  | nil => simp [strchr]
  | cons d s ih =>
    by_cases same : d = c
    · simp [strchr, same]
    · simp [strchr, same, ih, Ne.symm same]

theorem strchr_whitespace : strchr whitespace c = none ↔ blank c = false := by
  rw [strchr_eq_none]
  simp [blank]

section Words

/-- The places of the words in the rest `back` of a line that goes on at `p`, and
whether a word may begin there. -/
private def startsFrom : Bool → Nat → List Char → List Nat
  | _, _, [] => []
  | fresh, p, c :: back =>
    if blank c then startsFrom true (p + 1) back
    else if fresh then p :: startsFrom false (p + 1) back
    else startsFrom false (p + 1) back

private theorem startsFrom_blanks {blanks : List Char} (all : ∀ c ∈ blanks, blank c) :
    startsFrom true p (blanks ++ back) = startsFrom true (p + blanks.length) back := by
  induction blanks generalizing p with
  | nil => rfl
  | cons c blanks ih =>
    rw [List.forall_mem_cons] at all
    rw [List.cons_append, startsFrom, if_pos all.1, ih all.2, List.length_cons, Nat.add_right_comm, Nat.add_assoc]

private theorem startsFrom_word (all : ∀ c ∈ word, blank c = false) :
    startsFrom false p (word ++ back) = startsFrom false (p + word.length) back := by
  induction word generalizing p with
  | nil => rfl
  | cons c word ih =>
    rw [List.forall_mem_cons] at all
    rw [List.cons_append, startsFrom, all.1]
    simp only [Bool.false_eq_true, if_false]
    rw [ih all.2, List.length_cons, Nat.add_right_comm, Nat.add_assoc]

private theorem startsFrom_fresh (ends : ∀ c ∈ back.head?, blank c) : startsFrom false p back = startsFrom true p back := by
  cases back with
  | nil => rfl
  | cons c back =>
    have isBlank : blank c := ends c rfl
    rw [startsFrom, startsFrom, if_pos isBlank, if_pos isBlank]

private theorem begins_append :
    begins (front ++ c :: back) front.length = (!blank c && (front.getLast?.all blank)) := by
  unfold begins
  cases front using List.reverseRecOn with
  | nil => simp
  | append_singleton front d => simp [List.append_assoc]

private theorem filter_begins (front back : List Char) :
    (List.range' front.length back.length).filter (begins (front ++ back)) =
      startsFrom (front.getLast?.all blank) front.length back := by
  induction back generalizing front with
  | nil => rfl
  | cons c back ih =>
    have rest := ih (front ++ [c])
    rw [List.append_assoc, List.singleton_append, List.length_append, List.length_singleton,
      List.getLast?_concat, Option.all_some] at rest
    rw [List.length_cons, List.range'_succ, List.filter_cons, begins_append, rest, startsFrom]
    cases blank c
    · simp
    · simp

private theorem wordStarts_eq : wordStarts text = startsFrom true 0 text := by
  have whole := filter_begins [] text
  rw [List.length_nil, ← List.range_eq_range'] at whole
  exact whole

end Words

section Loops

/-- What `parse` makes of the characters that it walks over. -/
private def cleared (text : List Char) : List Char := text.map fun c => if blank c then nul else c

private theorem cleared_word (all : ∀ c ∈ word, blank c = false) : cleared word = word := by
  rw [cleared, List.map_congr_left (g := id) (by intro c member; simp [all c member]), List.map_id]

private theorem stops_at (stale : List Char) (test : Char → Bool) (ends : ∀ c ∈ back.head?, test c = false) :
    ∃ c rest, back ++ nul :: stale = c :: rest ∧ (c = nul ∨ test c = false) := by
  cases back with
  | nil => exact ⟨nul, stale, rfl, .inl rfl⟩
  | cons c back => exact ⟨c, back ++ nul :: stale, rfl, .inr (ends c rfl)⟩

private theorem skipWhitespace_spec (front stale : List Char) (fuel : Nat) {blanks : List Char}
    (all : ∀ c ∈ blanks, blank c) (nonzero : nul ∉ blanks) (ends : ∀ c ∈ back.head?, blank c = false) (enough : blanks.length < fuel) :
    skipWhitespace fuel (front ++ (blanks ++ (back ++ nul :: stale))) front.length =
      .ok (front ++ (cleared blanks ++ (back ++ nul :: stale)), front.length + blanks.length) := by
  induction blanks generalizing front fuel with
  | nil =>
    obtain ⟨fuel, rfl⟩ := Nat.exists_eq_succ_of_ne_zero (Nat.ne_zero_of_lt enough)
    obtain ⟨c, rest, here, stops⟩ := stops_at stale blank ends
    have stop : ¬ (c ≠ nul ∧ strchr whitespace c ≠ none) := by
      rw [Ne, Ne, strchr_whitespace]
      rintro ⟨notEnd, notWord⟩
      exact stops.elim notEnd notWord
    simp [skipWhitespace, here, deref, stop, cleared]
  | cons d blanks ih =>
    obtain ⟨fuel, rfl⟩ := Nat.exists_eq_succ_of_ne_zero (Nat.ne_zero_of_lt enough)
    rw [List.forall_mem_cons] at all
    rw [List.mem_cons, not_or] at nonzero
    rw [List.length_cons] at enough
    have here : (front ++ (d :: blanks ++ (back ++ nul :: stale)))[front.length]? = some d := by simp
    have go : d ≠ nul ∧ strchr whitespace d ≠ none := by
      refine ⟨Ne.symm nonzero.1, ?_⟩
      rw [Ne, strchr_whitespace, all.1]
      simp
    have written : (front ++ (d :: blanks ++ (back ++ nul :: stale))).set front.length nul =
        (front ++ [nul]) ++ (blanks ++ (back ++ nul :: stale)) := by simp
    have rest := ih (front ++ [nul]) fuel all.2 nonzero.2 (by omega)
    rw [List.length_append, List.length_singleton] at rest
    rw [skipWhitespace, here, deref, ok_bind, if_pos go, written, rest, List.length_cons]
    simp [cleared, all.1, Nat.add_comm, Nat.add_left_comm]

private theorem skipWord_spec (front stale : List Char) (fuel : Nat) (all : ∀ c ∈ word, blank c = false)
    (nonzero : nul ∉ word) (ends : ∀ c ∈ back.head?, blank c) (enough : word.length < fuel) :
    skipWord fuel (front ++ (word ++ (back ++ nul :: stale))) front.length = .ok (front.length + word.length) := by
  induction word generalizing front fuel with
  | nil =>
    obtain ⟨fuel, rfl⟩ := Nat.exists_eq_succ_of_ne_zero (Nat.ne_zero_of_lt enough)
    have notEnds : ∀ c ∈ back.head?, (!blank c) = false := by
      intro c member
      rw [ends c member, Bool.not_true]
    obtain ⟨c, rest, here, stops⟩ := stops_at stale (fun c => !blank c) notEnds
    have stop : ¬ (c ≠ nul ∧ strchr whitespace c = none) := by
      rw [Ne, strchr_whitespace]
      rintro ⟨notEnd, notBlank⟩
      exact stops.elim notEnd (by simp [notBlank])
    simp [skipWord, here, deref, stop]
  | cons d word ih =>
    obtain ⟨fuel, rfl⟩ := Nat.exists_eq_succ_of_ne_zero (Nat.ne_zero_of_lt enough)
    rw [List.forall_mem_cons] at all
    rw [List.mem_cons, not_or] at nonzero
    rw [List.length_cons] at enough
    have here : (front ++ (d :: word ++ (back ++ nul :: stale)))[front.length]? = some d := by simp
    have go : d ≠ nul ∧ strchr whitespace d = none := ⟨Ne.symm nonzero.1, strchr_whitespace.mpr all.1⟩
    have rest := ih (front ++ [d]) fuel all.2 nonzero.2 (by omega)
    rw [List.length_append, List.length_singleton, List.append_assoc, List.singleton_append] at rest
    rw [skipWord, here, deref, ok_bind, if_pos go, List.cons_append, rest, List.length_cons,
      Nat.add_assoc, Nat.add_comm 1]

/-- `argv` after the places of the words were stored from `argc` on. -/
private def stored (argv : Nat → Option Nat) (argc : Nat) : List Nat → Nat → Option Nat
  | [] => argv
  | p :: places => stored (Function.update argv argc (some p)) (argc + 1) places

private theorem stored_before (argv : Nat → Option Nat) (argc : Nat) {i : Nat} (places : List Nat) (before : i < argc) :
    stored argv argc places i = argv i := by
  induction places generalizing argv argc with
  | nil => rfl
  | cons p places ih => rw [stored, ih _ _ (by omega), Function.update_of_ne (by omega)]

private theorem stored_inside (argv : Nat → Option Nat) (argc : Nat) {i : Nat} (places : List Nat) (inside : i < places.length) :
    stored argv argc places (argc + i) = places[i]? := by
  induction places generalizing argv argc i with
  | nil => simp at inside
  | cons p places ih =>
    rw [stored]
    cases i with
    | zero => rw [stored_before _ _ places (by omega), Nat.add_zero, Function.update_self, List.getElem?_cons_zero]
    | succ i =>
      rw [List.length_cons] at inside
      rw [List.getElem?_cons_succ, ← ih (Function.update argv argc (some p)) (argc + 1) (by omega)]
      congr 1
      omega

private theorem stored_behind (argv : Nat → Option Nat) (argc : Nat) {i : Nat} (places : List Nat) (behind : argc + places.length ≤ i) :
    stored argv argc places i = argv i := by
  induction places generalizing argv argc with
  | nil => rfl
  | cons p places ih =>
    rw [List.length_cons] at behind
    rw [stored, ih _ _ (by omega), Function.update_of_ne (by omega)]

private theorem parseLoop_spec (fuel : Nat) (front back stale : List Char) (argv : Nat → Option Nat) (argc : Nat)
    (printed : List String) (nonzero : nul ∉ back) (enough : back.length < fuel) :
    ∃ after, parseLoop fuel ⟨front ++ (back ++ nul :: stale), argv, argc, printed⟩ front.length = .ok after ∧
      after.buf = front ++ (cleared back ++ nul :: stale) ∧
      after.argc = argc + (startsFrom true front.length back).length ∧
      after.argv = stored argv argc (startsFrom true front.length back) := by
  induction fuel generalizing front back argv argc printed with
  | zero => omega
  | succ fuel ih =>
    obtain ⟨blanks, rest, rfl, allBlank, restStarts⟩ := exists_run blank back
    rw [List.mem_append, not_or] at nonzero
    rw [List.length_append] at enough
    have skipped := skipWhitespace_spec front stale (front ++ (blanks ++ rest ++ nul :: stale)).length
      allBlank nonzero.1 restStarts (by simp only [List.length_append, List.length_cons]; omega)
    rw [← List.append_assoc blanks] at skipped
    rw [parseLoop, skipped, ok_bind, startsFrom_blanks allBlank]
    dsimp only
    have places : (front ++ cleared blanks).length = front.length + blanks.length := by simp [cleared]
    rw [← List.append_assoc front, ← places]
    cases rest with
    | nil =>
      have here : ((front ++ cleared blanks) ++ ([] ++ nul :: stale))[(front ++ cleared blanks).length]? = some nul := by simp
      rw [here, deref, ok_bind, if_pos rfl]
      exact ⟨_, rfl, by simp, rfl, rfl⟩
    | cons c rest =>
      have notBlank : blank c = false := restStarts c rfl
      obtain ⟨word, rest, rfl, allWord, restEnds⟩ := exists_run (fun c => !blank c) rest
      have wholeWord : ∀ d ∈ c :: word, blank d = false := by
        rw [List.forall_mem_cons]
        exact ⟨notBlank, by simpa using allWord⟩
      have zeros : nul ∉ c :: word ∧ nul ∉ rest := by simpa [not_or, and_assoc] using nonzero.2
      have notNul : c ≠ nul := fun isNul => zeros.1 (isNul ▸ List.mem_cons_self)
      have here : ((front ++ cleared blanks) ++ (c :: (word ++ rest) ++ nul :: stale))[(front ++ cleared blanks).length]? =
          some c := by simp
      have walked := skipWord_spec (front ++ cleared blanks) stale
        ((front ++ cleared blanks) ++ (c :: (word ++ rest) ++ nul :: stale)).length
        wholeWord zeros.1 (by simpa using restEnds) (by simp only [List.length_append, List.length_cons]; omega)
      have regroup : c :: word ++ (rest ++ nul :: stale) = c :: (word ++ rest) ++ nul :: stale := by simp
      rw [regroup] at walked
      rw [here, deref, ok_bind, if_neg notNul, walked, ok_bind]
      obtain ⟨after, done, buf, count, strings⟩ := ih ((front ++ cleared blanks) ++ (c :: word)) rest
        (Function.update argv argc (some (front ++ cleared blanks).length)) (argc + 1)
        (if argc = maxArgs - 1 then printed ++ ["Too many arguments (max 16).\n"] else printed)
        zeros.2 (by simp only [List.length_cons, List.length_append] at enough; omega)
      have places' : startsFrom true (front ++ cleared blanks).length (c :: (word ++ rest)) =
          (front ++ cleared blanks).length :: startsFrom true ((front ++ cleared blanks) ++ (c :: word)).length rest := by
        have restFresh : ∀ d ∈ rest.head?, blank d := by simpa using restEnds
        rw [startsFrom, notBlank]
        simp only [Bool.false_eq_true, if_false, if_true]
        rw [startsFrom_word (by simpa using allWord), startsFrom_fresh restFresh, @List.length_append _ _ (c :: word),
          List.length_cons, Nat.add_right_comm, Nat.add_assoc]
      have regroup' : (front ++ cleared blanks) ++ (c :: (word ++ rest) ++ nul :: stale) =
          ((front ++ cleared blanks) ++ (c :: word)) ++ (rest ++ nul :: stale) := by simp
      rw [regroup', ← List.length_append, places']
      refine ⟨after, done, ?_, ?_, strings⟩
      · rw [buf, cleared, cleared, cleared, List.map_append, ← List.cons_append, List.map_append, ← cleared, ← cleared,
          ← cleared, cleared_word wholeWord]
        simp
      · rw [count, List.length_cons]
        omega

end Loops

private theorem parse_spec (stale : List Char) (argv : Nat → Option Nat) (nonzero : nul ∉ text) :
    ∃ after, parse (text ++ nul :: stale) argv = .ok after ∧ after.buf = cleared text ++ nul :: stale ∧
      after.argc = (wordStarts text).length ∧ after.argv = stored argv 0 (wordStarts text) := by
  obtain ⟨after, done, buf, count, strings⟩ := parseLoop_spec ((text ++ nul :: stale).length + 1) [] text stale argv 0 []
    nonzero (by simp only [List.length_append]; omega)
  rw [List.length_nil, ← wordStarts_eq] at count strings
  exact ⟨after, done, buf, by rw [count, Nat.zero_add], strings⟩

private theorem mem_wordStarts (member : p ∈ wordStarts text) : p < text.length := by
  rw [wordStarts, List.mem_filter, List.mem_range] at member
  exact member.1

private theorem word_terminated (inside : p < text.length) :
    wordAt text p ++ [nul] <+: (cleared text ++ nul :: stale).drop p := by
  obtain ⟨word, rest, same, allWord, restEnds⟩ := exists_run (fun c => !blank c) (text.drop p)
  have isWord : wordAt text p = word := by
    unfold wordAt
    rw [same, List.takeWhile_append_of_pos allWord]
    cases rest with
    | nil => simp
    | cons c rest => simp [restEnds c rfl]
  have shape : (cleared text ++ nul :: stale).drop p = word ++ (cleared rest ++ nul :: stale) := by
    rw [List.drop_append_of_le_length (by simp [cleared]; omega), cleared, ← List.map_drop, same, List.map_append,
      ← cleared, ← cleared, cleared_word (by simpa using allWord), List.append_assoc]
  rw [isWord, shape, List.prefix_append_right_inj]
  cases rest with
  | nil => exact List.prefix_append [nul] stale
  | cons c rest =>
    have isBlank : blank c := by simpa using restEnds c rfl
    simp [cleared, isBlank]

/-- `parse` stays within `argv` on the lines that have at most `MAXARGS` words, and its
strings are then the words of the line. -/
theorem parse_bounded (text stale : List Char) (argv : Nat → Option Nat) (nonzero : nul ∉ text) :
    (∃ after, parse (text ++ nul :: stale) argv = .ok after ∧ Tokenized text argv after) ↔
      (wordStarts text).length ≤ maxArgs := by
  obtain ⟨after, done, buf, count, strings⟩ := parse_spec stale argv nonzero
  constructor
  · rintro ⟨after', done', tokenized⟩
    have same : after = after' := Except.ok.inj (done.symm.trans done')
    rw [← count, same]
    exact tokenized.argc_le
  · intro few
    refine ⟨after, done, ⟨?_, ?_, ?_, ?_⟩⟩
    · intro i above
      rw [strings]
      exact stored_behind argv 0 _ (by omega)
    · rw [count]
      exact few
    · rw [count, Nat.min_eq_left few]
    · intro i inside
      rw [count] at inside
      have place : (wordStarts text)[i]? = some (wordStarts text)[i] := List.getElem?_eq_getElem inside
      refine ⟨(wordStarts text)[i], ?_, place, ?_⟩
      · rw [strings, ← place]
        have here := stored_inside argv 0 (wordStarts text) inside
        rwa [Nat.zero_add] at here
      · rw [buf]
        exact word_terminated (mem_wordStarts (List.getElem_mem inside))

theorem parse_bounded_help :
    ∃ after, parse ([' ', 'h', 'e', 'l', 'p', '\t', 'x'] ++ nul :: ['y']) (fun _ => none) = .ok after ∧
      Tokenized [' ', 'h', 'e', 'l', 'p', '\t', 'x'] (fun _ => none) after :=
  (parse_bounded [' ', 'h', 'e', 'l', 'p', '\t', 'x'] ['y'] (fun _ => none) (by decide)).mpr (by decide)

/-- Seventeen words of one letter, typed with a blank behind each. -/
theorem parse_overruns :
    (do
      let line ← readline ⟨false, List.replicate bufSize nul, []⟩ 0 ((List.replicate 17 [97, 32]).flatten ++ [10])
      let after ← parse line.buf fun _ => none
      .ok (line.read, after.argc, after.argv maxArgs)) = (.ok (true, 17, some 32) : Kern (Bool × Nat × Option Nat)) := by
  decide +kernel

section Readline

private theorem cChar_ne_nul {c : Int} (printable : 32 ≤ c) (byte : c < 256) : cChar c ≠ nul := by
  have value : (c % 256).toNat = c.toNat := by omega
  have small : c.toNat < 0xd800 := by omega
  intro same
  have codes := congrArg Char.toNat same
  rw [cChar, value, Char.toNat_ofNat, if_pos (.inl small)] at codes
  change c.toNat = 0 at codes
  omega

/-- What `readline` returns is a line that `parse` takes: at most 1023 characters, and a
NUL behind them. -/
theorem readline_line (state : Reading) {after : Reading} {i : Nat} {input : List Int} (bytes : ∀ c ∈ input, c < 256)
    (size : state.buf.length = bufSize) (room : i < bufSize) (nonzero : nul ∉ state.buf.take i)
    (done : readline state i input = .ok after) (read : after.read) :
    ∃ text stale, after.buf = text ++ nul :: stale ∧ text.length < bufSize ∧ nul ∉ text := by
  induction input generalizing state i with
  | nil => cases done
  | cons c input ih =>
    rw [List.forall_mem_cons] at bytes
    unfold readline at done
    split at done
    next =>
      rw [← Except.ok.inj done] at read
      cases read
    next =>
      split at done
      next stored =>
        refine ih _ bytes.2 (by simpa using size) (by omega) ?_ done
        have kept : nul ≠ cChar c := (cChar_ne_nul stored.1 bytes.1).symm
        rw [List.take_succ_eq_append_getElem (by simp; omega), List.take_set_of_le le_rfl]
        simp [nonzero, kept]
      next =>
        split at done
        next erased =>
          refine ih { state with echoed := state.echoed ++ [cChar c] } bytes.2 size (by omega) ?_ done
          intro member
          exact nonzero (List.take_subset_take_left _ (by omega) member)
        next =>
          split at done
          next ended =>
            rw [← Except.ok.inj done]
            refine ⟨state.buf.take i, state.buf.drop (i + 1), ?_, by simp; omega, nonzero⟩
            exact List.set_eq_take_append_cons_drop.trans (if_pos (by omega))
          next => exact ih state bytes.2 size room nonzero done

end Readline

end Ucore
