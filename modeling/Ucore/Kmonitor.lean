import Ucore.Strings
import Ucore.Printfmt

/-! `readline` and `parse` of the kernel monitor. A buffer is the list of its characters,
and a `char *` into it the place in that list. -/

namespace Ucore

def bufSize : Nat := 1024

/-- What `readline` leaves: whether it returns the buffer and not `NULL`, the buffer,
and the characters that were echoed. -/
structure Reading where
  read : Bool
  buf : List Char
  echoed : List Char
  deriving DecidableEq

/-- The `char` that an `int` is stored as. -/
def cChar (c : Int) : Char := Char.ofNat (c % 256).toNat

/-- The loop of `readline` over what `getchar` returns, with `i` characters in the buffer. -/
def readline (state : Reading) : Nat → List Int → Kern Reading
  | _, [] => .error .diverge
  | i, c :: input =>
    if c < 0 then .ok { state with read := false }
    else if c ≥ ' '.toNat ∧ i < bufSize - 1 then
      readline { state with buf := state.buf.set i (cChar c), echoed := state.echoed ++ [cChar c] } (i + 1) input
    else if c = 8 ∧ i > 0 then readline { state with echoed := state.echoed ++ [cChar c] } (i - 1) input
    else if c = '\n'.toNat ∨ c = '\r'.toNat then
      .ok { read := true, buf := state.buf.set i nul, echoed := state.echoed ++ [cChar c] }
    else readline state i input

def maxArgs : Nat := 16

def whitespace : List Char := [' ', '\t', '\n', '\r']

/-- What `parse` writes: the buffer, the array `argv` with the number of its strings,
and the messages. -/
structure Parsed where
  buf : List Char
  argv : Nat → Option Nat
  argc : Nat
  printed : List String

/-- The loop over the whitespace in front of a word, which it overwrites. -/
def skipWhitespace : Nat → List Char → Nat → Kern (List Char × Nat)
  | 0, _, _ => .error .diverge
  | fuel + 1, buf, p => do
    let c ← deref buf[p]?
    if c ≠ nul ∧ strchr whitespace c ≠ none then skipWhitespace fuel (buf.set p nul) (p + 1) else .ok (buf, p)

/-- The loop over the characters of a word. -/
def skipWord : Nat → List Char → Nat → Kern Nat
  | 0, _, _ => .error .diverge
  | fuel + 1, buf, p => do
    let c ← deref buf[p]?
    if c ≠ nul ∧ strchr whitespace c = none then skipWord fuel buf (p + 1) else .ok p

/-- The loop of `parse`, with `buf` at `p`. -/
def parseLoop : Nat → Parsed → Nat → Kern Parsed
  | 0, _, _ => .error .diverge
  | fuel + 1, state, p => do
    let (buf, p) ← skipWhitespace state.buf.length state.buf p
    let c ← deref buf[p]?
    if c = nul then .ok { state with buf }
    else
      let printed :=
        if state.argc = maxArgs - 1 then state.printed ++ ["Too many arguments (max 16).\n"] else state.printed
      let argv := Function.update state.argv state.argc (some p)
      let p ← skipWord buf.length buf p
      parseLoop fuel { buf, argv, argc := state.argc + 1, printed } p

def parse (buf : List Char) (argv : Nat → Option Nat) : Kern Parsed :=
  parseLoop (buf.length + 1) { buf, argv, argc := 0, printed := [] } 0

end Ucore
