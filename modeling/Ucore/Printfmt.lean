import Mathlib
import Ucore.Halt

/-! `printfmt.c`: the format scanner and the printing of numbers. What `putch` gets is
collected in a list. -/

namespace Ucore

def nul : Char := '\x00'

/-- A value that is stored in an `int`. -/
def cInt (value : Int) : Int := value.bmod (2 ^ 32)

/-- `s[i]` of a NUL-terminated string. -/
def charAt (s : List Char) (i : Nat) : Kern Char :=
  match s[i]? with
  | some c => .ok c
  | none => if i = s.length then .ok nul else .error .fault

/-- `"0123456789abcdef"[mod]` -/
def digitOf (mod : Nat) : Kern Char :=
  charAt ['0', '1', '2', '3', '4', '5', '6', '7', '8', '9', 'a', 'b', 'c', 'd', 'e', 'f'] mod

/-- `while (-- width > 0) putch(padc, putdat)` -/
def padding (width : Int) (padc : Char) : List Char := List.replicate (cInt (width - 1)).toNat padc

/-- `fuel` bounds the number of digits; `num` is below 2^64. -/
def printnum : Nat → Nat → Nat → Int → Char → Kern (List Char)
  | 0, _, _, _, _ => .error .diverge
  | fuel + 1, num, base, width, padc => do
    let front ← if num ≥ base then printnum fuel (num / base) base (cInt (width - 1)) padc else .ok (padding width padc)
    let digit ← digitOf (num % base)
    .ok (front ++ [digit])

/-- The most digits that a 64-bit number has. -/
def maxDigits : Nat := 64

/-- The arguments behind a `va_list`, a slot of 64 bits each, and the strings at the
addresses among them. -/
structure Arguments where
  slot : Nat → BitVec 64
  text : BitVec 64 → List Char

/-- `va_arg(ap, int)` -/
def Arguments.int (args : Arguments) (ap : Nat) : Int := ((args.slot ap).setWidth 32).toInt

def getuint (args : Arguments) (ap : Nat) (lflag : Nat) : BitVec 64 :=
  if lflag ≥ 1 then args.slot ap else ((args.slot ap).setWidth 32).setWidth 64

def getint (args : Arguments) (ap : Nat) (lflag : Nat) : BitVec 64 :=
  if lflag ≥ 1 then args.slot ap else ((args.slot ap).setWidth 32).signExtend 64

def maxError : Int := 24

def errorString (err : Int) : Option String :=
  if err = 1 then some "unspecified error"
  else if err = 2 then some "bad process"
  else if err = 3 then some "invalid parameter"
  else if err = 4 then some "out of memory"
  else if err = 5 then some "out of processes"
  else if err = 6 then some "segmentation fault"
  else if err = 8 then some "invalid elf file"
  else if err = 9 then some "process is killed"
  else if err = 10 then some "panic failure"
  else none

/-- The variables of `vprintfmt` that an escape sets. -/
structure Escape where
  padc : Char
  width : Int
  precision : Int
  lflag : Nat
  altflag : Bool

/-- `padc = ' '; width = precision = -1; lflag = altflag = 0` -/
def Escape.start : Escape := ⟨' ', -1, -1, 0, false⟩

/-- The label `process_precision`. -/
def Escape.processPrecision (escape : Escape) (precision : Int) : Escape :=
  if escape.width < 0 then { escape with width := precision, precision := -1 } else { escape with precision := precision }

/-- The label `number`. -/
def Escape.number (escape : Escape) (num : BitVec 64) (base : Nat) : Kern (List Char) :=
  printnum maxDigits num.toNat base escape.width escape.padc

def Escape.decimal (escape : Escape) (num : BitVec 64) : Kern (List Char) :=
  if num.toInt < 0 then do
    let digits ← escape.number (-num) 10
    .ok ('-' :: digits)
  else escape.number num 10

/-- `%e`: what `printfmt` prints with `"%s"` or `"error %d"`. -/
def printError (err : Int) : Kern (List Char) :=
  let err := if err < 0 then cInt (-err) else err
  if err < 0 then .error .fault
  else match if err > maxError then none else errorString err with
    | some text => .ok text.toList
    | none => do
      let digits ← Escape.start.decimal (BitVec.ofInt 64 err)
      .ok (['e', 'r', 'r', 'o', 'r', ' '] ++ digits)

/-- The loop of `%s` over the string, and the `width` that it leaves. -/
def printChars (altflag : Bool) : Int → Int → List Char → List Char × Int
  | _, width, [] => ([], width)
  | precision, width, ch :: p =>
    if precision < 0 ∨ cInt (precision - 1) ≥ 0 then
      let shown := if altflag ∧ (ch < ' ' ∨ ch > '~') then '?' else ch
      let (rest, width) := printChars altflag (if precision < 0 then precision else cInt (precision - 1)) (cInt (width - 1)) p
      (shown :: rest, width)
    else ([], width)

/-- `%s`; `strnlen` with a negative precision is the whole length. -/
def Escape.string (escape : Escape) (p : List Char) : List Char :=
  let length := if escape.precision < 0 then p.length else min p.length escape.precision.toNat
  let (pads, width) :=
    if escape.width > 0 ∧ escape.padc ≠ '-' then
      let width := cInt (escape.width - length)
      (List.replicate width.toNat escape.padc, min width 0)
    else ([], escape.width)
  let (shown, width) := printChars escape.altflag escape.precision width p
  pads ++ shown ++ List.replicate width.toNat ' '

section Scanner

variable (fmt : List Char) (args : Arguments)

/-- `while ((ch = *fmt ++) != '%')`: what is echoed, and the place behind the `%` unless
the string is at its end. -/
def echo : Nat → Nat → Kern (List Char × Option Nat)
  | 0, _ => .error .diverge
  | fuel + 1, i => do
    let ch ← charAt fmt i
    if ch = '%' then .ok ([], some (i + 1))
    else if ch = nul then .ok ([], none)
    else do
      let (rest, place) ← echo fuel (i + 1)
      .ok (ch :: rest, place)

/-- The loop over the digits of a width, with the digit `ch` in front of `i`. -/
def scanWidth : Nat → Int → Char → Nat → Kern (Int × Nat)
  | 0, _, _, _ => .error .diverge
  | fuel + 1, precision, ch, i => do
    let precision := cInt (precision * 10 + ch.toNat - '0'.toNat)
    let ch ← charAt fmt i
    if ch < '0' ∨ ch > '9' then .ok (precision, i) else scanWidth fuel precision ch (i + 1)

/-- `for (fmt --; fmt[-1] != '%'; fmt --)`, from behind the first `fmt --` on. -/
def walkBack : Nat → Kern Nat
  | 0 => .error .fault
  | i + 1 => do
    let ch ← charAt fmt i
    if ch = '%' then .ok (i + 1) else walkBack i

/-- The escape from the label `reswitch` on: what it prints, and where the format and
the arguments go on. -/
def reswitch : Nat → Escape → Nat → Nat → Kern (List Char × Nat × Nat)
  | 0, _, _, _ => .error .diverge
  | fuel + 1, escape, i, ap => do
    let ch ← charAt fmt i
    if ch = '-' then reswitch fuel { escape with padc := '-' } (i + 1) ap
    else if ch = '0' then reswitch fuel { escape with padc := '0' } (i + 1) ap
    else if '1' ≤ ch ∧ ch ≤ '9' then do
      let (precision, i) ← scanWidth fmt (fuel + 1) 0 ch (i + 1)
      reswitch fuel (escape.processPrecision precision) i ap
    else if ch = '*' then reswitch fuel (escape.processPrecision (args.int ap)) (i + 1) (ap + 1)
    else if ch = '.' then
      reswitch fuel (if escape.width < 0 then { escape with width := 0 } else escape) (i + 1) ap
    else if ch = '#' then reswitch fuel { escape with altflag := true } (i + 1) ap
    else if ch = 'l' then reswitch fuel { escape with lflag := escape.lflag + 1 } (i + 1) ap
    else if ch = 'c' then .ok ([Char.ofNat ((args.slot ap).toNat % 256)], i + 1, ap + 1)
    else if ch = 'e' then do
      let out ← printError (args.int ap)
      .ok (out, i + 1, ap + 1)
    else if ch = 's' then
      let p := if args.slot ap = 0 then ['(', 'n', 'u', 'l', 'l', ')'] else args.text (args.slot ap)
      .ok (escape.string p, i + 1, ap + 1)
    else if ch = 'd' then do
      let out ← escape.decimal (getint args ap escape.lflag)
      .ok (out, i + 1, ap + 1)
    else if ch = 'u' then do
      let out ← escape.number (getuint args ap escape.lflag) 10
      .ok (out, i + 1, ap + 1)
    else if ch = 'o' then do
      let out ← escape.number (getuint args ap escape.lflag) 8
      .ok (out, i + 1, ap + 1)
    else if ch = 'p' then do
      let out ← escape.number (args.slot ap) 16
      .ok ('0' :: 'x' :: out, i + 1, ap + 1)
    else if ch = 'x' then do
      let out ← escape.number (getuint args ap escape.lflag) 16
      .ok (out, i + 1, ap + 1)
    else if ch = '%' then .ok (['%'], i + 1, ap)
    else do
      let i ← walkBack fmt i
      .ok (['%'], i, ap)

/-- The loop of `vprintfmt`. -/
def scan : Nat → Nat → Nat → Kern (List Char)
  | 0, _, _ => .error .diverge
  | fuel + 1, i, ap => do
    let (echoed, place) ← echo fmt (fmt.length + 1) i
    match place with
    | none => .ok echoed
    | some i => do
      let (printed, i, ap) ← reswitch fmt args (fmt.length + 1) .start i ap
      let rest ← scan fuel i ap
      .ok (echoed ++ printed ++ rest)

def vprintfmt : Kern (List Char) := scan fmt args (fmt.length + 1) 0 0

end Scanner

end Ucore
