import Ucore.Halt

/-! The functions of `string.c`. A NUL-terminated string is the list of its characters,
and a pointer into it is what is left of the list. For `memmove` memory is a function
from addresses to bytes. -/

namespace Ucore

def strcmp : List Char → List Char → Int
  | [], [] => 0
  | [], d :: _ => -(d.toNat : Int)
  | c :: _, [] => c.toNat
  | c :: s1, d :: s2 => if c = d then strcmp s1 s2 else (c.toNat : Int) - d.toNat

def strncmp : List Char → List Char → Nat → Int
  | _, _, 0 => 0
  | [], [], _ + 1 => 0
  | [], d :: _, _ + 1 => -(d.toNat : Int)
  | c :: _, [], _ + 1 => c.toNat
  | c :: s1, d :: s2, n + 1 => if c = d then strncmp s1 s2 n else (c.toNat : Int) - d.toNat

def strchr : List Char → Char → Option (List Char)
  | [], _ => none
  | d :: s, c => if d = c then some (d :: s) else strchr s c

/-- The plus or minus sign of `strtol`. -/
def strtolSign : List Char → Bool × List Char
  | '+' :: s => (false, s)
  | '-' :: s => (true, s)
  | s => (false, s)

/-- The hex or octal base prefix of `strtol`. -/
def strtolPrefix (base : Int) (s : List Char) : Int × List Char :=
  if (base = 0 ∨ base = 16) ∧ ['0', 'x'] <+: s then (16, s.drop 2)
  else if base = 0 ∧ ['0'] <+: s then (8, s.drop 1)
  else if base = 0 then (10, s)
  else (base, s)

/-- `dig` in the loop of `strtol`. -/
def strtolDigit (c : Char) : Option Nat :=
  if '0' ≤ c ∧ c ≤ '9' then some (c.toNat - '0'.toNat)
  else if 'a' ≤ c ∧ c ≤ 'z' then some (c.toNat - 'a'.toNat + 10)
  else if 'A' ≤ c ∧ c ≤ 'Z' then some (c.toNat - 'A'.toNat + 10)
  else none

/-- The loop of `strtol` over the digits, in the arithmetic of a `long`. -/
def strtolDigits (base : Int) : BitVec 64 → List Char → BitVec 64 × List Char
  | val, [] => (val, [])
  | val, c :: s =>
    match strtolDigit c with
    | none => (val, c :: s)
    | some dig =>
      if (dig : Int) ≥ base then (val, c :: s)
      else strtolDigits base (val * BitVec.ofInt 64 base + BitVec.ofNat 64 dig) s

/-- The result, and the string at `*endptr`. -/
def strtol (s : List Char) (base : Int) : Int × List Char :=
  let s := s.dropWhile fun c => c = ' ' ∨ c = '\t'
  let (neg, s) := strtolSign s
  let (base, s) := strtolPrefix base s
  let (val, s) := strtolDigits base 0 s
  ((if neg then -val else val).toInt, s)

/-- The loop of `memmove` from the front. -/
def moveUp : Nat → BitVec 64 → BitVec 64 → (BitVec 64 → BitVec 8) → BitVec 64 → BitVec 8
  | 0, _, _, memory => memory
  | n + 1, d, s, memory => moveUp n (d + 1) (s + 1) (fun a => if a = d then memory s else memory a)

/-- The loop of `memmove` from the back, with `d` and `s` behind the ranges. -/
def moveDown : Nat → BitVec 64 → BitVec 64 → (BitVec 64 → BitVec 8) → BitVec 64 → BitVec 8
  | 0, _, _, memory => memory
  | n + 1, d, s, memory => moveDown n (d - 1) (s - 1) (fun a => if a = d - 1 then memory (s - 1) else memory a)

/-- The returned pointer, and the memory. -/
def memmove (dst src n : BitVec 64) (memory : BitVec 64 → BitVec 8) : BitVec 64 × (BitVec 64 → BitVec 8) :=
  if src < dst ∧ src + n > dst then (dst, moveDown n.toNat (dst + n) (src + n) memory)
  else (dst, moveUp n.toNat dst src memory)

end Ucore
