/-! How a kernel computation can stop without a result, and the error codes that one
can return. -/

namespace Ucore

def eBadProc : Int := 2
def eInval : Int := 3
def eNoMem : Int := 4
def eNoFreeProc : Int := 5
def eInvalElf : Int := 8
def eKilled : Int := 9

/-- A failed `assert`, a `panic`, an access through a pointer that is `NULL` or
designates something else, a loop that walked further than there are nodes to walk
over, or a byte of a program that is read where the page table maps nothing. -/
inductive Halt where
  | assertion (text : String)
  | panic (message : String)
  | fault
  | diverge
  | unmapped (addr : Nat)
  deriving DecidableEq, Repr

abbrev Kern (α : Type u) := Except Halt α

/-- `assert(condition)`. -/
def assert (condition : Bool) (text : String) : Kern Unit :=
  if condition then .ok () else .error (.assertion text)

def deref {α : Type u} (pointer : Option α) : Kern α :=
  match pointer with
  | some object => .ok object
  | none => .error .fault

/-- An `if` without an `else`. -/
def onlyIf {α : Type u} (condition : Prop) [Decidable condition] (action : α → Kern α) (state : α) : Kern α :=
  if condition then action state else .ok state

@[simp] theorem assert_true (text : String) : assert true text = .ok () := rfl

theorem assert_ok {condition : Bool} {text : String} (passed : assert condition text = .ok ()) : condition = true := by
  cases condition with
  | true => rfl
  | false => cases passed

@[simp] theorem assert_false (text : String) : assert false text = .error (.assertion text) := rfl

@[simp] theorem ok_bind {α β : Type u} (value : α) (next : α → Kern β) :
    (Except.ok value >>= next) = next value := rfl

@[simp] theorem error_bind {α β : Type u} (halt : Halt) (next : α → Kern β) :
    ((Except.error halt : Kern α) >>= next) = .error halt := rfl

theorem bind_ok {α β : Type u} {first : Kern α} {next : α → Kern β} {result : β}
    (done : (first >>= next) = .ok result) : ∃ value, first = .ok value ∧ next value = .ok result := by
  cases first with
  | error halt => cases done
  | ok value => exact ⟨value, rfl, done⟩

end Ucore
