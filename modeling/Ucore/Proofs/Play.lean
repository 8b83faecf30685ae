import Mathlib
import Ucore.Proofs.Boot

/-! Runs that can be computed: the events one after the other, each one enabled. -/

namespace Ucore.Kernel
open Lib

variable {schedClass : SchedClass} {k after : Kernel} {events : List Event}

instance : DecidablePred Interruptible := fun loc =>
  match loc with
  | .cpuIdle | .initMain | .initLoop | .userMain | .user => isTrue trivial
  | .waiting _ _ caller => inferInstanceAs (Decidable (caller = .initMain))
  | .forkret | .trapDispatched | .trapScheduled | .exited => isFalse id

instance (k : Kernel) (answers : ForkAnswers) : Decidable (k.Grants answers) :=
  inferInstanceAs (Decidable ((∀ proc ∈ answers.proc, proc ∉ k.allocated) ∧ (answers.copyMm = 0 ∨ answers.copyMm = -eNoMem)))

instance : DecidableEq ExecOutcome := fun
  | .invalid, .invalid => isTrue rfl
  | .loaded, .loaded => isTrue rfl
  | .failed error, .failed other => decidable_of_iff (error = other) (by simp)
  | .invalid, .loaded | .invalid, .failed _ | .loaded, .invalid | .loaded, .failed _ | .failed _, .invalid | .failed _, .loaded =>
    isFalse nofun

instance (k : Kernel) (event : Event) : Decidable (k.Enabled event) :=
  match event with
  | .tick => inferInstanceAs (Decidable (Interruptible (k.loc k.current)))
  | .exception _ => inferInstanceAs (Decidable (k.loc k.current = .user))
  | .syscall call =>
    match call with
    | .fork answers => inferInstanceAs (Decidable (k.loc k.current = .user ∧ k.Grants answers))
    | .exit _ | .wait _ _ _ | .exec _ | .yield | .kill _ | .setPriority _ | .plain _ | .undefined =>
      inferInstanceAs (Decidable (k.loc k.current = .user))
  | .initMain answers => inferInstanceAs (Decidable (k.loc k.current = .initMain ∧ k.Grants answers))
  | .userMain outcome => inferInstanceAs (Decidable (k.loc k.current = .userMain ∧ outcome ≠ .invalid))
  | .resume => inferInstanceAs (Decidable (k.loc k.current ≠ .user ∧ k.loc k.current ≠ .initMain ∧ k.loc k.current ≠ .userMain))

/-- The events one after the other, as long as they are enabled. -/
def play : List Event → Kernel → Kern Kernel
  | [], k => .ok k
  | event :: events, k => if k.Enabled event then step event k >>= play events else .error .fault

def stopsWith {α : Type} (halt : Halt) : Kern α → Bool
  | .ok _ => false
  | .error halt' => halt' = halt

theorem stopsWith_iff {α : Type} {halt : Halt} {outcome : Kern α} : stopsWith halt outcome = true ↔ outcome = .error halt := by
  cases outcome with
  | ok value => simp [stopsWith]
  | error halt' => simp [stopsWith]

/-- Memory in which every word is zero. -/
def zeroed : Kernel where
  schedClass := .rr
  table := ⟨⟨fun entry => entry, fun entry => entry⟩, ⟨fun entry => entry, fun entry => entry⟩, fun _ => 0, fun _ => none,
    fun _ => none, fun _ => none, fun _ => none, 0, 0, 0⟩
  rq := ⟨⟨fun entry => entry, fun entry => entry⟩, 0, 0, none, ⟨fun _ => none, fun _ => none, fun _ => none⟩, fun _ => false,
    fun _ => 0, fun _ => 0, fun _ => 0, fun _ => 0⟩
  state _ := .uninit
  runs _ := 0
  needResched _ := false
  flags _ := 0
  exitCode _ := 0
  waitState _ := 0
  a0 _ := 0
  loc _ := .cpuIdle
  idleproc := 0
  initproc := none
  current := 0
  allocated := []
  serial _ := 0
  births := 0
  history := []

/-- The answers to a fork whose process is at `proc`. -/
def granting (proc : Ptr) : ForkAnswers := ⟨some proc, true, 0⟩

theorem play_reachable (reached : Reachable schedClass k) (played : play events k = .ok after) : Reachable schedClass after := by
  induction events generalizing k with
  | nil =>
    cases played
    exact reached
  | cons event events ih =>
    rw [play] at played
    split at played
    · rename_i enabled
      obtain ⟨middle, stepped, rest⟩ := bind_ok played
      exact ih (reached.step enabled stepped) rest
    · cases played

/-- The run of `events` after the boot, with the idle process at 0 and `initproc` at 1. -/
def playFrom (schedClass : SchedClass) (events : List Event) : Kern Kernel :=
  boot schedClass zeroed 0 (granting 1) >>= play events

/-- What a computed run shows about the states that are reached. -/
theorem playFrom_reaches {Property : Kernel → Prop} [DecidablePred Property]
    (test : (match playFrom schedClass events with
      | .ok k => decide (Property k)
      | .error _ => false) = true) : ∃ k, Reachable schedClass k ∧ Property k := by
  cases played : playFrom schedClass events with
  | error halt =>
    rw [played] at test
    cases test
  | ok k =>
    rw [played] at test
    obtain ⟨start, booted, rest⟩ := bind_ok played
    have reached : Reachable schedClass start := .boot ⟨by decide, Or.inl rfl⟩ booted
    exact ⟨k, play_reachable reached rest, of_decide_eq_true test⟩

section Guarded

variable (condition : Kernel → Event → Kernel → Prop) [∀ k event after, Decidable (condition k event after)]

/-- `play`, as long as every step meets `condition`. -/
def playUnder : List Event → Kernel → Kern Kernel
  | [], k => .ok k
  | event :: events, k =>
    if k.Enabled event then do
      let after ← step event k
      if condition k event after then playUnder events after else .error .fault
    else .error .fault

def playFromUnder (schedClass : SchedClass) (events : List Event) : Kern Kernel :=
  boot schedClass zeroed 0 (granting 1) >>= playUnder condition events

theorem playUnder_guarded (guarded : Guarded schedClass condition k) (played : playUnder condition events k = .ok after) :
    Guarded schedClass condition after := by
  induction events generalizing k with
  | nil =>
    cases played
    exact guarded
  | cons event events ih =>
    rw [playUnder] at played
    split at played
    · rename_i enabled
      obtain ⟨middle, stepped, rest⟩ := bind_ok played
      split at rest
      · rename_i met
        exact ih (guarded.step enabled stepped met) rest
      · cases rest
    · cases played

theorem playFromUnder_reaches {Property : Kernel → Prop} [DecidablePred Property]
    (test : (match playFromUnder condition schedClass events with
      | .ok k => decide (Property k)
      | .error _ => false) = true) : ∃ k, Guarded schedClass condition k ∧ Property k := by
  cases played : playFromUnder condition schedClass events with
  | error halt =>
    rw [played] at test
    cases test
  | ok k =>
    rw [played] at test
    obtain ⟨start, booted, rest⟩ := bind_ok played
    have guarded : Guarded schedClass condition start := .boot ⟨by decide, Or.inl rfl⟩ booted
    exact ⟨k, playUnder_guarded condition guarded rest, of_decide_eq_true test⟩

end Guarded

end Ucore.Kernel
