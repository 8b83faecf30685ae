import Mathlib
import Ucore.Kernel

/-! Booting the kernel and its runs: which events can come in which state, and the
states that are reached. -/

namespace Ucore.Kernel
open Lib

/-- What is in memory before `sched_init` and `proc_init` run: the globals are
zero or have their initial values, anything else is left as it is. -/
def clear (memory : Kernel) : Kernel :=
  { memory with
    table := { memory.table with nrProcess := 0, lastPid := maxPid, nextSafe := maxPid }
    initproc := none
    allocated := []
    births := 0
    history := [] }

def schedInit (schedClass : SchedClass) (k : Kernel) : Kernel :=
  { k with
    schedClass := schedClass
    rq := schedClass.init { k.rq with maxTimeSlice := maxTimeSlice } }

/-- `list_init` of every list in `hash_list`. -/
def initHashList (links : Links HashLink) : Links HashLink where
  prev
    | .bucket index => if index < hashListSize then .bucket index else links.prev (.bucket index)
    | entry => links.prev entry
  next
    | .bucket index => if index < hashListSize then .bucket index else links.next (.bucket index)
    | entry => links.next entry

/-- `proc_init` behind the fork of `init_main`. -/
def procInitEnd (pid : Int) (k : Kernel) : Kern Kernel := do
  let initproc ← k.table.findProc pid
  let k := { k with initproc := initproc }
  assert (k.table.pid k.idleproc = 0) "idleproc != NULL && idleproc->pid == 0"
  let initproc ← deref k.initproc
  assert (k.table.pid initproc = 1) "initproc != NULL && initproc->pid == 1"
  .ok k

/-- `proc_init`, with the idle process at `idle` and the answers that the fork of
`init_main` gets. -/
def procInit (idle : Ptr) (answers : ForkAnswers) (k : Kernel) : Kern Kernel := do
  let k := { k with table := { k.table with
    procList := listInit none k.table.procList
    hashList := initHashList k.table.hashList } }
  let k := k.allocProc idle
  let k := { k with idleproc := idle }
  let k := { k with table := { k.table with
    pid := Function.update k.table.pid idle 0
    nrProcess := k.table.nrProcess + 1 } }
  let k := ((k.setState idle .runnable).setNeedResched idle true).setLoc idle .cpuIdle
  let k := { k with current := idle }
  let (pid, k) ← doFork .initMain answers k
  if pid ≤ 0 then .error (.panic "create init_main failed.\n")
  else procInitEnd pid k

def boot (schedClass : SchedClass) (memory : Kernel) (idle : Ptr) (answers : ForkAnswers) : Kern Kernel :=
  procInit idle answers (schedInit schedClass memory.clear)

/-- `kmalloc` gives memory that is not in use, and `copy_mm` fails for want of memory. -/
def Grants (k : Kernel) (answers : ForkAnswers) : Prop :=
  (∀ proc ∈ answers.proc, proc ∉ k.allocated) ∧ (answers.copyMm = 0 ∨ answers.copyMm = -eNoMem)

/-- The timer can interrupt user mode and the kernel threads, which run with
interrupts on. -/
def Interruptible : Loc → Prop
  | .cpuIdle | .initMain | .initLoop | .userMain | .user => True
  | .waiting _ _ caller => caller = .initMain
  | .forkret | .trapDispatched | .trapScheduled | .exited => False

def Enabled (k : Kernel) : Event → Prop
  | .tick => Interruptible (k.loc k.current)
  | .exception _ => k.loc k.current = .user
  | .syscall (.fork answers) => k.loc k.current = .user ∧ k.Grants answers
  | .syscall _ => k.loc k.current = .user
  | .initMain answers => k.loc k.current = .initMain ∧ k.Grants answers
  | .userMain outcome => k.loc k.current = .userMain ∧ outcome ≠ .invalid
  | .resume => k.loc k.current ≠ .user ∧ k.loc k.current ≠ .initMain ∧ k.loc k.current ≠ .userMain

/-- The states between the operations of the processes. -/
inductive Reachable (schedClass : SchedClass) : Kernel → Prop where
  | boot {memory k idle answers} (granted : (answers.proc ≠ some idle) ∧ (answers.copyMm = 0 ∨ answers.copyMm = -eNoMem))
      (booted : boot schedClass memory idle answers = .ok k) : Reachable schedClass k
  | step {k k' event} (reached : Reachable schedClass k) (enabled : k.Enabled event)
      (stepped : step event k = .ok k') : Reachable schedClass k'

/-- The states between the operations of the processes in the runs whose steps all
meet `condition`. -/
inductive Guarded (schedClass : SchedClass) (condition : Kernel → Event → Kernel → Prop) : Kernel → Prop where
  | boot {memory k idle answers} (granted : (answers.proc ≠ some idle) ∧ (answers.copyMm = 0 ∨ answers.copyMm = -eNoMem))
      (booted : boot schedClass memory idle answers = .ok k) : Guarded schedClass condition k
  | step {k k' event} (reached : Guarded schedClass condition k) (enabled : k.Enabled event)
      (stepped : step event k = .ok k') (met : condition k event k') : Guarded schedClass condition k'

/-- A process is live from its `alloc_proc` to its `kfree`. -/
def Live (k : Kernel) (proc : Ptr) : Prop := proc ∈ k.allocated

end Ucore.Kernel
