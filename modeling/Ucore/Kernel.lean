import Mathlib
import Ucore.ProcTable

/-! The kernel as a machine of one processor: the process life cycle of `proc.c`,
the scheduler framework of `sched.c` and the trap path of `trap.c`. A process
that is not running is suspended inside some function; `Loc` says where. What
other parts of the kernel answer (memory, the address space) comes with the
event. -/

namespace Ucore
open Lib

/-- `PF_EXITING` -/
def pfExiting : BitVec 32 := 0x00000001#32

/-- `WT_INTERRUPTED` -/
def wtInterrupted : BitVec 32 := 0x80000000#32

/-- `WT_CHILD` -/
def wtChild : BitVec 32 := 0x00000001#32 ||| wtInterrupted

inductive ProcState where
  | uninit
  | sleeping
  | runnable
  | zombie
  deriving DecidableEq

theorem ProcState.runnable_alive : ProcState.runnable ≠ .zombie := by
  intro same
  cases same

theorem ProcState.runnable_awake : ProcState.runnable ≠ .sleeping := by
  intro same
  cases same

theorem ProcState.sleeping_alive : ProcState.sleeping ≠ .zombie := by
  intro same
  cases same

/-- Who called `do_wait`: `sys_wait`, or the loop of `init_main`. -/
inductive WaitCaller where
  | sysWait
  | initMain
  deriving DecidableEq

/-- Where a process continues when it gets the processor. -/
inductive Loc where
  /-- The loop of `cpu_idle`. -/
  | cpuIdle
  /-- The first instruction of `init_main`. -/
  | initMain
  /-- The condition of the loop in `init_main`. -/
  | initLoop
  /-- The first instruction of `user_main`. -/
  | userMain
  /-- `forkret` of a fresh user process. -/
  | forkret
  | user
  /-- In `trap`, with `trap_dispatch` done. -/
  | trapDispatched
  /-- In `trap`, behind `schedule`. -/
  | trapScheduled
  /-- In `do_wait`, behind `schedule`. -/
  | waiting (pid : Int) (codeStore : Nat) (caller : WaitCaller)
  /-- In `do_exit`, behind `schedule`. -/
  | exited
  deriving DecidableEq

/-- What has happened, for the statements about runs. A process is named by the
number of its `alloc_proc`, because pointers and pids are used again. -/
inductive Happening where
  | exited (proc : Nat) (code : Int)
  | stored (address : Nat) (code : Int)
  | reaped (parent child : Nat)
  | waited (parent : Nat) (result : Int)
  /-- `warn("wakeup runnable process.\n")` -/
  | warned (proc : Nat)
  deriving DecidableEq

/-- `allocated` are the `proc_struct`s that have not been freed; `serial`,
`births` and `history` are ghosts. -/
structure Kernel where
  schedClass : SchedClass
  table : ProcTable
  rq : RunQueue
  state : Ptr → ProcState
  runs : Ptr → Int
  needResched : Ptr → Bool
  flags : Ptr → BitVec 32
  exitCode : Ptr → Int
  waitState : Ptr → BitVec 32
  a0 : Ptr → Int
  loc : Ptr → Loc
  idleproc : Ptr
  initproc : Option Ptr
  current : Ptr
  allocated : List Ptr
  serial : Ptr → Nat
  births : Nat
  history : List Happening

/-- Which allocations of a `do_fork` succeed: the `proc_struct`, the kernel stack,
and the result of `copy_mm`. -/
structure ForkAnswers where
  proc : Option Ptr
  kstack : Bool
  copyMm : Int

/-- How `do_execve` ends: the name is refused, the image is loaded, or loading
fails after the old address space is gone. -/
inductive ExecOutcome where
  | invalid
  | loaded
  | failed (error : Int)

namespace Kernel

def setState (k : Kernel) (proc : Ptr) (value : ProcState) : Kernel :=
  { k with state := Function.update k.state proc value }

def setNeedResched (k : Kernel) (proc : Ptr) (value : Bool) : Kernel :=
  { k with needResched := Function.update k.needResched proc value }

def setFlags (k : Kernel) (proc : Ptr) (value : BitVec 32) : Kernel :=
  { k with flags := Function.update k.flags proc value }

def setExitCode (k : Kernel) (proc : Ptr) (value : Int) : Kernel :=
  { k with exitCode := Function.update k.exitCode proc value }

def setWaitState (k : Kernel) (proc : Ptr) (value : BitVec 32) : Kernel :=
  { k with waitState := Function.update k.waitState proc value }

def setA0 (k : Kernel) (proc : Ptr) (value : Int) : Kernel :=
  { k with a0 := Function.update k.a0 proc value }

def setLoc (k : Kernel) (proc : Ptr) (value : Loc) : Kernel :=
  { k with loc := Function.update k.loc proc value }

def record (k : Kernel) (happening : Happening) : Kernel :=
  { k with history := happening :: k.history }

/-- `proc->flags & PF_EXITING` -/
def exiting (k : Kernel) (proc : Ptr) : Bool := k.flags proc &&& pfExiting ≠ 0

def schedClassEnqueue (proc : Ptr) (k : Kernel) : Kern Kernel :=
  if proc ≠ k.idleproc then do
    let rq ← k.schedClass.enqueue k.table.pid proc k.rq
    .ok { k with rq := rq }
  else .ok k

def schedClassDequeue (proc : Ptr) (k : Kernel) : Kern Kernel := do
  let rq ← k.schedClass.dequeue k.table.pid proc k.rq
  .ok { k with rq := rq }

/-- `sched_class_dequeue` of the picked process, if one was picked. -/
def schedClassDequeueNext : Option Ptr → Kernel → Kern Kernel
  | some next => schedClassDequeue next
  | none => .ok

def schedClassProcTick (proc : Ptr) (k : Kernel) : Kernel :=
  if proc ≠ k.idleproc then
    let (rq, spent) := k.schedClass.procTick proc k.rq
    let k := { k with rq := rq }
    if spent then k.setNeedResched proc true else k
  else k.setNeedResched proc true

def wakeupProc (proc : Ptr) (k : Kernel) : Kern Kernel := do
  assert (k.state proc ≠ .zombie) "proc->state != PROC_ZOMBIE"
  if k.state proc ≠ .runnable then
    let k := (k.setState proc .runnable).setWaitState proc 0
    if proc ≠ k.current then k.schedClassEnqueue proc else .ok k
  else .ok (k.record (.warned (k.serial proc)))

/-- `proc_run` switches to `next` by making it `current`. -/
def schedule (k : Kernel) : Kern Kernel := do
  let k := k.setNeedResched k.current false
  let k ← onlyIf (k.state k.current = .runnable) (schedClassEnqueue k.current) k
  let (rq, next) := k.schedClass.pickNext k.rq
  let k ← schedClassDequeueNext next { k with rq := rq }
  let next := next.getD k.idleproc
  .ok { k with runs := Function.update k.runs next (k.runs next + 1), current := next }

/-- `alloc_proc` at the address `kmalloc` gave. -/
def allocProc (proc : Ptr) (k : Kernel) : Kernel :=
  { k with
    table := { k.table with
      pid := Function.update k.table.pid proc (-1)
      parent := Function.update k.table.parent proc none
      cptr := Function.update k.table.cptr proc none
      optr := Function.update k.table.optr proc none
      yptr := Function.update k.table.yptr proc none }
    rq := { k.rq with
      rq := Function.update k.rq.rq proc false
      runList := listInit (some proc) k.rq.runList
      timeSlice := Function.update k.rq.timeSlice proc 0
      pool := skewHeapInit proc k.rq.pool
      lab6Stride := Function.update k.rq.lab6Stride proc 0
      lab6Priority := Function.update k.rq.lab6Priority proc 1
      trueStride := Function.update k.rq.trueStride proc 0 }
    state := Function.update k.state proc .uninit
    runs := Function.update k.runs proc 0
    needResched := Function.update k.needResched proc false
    flags := Function.update k.flags proc 0
    waitState := Function.update k.waitState proc 0
    allocated := proc :: k.allocated
    serial := Function.update k.serial proc k.births
    births := k.births + 1 }

def kfree (proc : Ptr) (k : Kernel) : Kernel :=
  { k with allocated := k.allocated.erase proc }

/-- Steps 5 and 6 of `do_fork`: the child gets its pid, is hashed, linked and
woken. -/
def enlist (proc : Ptr) (k : Kernel) : Kern Kernel := do
  let (pid, table) ← k.table.getPid
  let table := { table with pid := Function.update table.pid proc pid }
  let table := table.hashProc proc
  let table ← table.setLinks proc
  wakeupProc proc { k with table := table }

/-- `entry` is where the copied trap frame makes the child start. -/
def doFork (entry : Loc) (answers : ForkAnswers) (k : Kernel) : Kern (Int × Kernel) :=
  if k.table.nrProcess ≥ maxProcess then .ok (-eNoFreeProc, k)
  else match answers.proc with
    | none => .ok (-eNoMem, k)
    | some proc => do
      let k := k.allocProc proc
      let k := { k with table := k.table.setParent proc (some k.current) }
      assert (k.waitState k.current = 0#32) "current->wait_state == 0"
      if !answers.kstack then .ok (-eNoMem, k.kfree proc)
      else if answers.copyMm ≠ 0 then .ok (answers.copyMm, k.kfree proc)
      else do
        let k := (k.setA0 proc 0).setLoc proc entry
        let k ← k.enlist proc
        .ok (k.table.pid proc, k)

/-- The loop of `do_exit` that gives the children of the exiting process to
`initproc`. -/
def reparent : Nat → Kernel → Kern Kernel
  | 0, _ => .error .diverge
  | fuel + 1, k =>
    match k.table.cptr k.current with
    | none => .ok k
    | some proc => do
      let initproc ← deref k.initproc
      let k := { k with table := k.table.giveChild k.current proc initproc }
      let k ← onlyIf (k.state proc = .zombie ∧ k.waitState initproc = wtChild) (wakeupProc initproc) k
      reparent fuel k

def doExit (errorCode : Int) (k : Kernel) : Kern Kernel :=
  if k.current = k.idleproc then .error (.panic "idleproc exit.\n")
  else if some k.current = k.initproc then .error (.panic "initproc exit.\n")
  else do
    let k := (k.setState k.current .zombie).setExitCode k.current errorCode
    let k := k.record (.exited (k.serial k.current) errorCode)
    let parent ← deref (k.table.parent k.current)
    let k ← onlyIf (k.waitState parent = wtChild) (wakeupProc parent) k
    let k ← reparent maxProcess k
    schedule (k.setLoc k.current .exited)

/-- The loop of `do_wait` over the children: whether there is one, and a zombie. -/
def waitScan (k : Kernel) : Nat → Option Ptr → Bool → Kern (Bool × Option Ptr)
  | _, none, haskid => .ok (haskid, none)
  | 0, some _, _ => .error .diverge
  | fuel + 1, some proc, _ =>
    if k.state proc = .zombie then .ok (true, some proc)
    else waitScan k fuel (k.table.optr proc) true

/-- What `do_wait` finds from the label `repeat` on. -/
def waitSearch (pid : Int) (k : Kernel) : Kern (Bool × Option Ptr) :=
  if pid ≠ 0 then do
    match ← k.table.findProc pid with
    | some proc =>
      if k.table.parent proc = some k.current then
        .ok (true, if k.state proc = .zombie then some proc else none)
      else .ok (false, none)
    | none => .ok (false, none)
  else k.waitScan maxProcess (k.table.cptr k.current) false

/-- The label `found` of `do_wait`. -/
def reap (proc : Ptr) (codeStore : Nat) (k : Kernel) : Kern Kernel :=
  if proc = k.idleproc ∨ some proc = k.initproc then .error (.panic "wait idleproc or initproc.\n")
  else do
    let k := if codeStore ≠ 0 then k.record (.stored codeStore (k.exitCode proc)) else k
    let k := k.record (.reaped (k.serial k.current) (k.serial proc))
    let table ← (k.table.unhashProc proc).removeLinks proc
    .ok ({ k with table := table }.kfree proc)

/-- `init_main` behind its loop; its return runs into `do_exit`. -/
def initMainEnd (k : Kernel) : Kern Kernel := do
  let initproc ← deref k.initproc
  assert (k.table.cptr initproc = none ∧ k.table.yptr initproc = none ∧ k.table.optr initproc = none)
    "initproc->cptr == NULL && initproc->yptr == NULL && initproc->optr == NULL"
  assert (k.table.nrProcess = 2) "nr_process == 2"
  assert (k.table.procList.next none = some initproc) "list_next(&proc_list) == &(initproc->list_link)"
  assert (k.table.procList.prev none = some initproc) "list_prev(&proc_list) == &(initproc->list_link)"
  doExit 0 k

/-- `do_wait` returns to its caller: `sys_wait` goes back to `trap`, and
`init_main` goes round its loop or leaves it. -/
def waitReturn (caller : WaitCaller) (result : Int) (k : Kernel) : Kern Kernel :=
  let k := k.record (.waited (k.serial k.current) result)
  match caller with
  | .sysWait => .ok ((k.setA0 k.current result).setLoc k.current .trapDispatched)
  | .initMain => if result = 0 then schedule (k.setLoc k.current .initLoop) else initMainEnd k

/-- `do_wait` from the label `repeat` on. -/
def waitRepeat (pid : Int) (codeStore : Nat) (caller : WaitCaller) (k : Kernel) : Kern Kernel := do
  let (haskid, found) ← k.waitSearch pid
  match found with
  | some proc => do
    let k ← k.reap proc codeStore
    k.waitReturn caller 0
  | none =>
    if haskid then
      let k := (k.setState k.current .sleeping).setWaitState k.current wtChild
      schedule (k.setLoc k.current (.waiting pid codeStore caller))
    else k.waitReturn caller (-eBadProc)

/-- `valid` is what `user_mem_check` says about `code_store`. -/
def doWait (pid : Int) (codeStore : Nat) (valid : Bool) (caller : WaitCaller) (k : Kernel) : Kern Kernel :=
  if codeStore ≠ 0 ∧ !valid then k.waitReturn caller (-eInval)
  else k.waitRepeat pid codeStore caller

def doKill (pid : Int) (k : Kernel) : Kern (Int × Kernel) := do
  match ← k.table.findProc pid with
  | some proc =>
    if !k.exiting proc then do
      let k := k.setFlags proc (k.flags proc ||| pfExiting)
      let k ← onlyIf (k.waitState proc &&& wtInterrupted ≠ 0) (wakeupProc proc) k
      .ok (0, k)
    else .ok (-eKilled, k)
  | none => .ok (-eInval, k)

def doYield (k : Kernel) : Kernel := k.setNeedResched k.current true

def doExecve (outcome : ExecOutcome) (k : Kernel) : Kern Kernel :=
  match outcome with
  | .invalid => .ok (k.setA0 k.current (-eInval))
  | .loaded => .ok (k.setA0 k.current 0)
  | .failed error => doExit error k

def lab6SetPriority (priority : BitVec 32) (k : Kernel) : Kernel :=
  let priority := if priority = 0 then 1 else priority
  { k with rq := { k.rq with lab6Priority := Function.update k.rq.lab6Priority k.current priority } }

/-- The system calls, with what the rest of the kernel answers. `plain` stands
for those that touch nothing here: `getpid`, `putc`, `pgdir` and `gettime`. -/
inductive Syscall where
  | exit (code : Int)
  | fork (answers : ForkAnswers)
  | wait (pid : Int) (codeStore : Nat) (valid : Bool)
  | exec (outcome : ExecOutcome)
  | yield
  | kill (pid : Int)
  | setPriority (priority : BitVec 32)
  | plain (result : Int)
  | undefined

def syscall (call : Syscall) (k : Kernel) : Kern Kernel :=
  match call with
  | .exit code => doExit code k
  | .fork answers => do
    let (result, k) ← doFork .forkret answers k
    .ok (k.setA0 k.current result)
  | .wait pid codeStore valid => doWait pid codeStore valid .sysWait k
  | .exec outcome => doExecve outcome k
  | .yield => .ok ((doYield k).setA0 k.current 0)
  | .kill pid => do
    let (result, k) ← doKill pid k
    .ok (k.setA0 k.current result)
  | .setPriority priority => .ok ((lab6SetPriority priority k).setA0 k.current 0)
  | .plain result => .ok (k.setA0 k.current result)
  | .undefined => .error (.panic "undefined syscall")

/-- The end of `trap` for a trap from user mode. -/
def trapEnd (k : Kernel) : Kern Kernel :=
  if k.exiting k.current then doExit (-eKilled) k
  else if k.needResched k.current then schedule (k.setLoc k.current .trapScheduled)
  else .ok (k.setLoc k.current .user)

/-- The current process goes on from where it is. -/
def resume (k : Kernel) : Kern Kernel :=
  match k.loc k.current with
  | .cpuIdle => if k.needResched k.current then schedule k else .ok k
  | .initLoop => doWait 0 0 true .initMain k
  | .forkret => .ok (k.setLoc k.current .user)
  | .trapDispatched => trapEnd k
  | .trapScheduled => .ok (k.setLoc k.current .user)
  | .waiting pid codeStore caller =>
    if k.exiting k.current then doExit (-eKilled) k else waitRepeat pid codeStore caller k
  | .exited => .error (.panic "do_exit will not return!!")
  | .initMain => .ok k
  | .userMain => .ok k
  | .user => .ok k

def initMain (answers : ForkAnswers) (k : Kernel) : Kern Kernel := do
  let (pid, k) ← doFork .userMain answers k
  if pid ≤ 0 then .error (.panic "create user_main failed.\n")
  else .ok (k.setLoc k.current .initLoop)

/-- `user_main`: `kernel_execve` goes on in user mode through `__trapret`. -/
def userMain (outcome : ExecOutcome) (k : Kernel) : Kern Kernel := doExecve outcome (k.setLoc k.current .user)

/-- What can happen next on the processor. -/
inductive Event where
  | tick
  | exception (misalignedStore : Bool)
  | syscall (call : Syscall)
  | initMain (answers : ForkAnswers)
  | userMain (outcome : ExecOutcome)
  | resume

def step (event : Event) (k : Kernel) : Kern Kernel :=
  match event with
  | .tick =>
    let k := if k.loc k.current = .user then k.setLoc k.current .trapDispatched else k
    .ok (k.schedClassProcTick k.current)
  | .exception misalignedStore =>
    if misalignedStore then .error (.panic "AMO address misaligned\n")
    else .ok (k.setLoc k.current .trapDispatched)
  | .syscall call => syscall call (k.setLoc k.current .trapDispatched)
  | .initMain answers => initMain answers k
  | .userMain outcome => userMain outcome k
  | .resume => resume k

end Kernel

end Ucore
