import Mathlib
import Ucore.ListEntry
import Ucore.SkewHeap

/-! The run queue and the five scheduling classes. A `struct proc_struct *` is a
`Ptr`; each of its fields is a map from pointers, so that a write to one field
of one process leaves all others as they are. -/

namespace Ucore
open Lib

abbrev Ptr := Nat

def maxProcess : Nat := 4096

/-- `MAX_TIME_SLICE` -/
def maxTimeSlice : Int := 5

/-- `BIG_STRIDE` -/
def bigStride : Nat := 2 ^ 30

inductive SchedClass where
  | rr
  | stride
  | fifo
  | sjf
  | hpf
  deriving DecidableEq

/-- `struct run_queue` with the fields of `struct proc_struct` that scheduling
classes use. The header of `run_list` is the entry `none`. The source has one
run queue, so `proc->rq` is whether it has been set. `trueStride` is a ghost: the
stride without wrap-around. -/
structure RunQueue where
  runList : Links (Option Ptr)
  procNum : BitVec 32
  maxTimeSlice : Int
  lab6RunPool : Option Ptr
  pool : HeapNodes Ptr
  rq : Ptr → Bool
  timeSlice : Ptr → Int
  lab6Stride : Ptr → BitVec 32
  lab6Priority : Ptr → BitVec 32
  trueStride : Ptr → Nat

/-- How deep `skew_heap_merge` may recurse: there are no more processes. -/
def poolDepth : Nat := maxProcess

section Compare

variable (pid : Ptr → Int) (rq : RunQueue)

def procStrideCompF (p q : Ptr) : Int :=
  let c := (rq.lab6Stride p - rq.lab6Stride q).toInt
  if c > 0 then 1 else if c = 0 then 0 else -1

def procSjfCompF (p q : Ptr) : Int :=
  if rq.lab6Priority p < rq.lab6Priority q then -1
  else if rq.lab6Priority p > rq.lab6Priority q then 1
  else if pid p < pid q then -1
  else if pid p > pid q then 1
  else 0

def procPrioCompF (p q : Ptr) : Int :=
  if rq.lab6Priority p > rq.lab6Priority q then -1
  else if rq.lab6Priority p < rq.lab6Priority q then 1
  else if pid p < pid q then -1
  else if pid p > pid q then 1
  else 0

end Compare

namespace RunQueue

/-- Refill an empty or oversized time slice. -/
def refill (proc : Ptr) (rq : RunQueue) : RunQueue :=
  if rq.timeSlice proc = 0 ∨ rq.timeSlice proc > rq.maxTimeSlice then
    { rq with timeSlice := Function.update rq.timeSlice proc rq.maxTimeSlice }
  else rq

/-- `proc->rq = rq; rq->proc_num++` -/
def enrol (proc : Ptr) (rq : RunQueue) : RunQueue :=
  { rq with rq := Function.update rq.rq proc true, procNum := rq.procNum + 1 }

def append (proc : Ptr) (rq : RunQueue) : RunQueue :=
  { rq with runList := listAddBefore none (some proc) rq.runList }

def unlink (proc : Ptr) (rq : RunQueue) : RunQueue :=
  { rq with runList := listDelInit (some proc) rq.runList, procNum := rq.procNum - 1 }

def poolInsert (comp : Ptr → Ptr → Int) (proc : Ptr) (rq : RunQueue) : Kern RunQueue := do
  let (root, pool) ← skewHeapInsert comp poolDepth rq.lab6RunPool proc rq.pool
  .ok { rq with lab6RunPool := root, pool := pool }

def poolRemove (comp : Ptr → Ptr → Int) (proc : Ptr) (rq : RunQueue) : Kern RunQueue := do
  let (root, pool) ← skewHeapRemove comp poolDepth rq.lab6RunPool proc rq.pool
  .ok { rq with lab6RunPool := root, pool := pool, procNum := rq.procNum - 1 }

/-- The process at the front of `run_list`. -/
def front (rq : RunQueue) : Option Ptr := rq.runList.next none

/-- Take one tick off the slice of `proc`; the flag says that it is used up. -/
def countDown (proc : Ptr) (rq : RunQueue) : RunQueue × Bool :=
  let rq := if rq.timeSlice proc > 0 then
      { rq with timeSlice := Function.update rq.timeSlice proc (rq.timeSlice proc - 1) }
    else rq
  (rq, rq.timeSlice proc = 0)

end RunQueue

open RunQueue

def rrInit (rq : RunQueue) : RunQueue :=
  { rq with runList := listInit none rq.runList, procNum := 0 }

def rrEnqueue (proc : Ptr) (rq : RunQueue) : Kern RunQueue := do
  assert (listEmpty (some proc) rq.runList) "list_empty(&(proc->run_link))"
  .ok (((rq.append proc).refill proc).enrol proc)

def rrDequeue (proc : Ptr) (rq : RunQueue) : Kern RunQueue := do
  assert (!listEmpty (some proc) rq.runList && rq.rq proc)
    "!list_empty(&(proc->run_link)) && proc->rq == rq"
  .ok (rq.unlink proc)

def rrPickNext (rq : RunQueue) : Option Ptr := rq.front

def rrProcTick (proc : Ptr) (rq : RunQueue) : RunQueue × Bool := rq.countDown proc

def fifoInit (rq : RunQueue) : RunQueue :=
  { rq with runList := listInit none rq.runList, lab6RunPool := none, procNum := 0 }

def fifoEnqueue (proc : Ptr) (rq : RunQueue) : Kern RunQueue := do
  assert (listEmpty (some proc) rq.runList) "list_empty(&(proc->run_link))"
  .ok ((rq.append proc).enrol proc)

def fifoDequeue (proc : Ptr) (rq : RunQueue) : Kern RunQueue := do
  assert (rq.rq proc && rq.procNum > 0) "proc->rq == rq && rq->proc_num > 0"
  assert (!listEmpty (some proc) rq.runList) "!list_empty(&(proc->run_link))"
  .ok (rq.unlink proc)

def fifoPickNext (rq : RunQueue) : Option Ptr := rq.front

/-- A tick never asks for a new schedule. -/
def fifoProcTick (_proc : Ptr) (rq : RunQueue) : RunQueue × Bool := (rq, false)

/-- The three pool classes only differ in their order. -/
def poolInit (rq : RunQueue) : RunQueue :=
  { rq with runList := listInit none rq.runList, lab6RunPool := none, procNum := 0 }

def poolEnqueue (comp : Ptr → Ptr → Int) (proc : Ptr) (rq : RunQueue) : Kern RunQueue := do
  let rq ← rq.poolInsert comp proc
  .ok ((rq.refill proc).enrol proc)

def poolDequeue (comp : Ptr → Ptr → Int) (proc : Ptr) (rq : RunQueue) : Kern RunQueue := do
  assert (rq.rq proc && rq.procNum > 0) "proc->rq == rq && rq->proc_num > 0"
  rq.poolRemove comp proc

def strideInit (rq : RunQueue) : RunQueue := poolInit rq

def strideEnqueue (proc : Ptr) (rq : RunQueue) : Kern RunQueue := poolEnqueue (procStrideCompF rq) proc rq

def strideDequeue (proc : Ptr) (rq : RunQueue) : Kern RunQueue := poolDequeue (procStrideCompF rq) proc rq

/-- `proc->lab6_stride += BIG_STRIDE / proc->lab6_priority` -/
def advance (proc : Ptr) (rq : RunQueue) : RunQueue :=
  let step := BitVec.ofNat 32 bigStride / rq.lab6Priority proc
  { rq with
    lab6Stride := Function.update rq.lab6Stride proc (rq.lab6Stride proc + step)
    trueStride := Function.update rq.trueStride proc (rq.trueStride proc + step.toNat) }

def stridePickNext (rq : RunQueue) : RunQueue × Option Ptr :=
  if rq.procNum = 0 then (rq, none)
  else match rq.lab6RunPool with
    | none => (rq, none)
    | some proc => (advance proc rq, some proc)

/-- What the loop keeps when it comes to `p`. -/
def strideLesser (rq : RunQueue) (p : Ptr) : Option Ptr → Ptr
  | none => p
  | some proc => if procStrideCompF rq p proc < 0 then p else proc

/-- The loop over `run_list` that looks for the least stride; `proc` is the least one so
far. -/
def strideScan (rq : RunQueue) : Nat → Option Ptr → Option Ptr → Kern (Option Ptr)
  | _, none, proc => .ok proc
  | 0, some _, _ => .error .diverge
  | fuel + 1, some p, proc => strideScan rq fuel (rq.runList.next (some p)) (some (strideLesser rq p proc))

/-- `stride_pick_next` without `USE_SKEW_HEAP`. -/
def strideListPickNext (rq : RunQueue) : Kern (RunQueue × Option Ptr) :=
  if rq.procNum = 0 then .ok (rq, none)
  else do
    match ← strideScan rq maxProcess (rq.runList.next none) none with
    | none => .ok (rq, none)
    | some proc => .ok (advance proc rq, some proc)

def strideProcTick (proc : Ptr) (rq : RunQueue) : RunQueue × Bool := rq.countDown proc

def sjfInit (rq : RunQueue) : RunQueue := poolInit rq

def sjfEnqueue (pid : Ptr → Int) (proc : Ptr) (rq : RunQueue) : Kern RunQueue :=
  poolEnqueue (procSjfCompF pid rq) proc rq

def sjfDequeue (pid : Ptr → Int) (proc : Ptr) (rq : RunQueue) : Kern RunQueue :=
  poolDequeue (procSjfCompF pid rq) proc rq

def sjfPickNext (rq : RunQueue) : Option Ptr := rq.lab6RunPool

def sjfProcTick (proc : Ptr) (rq : RunQueue) : RunQueue × Bool := rq.countDown proc

def hpfInit (rq : RunQueue) : RunQueue := poolInit rq

def hpfEnqueue (pid : Ptr → Int) (proc : Ptr) (rq : RunQueue) : Kern RunQueue :=
  poolEnqueue (procPrioCompF pid rq) proc rq

def hpfDequeue (pid : Ptr → Int) (proc : Ptr) (rq : RunQueue) : Kern RunQueue :=
  poolDequeue (procPrioCompF pid rq) proc rq

def hpfPickNext (rq : RunQueue) : Option Ptr := rq.lab6RunPool

def hpfProcTick (proc : Ptr) (rq : RunQueue) : RunQueue × Bool := rq.countDown proc

namespace SchedClass

def init : SchedClass → RunQueue → RunQueue
  | rr => rrInit
  | stride => strideInit
  | fifo => fifoInit
  | sjf => sjfInit
  | hpf => hpfInit

def enqueue (pid : Ptr → Int) : SchedClass → Ptr → RunQueue → Kern RunQueue
  | rr => rrEnqueue
  | stride => strideEnqueue
  | fifo => fifoEnqueue
  | sjf => sjfEnqueue pid
  | hpf => hpfEnqueue pid

def dequeue (pid : Ptr → Int) : SchedClass → Ptr → RunQueue → Kern RunQueue
  | rr => rrDequeue
  | stride => strideDequeue
  | fifo => fifoDequeue
  | sjf => sjfDequeue pid
  | hpf => hpfDequeue pid

def pickNext : SchedClass → RunQueue → RunQueue × Option Ptr
  | rr, rq => (rq, rrPickNext rq)
  | stride, rq => stridePickNext rq
  | fifo, rq => (rq, fifoPickNext rq)
  | sjf, rq => (rq, sjfPickNext rq)
  | hpf, rq => (rq, hpfPickNext rq)

def procTick : SchedClass → Ptr → RunQueue → RunQueue × Bool
  | rr => rrProcTick
  | stride => strideProcTick
  | fifo => fifoProcTick
  | sjf => sjfProcTick
  | hpf => hpfProcTick

end SchedClass

end Ucore
