import Mathlib
import Ucore.RunQueue

/-! The process table of `proc.c`: `proc_list`, the pid hash lists, the
parent/child/sibling pointers and the pid counter. -/

namespace Ucore
open Lib

def hashShift : Nat := 10

def hashListSize : Nat := 2 ^ hashShift

/-- `MAX_PID` -/
def maxPid : Int := maxProcess * 2

def hash32 (val : BitVec 32) (bits : Nat) : BitVec 32 := (val * 0x9e370001#32) >>> (32 - bits)

def pidHashfn (pid : Int) : Nat := (hash32 (BitVec.ofInt 32 pid) hashShift).toNat

/-- An entry of a hash list: the head in `hash_list`, or a `hash_link`. -/
inductive HashLink where
  | bucket (index : Nat)
  | hashLink (proc : Ptr)
  deriving DecidableEq

/-- The head of `proc_list` is the entry `none`, a `list_link` is `some proc`. -/
structure ProcTable where
  procList : Links (Option Ptr)
  hashList : Links HashLink
  pid : Ptr → Int
  parent : Ptr → Option Ptr
  cptr : Ptr → Option Ptr
  yptr : Ptr → Option Ptr
  optr : Ptr → Option Ptr
  nrProcess : Int
  lastPid : Int
  nextSafe : Int

namespace HashLink

/-- `le2proc(le, hash_link)` -/
def le2proc : HashLink → Kern Ptr
  | bucket _ => .error .fault
  | hashLink proc => .ok proc

end HashLink

namespace ProcTable

def setYptr (table : ProcTable) (proc : Ptr) (value : Option Ptr) : ProcTable :=
  { table with yptr := Function.update table.yptr proc value }

def setOptr (table : ProcTable) (proc : Ptr) (value : Option Ptr) : ProcTable :=
  { table with optr := Function.update table.optr proc value }

def setCptr (table : ProcTable) (proc : Ptr) (value : Option Ptr) : ProcTable :=
  { table with cptr := Function.update table.cptr proc value }

def setParent (table : ProcTable) (proc : Ptr) (value : Option Ptr) : ProcTable :=
  { table with parent := Function.update table.parent proc value }

def setLinks (proc : Ptr) (table : ProcTable) : Kern ProcTable := do
  let table := { table with procList := listAdd none (some proc) table.procList }
  let table := table.setYptr proc none
  let parent ← deref (table.parent proc)
  let table := table.setOptr proc (table.cptr parent)
  let table := match table.optr proc with
    | some older => table.setYptr older (some proc)
    | none => table
  let table := table.setCptr parent (some proc)
  .ok { table with nrProcess := table.nrProcess + 1 }

def removeLinks (proc : Ptr) (table : ProcTable) : Kern ProcTable := do
  let table := { table with procList := listDel (some proc) table.procList }
  let table := match table.optr proc with
    | some older => table.setYptr older (table.yptr proc)
    | none => table
  let table ← match table.yptr proc with
    | some younger => .ok (table.setOptr younger (table.optr proc))
    | none => do
      let parent ← deref (table.parent proc)
      .ok (table.setCptr parent (table.optr proc))
  .ok { table with nrProcess := table.nrProcess - 1 }

/-- What the loop of `do_exit` does to `proc`, the first child of `current`: it
becomes the first child of `initproc`. -/
def giveChild (current proc initproc : Ptr) (table : ProcTable) : ProcTable :=
  let table := table.setCptr current (table.optr proc)
  let table := table.setYptr proc none
  let table := table.setOptr proc (table.cptr initproc)
  let table := match table.optr proc with
    | some older => table.setYptr older (some proc)
    | none => table
  let table := table.setParent proc (some initproc)
  table.setCptr initproc (some proc)

/-- The `while` loop of `get_pid`, with its jump back to `repeat`. -/
def getPidScan (table : ProcTable) : Nat → Option Ptr → Int → Int → Kern (Int × Int)
  | 0, _, _, _ => .error .diverge
  | fuel + 1, le, lastPid, nextSafe =>
    match table.procList.next le with
    | none => .ok (lastPid, nextSafe)
    | some proc =>
      if table.pid proc = lastPid then
        if lastPid + 1 ≥ nextSafe then
          getPidScan table fuel none (if lastPid + 1 ≥ maxPid then 1 else lastPid + 1) maxPid
        else getPidScan table fuel (some proc) (lastPid + 1) nextSafe
      else if table.pid proc > lastPid ∧ nextSafe > table.pid proc then
        getPidScan table fuel (some proc) lastPid (table.pid proc)
      else getPidScan table fuel (some proc) lastPid nextSafe

/-- One pass over `proc_list` for every process, and one more. -/
def getPidFuel : Nat := maxProcess * maxProcess

/-- `inside`: search from `lastPid` on. -/
def getPidInside (lastPid : Int) (table : ProcTable) : Kern (Int × ProcTable) := do
  let (lastPid, nextSafe) ← table.getPidScan getPidFuel none lastPid maxPid
  .ok (lastPid, { table with lastPid := lastPid, nextSafe := nextSafe })

def getPid (table : ProcTable) : Kern (Int × ProcTable) :=
  let lastPid := table.lastPid + 1
  if lastPid ≥ maxPid then table.getPidInside 1
  else if lastPid ≥ table.nextSafe then table.getPidInside lastPid
  else .ok (lastPid, { table with lastPid := lastPid })

def hashProc (proc : Ptr) (table : ProcTable) : ProcTable :=
  { table with hashList := listAdd (.bucket (pidHashfn (table.pid proc))) (.hashLink proc) table.hashList }

def unhashProc (proc : Ptr) (table : ProcTable) : ProcTable :=
  { table with hashList := listDel (.hashLink proc) table.hashList }

def findProcLoop (table : ProcTable) (pid : Int) (list : HashLink) : Nat → HashLink → Kern (Option Ptr)
  | 0, _ => .error .diverge
  | fuel + 1, le =>
    if table.hashList.next le = list then .ok none
    else do
      let proc ← (table.hashList.next le).le2proc
      if table.pid proc = pid then .ok (some proc)
      else findProcLoop table pid list fuel (table.hashList.next le)

def findProc (pid : Int) (table : ProcTable) : Kern (Option Ptr) :=
  if 0 < pid ∧ pid < maxPid then
    let list := .bucket (pidHashfn pid)
    table.findProcLoop pid list maxProcess list
  else .ok none

end ProcTable

end Ucore
