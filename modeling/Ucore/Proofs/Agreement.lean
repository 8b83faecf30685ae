import Ucore.Proofs.Boot
import Ucore.Spaces

/-! The process table and the memory of the processes are two machines, and a run of the kernel is a run of both. The memory
answers what `do_fork` and `do_execve` ask, and it follows each step of the process table. Both have the same processes then,
and the same of them have exited. -/

namespace Ucore
open Lib

/-- What both machines know of the processes is the same. -/
structure Agree (k : Kernel) (s : Spaces) : Prop where
  procs : s.procs = k.allocated
  exited : ∀ proc ∈ k.allocated, s.exited proc = true ↔ k.state proc = .zombie
  nrProcess : s.nrProcess = k.table.nrProcess
  idleproc : s.idleproc = k.idleproc
  initproc : s.initproc = k.initproc
  current : s.vm.current = k.current

namespace Spaces

/-- The memory of the new process behind its `alloc_proc`. -/
def newborn (s : Spaces) (proc : Ptr) : Vm := ({ s.vm with mem := s.vm.mem.kmalloc.2 } : Vm).allocProc proc

/-- The memory answers a `do_fork` as `answers` says. -/
structure Answers (s : Spaces) (flags : BitVec 32) (answers : ForkAnswers) : Prop where
  proc : answers.proc = s.vm.mem.kmalloc.1
  kstack : ∀ proc ∈ answers.proc, ((s.newborn proc).setupKstack proc).1 = if answers.kstack then 0 else -eNoMem
  copyMm : ∀ proc ∈ answers.proc, answers.kstack = true →
    ∃ vm, ((s.newborn proc).setupKstack proc).2.copyMm flags proc = .ok (answers.copyMm, vm)

/-- Only the memory has changed. -/
def SameProcs (s s' : Spaces) : Prop := ∃ vm, s' = { s with vm := vm }

/-- `schedule` has chosen `next`. -/
def runs (next : Ptr) (s : Spaces) : Spaces := { s with vm := s.vm.procRun next }

end Spaces

section Current

variable {vm vm' : Vm} {image : Image} {mm : MmStruct} {block : Block} {proc : Ptr} {ret : Int}

private theorem abandonMm_current {code : Int} (done : vm.abandonMm block mm code = .ok (ret, vm')) : vm'.current = vm.current := by
  obtain ⟨mem, -, result⟩ := bind_ok done
  obtain ⟨-, rfl⟩ := Prod.mk.inj (Except.ok.inj result)
  rfl

private theorem goodMm_current (done : vm.goodMm proc block = .ok (ret, vm')) : vm'.current = vm.current := by
  obtain ⟨pgdir, -, result⟩ := bind_ok done
  obtain ⟨-, rfl⟩ := Prod.mk.inj (Except.ok.inj result)
  rfl

private theorem copyMm_current {flags : BitVec 32} (done : vm.copyMm flags proc = .ok (ret, vm')) : vm'.current = vm.current := by
  unfold Vm.copyMm at done
  split at done
  · obtain ⟨-, rfl⟩ := Prod.mk.inj (Except.ok.inj done)
    rfl
  split at done
  · exact goodMm_current done
  unfold Vm.dupMm at done
  split at done
  · obtain ⟨-, rfl⟩ := Prod.mk.inj (Except.ok.inj done)
    rfl
  split at done
  · obtain ⟨old, -, done⟩ := bind_ok done
    obtain ⟨⟨code, mm', mem'⟩, -, done⟩ := bind_ok done
    obtain ⟨old', -, done⟩ := bind_ok done
    dsimp only at done
    split at done
    · have kept := goodMm_current done
      exact kept
    · obtain ⟨mem'', -, result⟩ := bind_ok done
      obtain ⟨-, rfl⟩ := Prod.mk.inj (Except.ok.inj result)
      rfl
  · have kept := abandonMm_current done
    exact kept

private theorem refuseElf_current (done : vm.refuseElf block mm = .ok (ret, vm')) : vm'.current = vm.current := by
  obtain ⟨mem, -, result⟩ := bind_ok done
  have kept := abandonMm_current result
  exact kept

private theorem loadElf_current {phoff : Nat} {pgdir : Frame} (done : vm.loadElf image phoff pgdir block mm = .ok (ret, vm')) :
    vm'.current = vm.current := by
  obtain ⟨⟨code, mm', mem⟩, -, done⟩ := bind_ok done
  dsimp only at done
  split at done
  · obtain ⟨dir, -, done⟩ := bind_ok done
    obtain ⟨entry, -, result⟩ := bind_ok done
    obtain ⟨-, rfl⟩ := Prod.mk.inj (Except.ok.inj result)
    rfl
  · obtain ⟨mem', -, result⟩ := bind_ok done
    obtain ⟨-, rfl⟩ := Prod.mk.inj (Except.ok.inj result)
    rfl

private theorem loadInto_current {order : HeaderOrder} (done : vm.loadInto order image block mm = .ok (ret, vm')) : vm'.current = vm.current := by
  obtain ⟨pgdir, -, done⟩ := bind_ok done
  cases order with
  | phoffFirst =>
    obtain ⟨phoff, -, done⟩ := bind_ok done
    obtain ⟨magic, -, done⟩ := bind_ok done
    split at done
    · exact refuseElf_current done
    · exact loadElf_current done
  | magicFirst =>
    obtain ⟨magic, -, done⟩ := bind_ok done
    split at done
    · exact refuseElf_current done
    · obtain ⟨phoff, -, done⟩ := bind_ok done
      exact loadElf_current done

private theorem loadIcode_current {order : HeaderOrder} {size : Nat} (done : vm.loadIcode order image size = .ok (ret, vm')) :
    vm'.current = vm.current := by
  unfold Vm.loadIcode at done
  split at done
  · cases done
  split at done
  · obtain ⟨-, rfl⟩ := Prod.mk.inj (Except.ok.inj done)
    rfl
  split at done
  · have kept := loadInto_current done
    exact kept
  · have kept := abandonMm_current done
    exact kept

private theorem dropMm_current (done : vm.dropMm = .ok vm') : vm'.current = vm.current := by
  unfold Vm.dropMm at done
  split at done
  · rw [Except.ok.inj done]
  · obtain ⟨mem, -, result⟩ := bind_ok done
    obtain rfl := Except.ok.inj result
    rfl

private theorem userMemCheck_current {addr len : Nat} {write answer : Bool} (done : vm.userMemCheck addr len write = .ok (answer, vm')) :
    vm'.current = vm.current := by
  unfold Vm.userMemCheck at done
  split at done
  · obtain ⟨-, rfl⟩ := Prod.mk.inj (Except.ok.inj done)
    rfl
  · obtain ⟨⟨granted, mm'⟩, -, result⟩ := bind_ok done
    obtain ⟨-, rfl⟩ := Prod.mk.inj (Except.ok.inj result)
    rfl

end Current

section Fork

variable {k k' : Kernel} {s s' : Spaces} {answers : ForkAnswers} {entry : Loc} {ret : Int} {res : Except Int Ptr} {flags : BitVec 32}
  {stack : BitVec 64} {tf : TrapFrame} {proc : Ptr}

private theorem enqueue_keeps (done : k.schedClassEnqueue proc = .ok k') : ∃ rq, k' = { k with rq := rq } := by
  unfold Kernel.schedClassEnqueue at done
  split at done
  · obtain ⟨rq, -, result⟩ := bind_ok done
    exact ⟨rq, (Except.ok.inj result).symm⟩
  · exact ⟨k.rq, (Except.ok.inj done).symm⟩

/-- What `wakeup_proc` leaves alone. -/
private structure Woken (k k' : Kernel) (proc : Ptr) : Prop where
  allocated : k'.allocated = k.allocated
  idleproc : k'.idleproc = k.idleproc
  initproc : k'.initproc = k.initproc
  runnable : k'.state proc = .runnable
  state : ∀ other, other ≠ proc → k'.state other = k.state other

private theorem wakeupProc_woken (done : k.wakeupProc proc = .ok k') : Woken k k' proc := by
  obtain ⟨⟨⟩, -, done⟩ := bind_ok done
  split at done
  next =>
    have others : ∀ other, other ≠ proc → (Function.update k.state proc .runnable) other = k.state other :=
      fun other away => Function.update_of_ne away _ _
    dsimp only at done
    split at done
    next =>
      obtain ⟨rq, rfl⟩ := enqueue_keeps done
      exact ⟨rfl, rfl, rfl, Function.update_self _ _ _, others⟩
    next =>
      obtain rfl := Except.ok.inj done
      exact ⟨rfl, rfl, rfl, Function.update_self _ _ _, others⟩
  next awake =>
    obtain rfl := Except.ok.inj done
    exact ⟨rfl, rfl, rfl, not_not.mp awake, fun _ _ => rfl⟩

/-- What `do_fork` does in both machines: it fails with the same error, or makes the same child. -/
inductive Forks (k k' : Kernel) (s s' : Spaces) (ret : Int) (res : Except Int Ptr) : Prop where
  | refused (error : res = .error ret) (allocated : k'.allocated = k.allocated) (procs : s.SameProcs s')
  | born (child : Ptr) (value : res = .ok child) (pid : ret = k'.table.pid child) (allocated : k'.allocated = child :: k.allocated)
      (runnable : k'.state child = .runnable)
      (procs : ∃ vm, vm.current = s.vm.current ∧
        s' = { s with vm := vm, procs := child :: s.procs, exited := Function.update s.exited child false, nrProcess := s.nrProcess + 1 })

theorem fork_agrees (agree : Agree k s) (fresh : ∀ proc ∈ answers.proc, proc ∉ k.allocated) (answered : s.Answers flags answers)
    (forked : k.doFork entry answers = .ok (ret, k')) (done : s.doFork flags stack tf = .ok (res, s')) :
    Forks k k' s s' ret res ∧ k'.idleproc = k.idleproc ∧ k'.initproc = k.initproc ∧ ∀ proc ∈ k.allocated, k'.state proc = k.state proc := by
  unfold Kernel.doFork at forked
  unfold Spaces.doFork at done
  by_cases full : k.table.nrProcess ≥ maxProcess
  · rw [if_pos full] at forked
    rw [if_pos (by rwa [agree.nrProcess])] at done
    obtain ⟨rfl, rfl⟩ := Prod.mk.inj (Except.ok.inj forked)
    obtain ⟨rfl, rfl⟩ := Prod.mk.inj (Except.ok.inj done)
    exact ⟨.refused rfl rfl ⟨_, rfl⟩, rfl, rfl, fun _ _ => rfl⟩
  rw [if_neg full] at forked
  rw [if_neg (by rwa [agree.nrProcess])] at done
  cases asked : s.vm.mem.kmalloc with
  | mk got mem =>
    have answer := answered.proc
    rw [asked] at done answer
    cases got with
    | none =>
      rw [answer] at forked
      obtain ⟨rfl, rfl⟩ := Prod.mk.inj (Except.ok.inj forked)
      obtain ⟨rfl, rfl⟩ := Prod.mk.inj (Except.ok.inj done)
      exact ⟨.refused rfl rfl ⟨_, rfl⟩, rfl, rfl, fun _ _ => rfl⟩
    | some proc =>
      have newborn : ({ s.vm with mem := mem } : Vm).allocProc proc = s.newborn proc := by
        rw [Spaces.newborn, asked]
      have kstack := answered.kstack proc answer
      have copied := answered.copyMm proc answer
      have strange := fresh proc answer
      have before : ∀ other ∈ k.allocated, Function.update k.state proc .uninit other = k.state other :=
        fun other live => Function.update_of_ne (ne_of_mem_of_not_mem live strange) _ _
      rw [answer] at forked
      obtain ⟨⟨⟩, -, forked⟩ := bind_ok forked
      dsimp only at done
      rw [newborn] at done
      by_cases stack : answers.kstack = true
      · rw [if_neg (by simp [stack])] at forked
        rw [if_pos stack] at kstack
        rw [if_neg (not_not.mpr kstack)] at done
        obtain ⟨vm, copy⟩ := copied stack
        rw [copy, ok_bind] at done
        dsimp only at done
        by_cases zero : answers.copyMm = 0
        · rw [if_neg (not_not.mpr zero)] at forked done
          obtain ⟨k₁, admitted, result⟩ := bind_ok forked
          obtain ⟨rfl, rfl⟩ := Prod.mk.inj (Except.ok.inj result)
          obtain ⟨rfl, rfl⟩ := Prod.mk.inj (Except.ok.inj done)
          obtain ⟨⟨pid, table⟩, -, admitted⟩ := bind_ok admitted
          obtain ⟨table', -, admitted⟩ := bind_ok admitted
          have woken := wakeupProc_woken admitted
          have current : vm.current = s.vm.current := by
            refine (copyMm_current copy).trans ?_
            unfold Vm.setupKstack
            split <;> rfl
          refine ⟨.born proc rfl rfl woken.allocated woken.runnable ⟨vm.copyThread proc _ tf, current, rfl⟩, woken.idleproc, woken.initproc, fun other live => ?_⟩
          exact (woken.state other (ne_of_mem_of_not_mem live strange)).trans (before other live)
        · rw [if_pos zero] at forked done
          obtain ⟨rfl, rfl⟩ := Prod.mk.inj (Except.ok.inj forked)
          obtain ⟨vm₁, -, done⟩ := bind_ok done
          obtain ⟨vm₂, -, done⟩ := bind_ok done
          obtain ⟨rfl, rfl⟩ := Prod.mk.inj (Except.ok.inj done)
          exact ⟨.refused rfl (List.erase_cons_head _ _) ⟨_, rfl⟩, rfl, rfl, before⟩
      · rw [if_pos (by simp [stack])] at forked
        rw [if_neg stack] at kstack
        rw [kstack, if_pos (by decide)] at done
        obtain ⟨rfl, rfl⟩ := Prod.mk.inj (Except.ok.inj forked)
        obtain ⟨vm₁, -, done⟩ := bind_ok done
        obtain ⟨rfl, rfl⟩ := Prod.mk.inj (Except.ok.inj done)
        exact ⟨.refused rfl (List.erase_cons_head _ _) ⟨_, rfl⟩, rfl, rfl, before⟩

end Fork

namespace Spaces

variable {s s' : Spaces}

private theorem doExit_cases (done : s.doExit = .ok s') : ∃ vm, s' = { s with vm := vm, exited := Function.update s.exited s.vm.current true } := by
  unfold doExit at done
  split at done
  · cases done
  split at done
  · cases done
  obtain ⟨vm, -, result⟩ := bind_ok done
  exact ⟨vm, (Except.ok.inj result).symm⟩

private theorem doExecve_cases {order : HeaderOrder} {name len size : Nat} {image : Image} (done : s.doExecve order name len image size = .ok s') :
    s.SameProcs s' ∨ ∃ vm, s' = { s with vm := vm, exited := Function.update s.exited s.vm.current true } := by
  obtain ⟨⟨answer, vm⟩, checked, done⟩ := bind_ok done
  dsimp only at done
  split at done
  · exact .inl ⟨vm, (Except.ok.inj done).symm⟩
  obtain ⟨⟨localName, vm₁⟩, left, done⟩ := bind_ok done
  obtain ⟨⟨ret, vm₂⟩, loaded, done⟩ := bind_ok done
  obtain ⟨⟨⟩, -, left⟩ := bind_ok left
  obtain ⟨vm₁', dropped, left⟩ := bind_ok left
  obtain ⟨-, rfl⟩ := Prod.mk.inj (Except.ok.inj left)
  have current : vm₂.current = s.vm.current :=
    (loadIcode_current loaded).trans ((dropMm_current dropped).trans (userMemCheck_current checked))
  dsimp only at done
  split at done
  · obtain ⟨vm₃, rfl⟩ := doExit_cases done
    exact .inr ⟨vm₃, by rw [← current]⟩
  · exact .inl ⟨_, (Except.ok.inj done).symm⟩

private theorem doWait_cases {child : Ptr} {codeStore : Nat} {code : BitVec 32} (done : s.doWait child codeStore code = .ok s') :
    s.SameProcs s' ∨ ∃ vm, s' = { s with vm := vm, procs := s.procs.erase child, nrProcess := s.nrProcess - 1 } := by
  obtain ⟨⟨answer, vm⟩, -, done⟩ := bind_ok done
  dsimp only at done
  split at done
  · exact .inl ⟨vm, (Except.ok.inj done).symm⟩
  split at done
  · cases done
  obtain ⟨vm₁, -, done⟩ := bind_ok done
  obtain ⟨vm₂, -, done⟩ := bind_ok done
  obtain ⟨vm₃, -, done⟩ := bind_ok done
  exact .inr ⟨vm₃, (Except.ok.inj done).symm⟩

/-- `proc_init` before the fork of `init_main`. -/
def primed (bootstack : Frame) (idle : Ptr) (mem : Mem) (vm : Vm) : Spaces :=
  let vm := ({ vm with mem := mem } : Vm).allocProc idle
  ⟨{ vm with kstack := Function.update vm.kstack idle bootstack, current := idle }, [idle], fun _ => false, 1, idle, none⟩

end Spaces

/-- The events that come with what the memory answers. -/
def Kernel.AsksMemory : Kernel.Event → Prop
  | .syscall (.fork _) | .syscall (.exec _) | .initMain _ | .userMain _ => True
  | .syscall _ | .tick | .exception _ | .resume => False

/-- What the memory does while the process table goes from `k` to `k'`: a `do_fork` or a `do_execve` of its own, the
`do_exit` of the process that exits, the `do_wait` that finds the child, or nothing. -/
inductive Follows (k k' : Kernel) (s : Spaces) (event : Kernel.Event) : Spaces → Prop where
  | fork {s' : Spaces} {answers : ForkAnswers} {flags : BitVec 32} {stack : BitVec 64} {tf : TrapFrame} {res : Except Int Ptr}
      (asks : event = .syscall (.fork answers) ∨ event = .initMain answers) (answered : s.Answers flags answers)
      (done : s.doFork flags stack tf = .ok (res, s')) : Follows k k' s event s'
  | exec {s' : Spaces} {order : HeaderOrder} {name len size : Nat} {image : Image} {outcome : ExecOutcome}
      (asks : event = .syscall (.exec outcome) ∨ event = .userMain outcome) (orderly : image.Orderly) (kept : k'.allocated = k.allocated)
      (done : s.doExecve order name len image size = .ok s') (failed : k'.state k.current = .zombie ↔ s'.exited s.vm.current = true) :
      Follows k k' s event s'
  | exit {s' : Spaces} (asks : ¬ Kernel.AsksMemory event) (kept : k'.allocated = k.allocated) (gone : k'.state k.current = .zombie)
      (done : s.doExit = .ok s') : Follows k k' s event s'
  | reap {s' : Spaces} {child : Ptr} {pid : Int} {codeStore : Nat} (asks : ¬ Kernel.AsksMemory event)
      (call : Kernel.askedBy event k = some (pid, codeStore)) (live : child ∈ k.allocated) (erased : k'.allocated = k.allocated.erase child)
      (thread : s.vm.mm s.vm.current = none → codeStore = 0)
      (done : s.doWait child codeStore (BitVec.ofInt 32 (k.exitCode child)) = .ok s') (found : s'.procs ≠ s.procs) : Follows k k' s event s'
  | quiet (asks : ¬ Kernel.AsksMemory event) (kept : k'.allocated = k.allocated) (alive : k'.state k.current ≠ .zombie) : Follows k k' s event s

/-- The runs of both machines. Between the steps of the process table the running process writes to its memory. -/
inductive Together (schedClass : SchedClass) : Kernel → Spaces → Prop where
  | boot {memory k : Kernel} {answers : ForkAnswers} {vm : Vm} {mem : Mem} {bootstack : Frame} {tf : TrapFrame} {idle : Ptr} {s : Spaces}
      (started : vm.Started) (given : vm.mem.kmalloc = (some idle, mem)) (answered : (Spaces.primed bootstack idle mem vm).Answers cloneVm answers)
      (granted : answers.proc ≠ some idle ∧ (answers.copyMm = 0 ∨ answers.copyMm = -eNoMem))
      (booted : Kernel.boot schedClass memory idle answers = .ok k) (inited : Spaces.procInit bootstack tf vm = .ok s) : Together schedClass k s
  | step {k k' : Kernel} {s s' : Spaces} {event : Kernel.Event} (together : Together schedClass k s) (enabled : k.Enabled event)
      (stepped : k.step event = .ok k') (follows : Follows k k' s event s') : Together schedClass k' (s'.runs k'.current)
  | store {k : Kernel} {s s' : Spaces} {addr : Nat} {value : BitVec 8} (together : Together schedClass k s)
      (done : Spaces.act (.store addr value) s = .ok s') : Together schedClass k s'

section Runs

variable {schedClass : SchedClass} {k k' : Kernel} {s s' : Spaces} {event : Kernel.Event}

private theorem count_allocated {procs queue : List Ptr} {kids : Ptr → List Ptr} {init : Ptr} (inv : k.Invariant procs kids queue init) :
    k.table.nrProcess = k.allocated.length := by
  rw [inv.stable.live.length_eq, inv.stable.core.table.indexed.count, List.length_cons]
  norm_cast

private theorem nodup_allocated {procs queue : List Ptr} {kids : Ptr → List Ptr} {init : Ptr} (inv : k.Invariant procs kids queue init) :
    k.allocated.Nodup := by
  rw [inv.stable.live.nodup_iff, List.nodup_cons]
  exact ⟨inv.stable.core.table.indexed.root, inv.stable.core.table.indexed.distinct⟩

private theorem runs_current (next : Ptr) : (s.runs next).vm.current = next := by
  unfold Spaces.runs Vm.procRun
  split
  next => rfl
  next same => exact (not_not.mp same).symm

/-- The same processes, of which the same have exited, are all there is to agree about. -/
private theorem agrees {procs' queue' : List Ptr} {kids' : Ptr → List Ptr} {init : Ptr} (inv : k'.Invariant procs' kids' queue' init)
    (procs : s'.procs = k'.allocated) (exited : ∀ proc ∈ k'.allocated, s'.exited proc = true ↔ k'.state proc = .zombie)
    (count : s'.nrProcess = s'.procs.length) (idleproc : s'.idleproc = k'.idleproc) (initproc : s'.initproc = k'.initproc) :
    Agree k' (s'.runs k'.current) where
  procs := procs
  exited := exited
  nrProcess := by
    rw [count_allocated inv, ← procs]
    exact count
  idleproc := idleproc
  initproc := initproc
  current := runs_current _

private theorem exited_kept {killed : Option Ptr} (agree : Agree k s) (frame : Kernel.Frame k k' killed)
    (own : s'.exited k.current = true ↔ k'.state k.current = .zombie) (others : ∀ proc, proc ≠ k.current → s'.exited proc = s.exited proc) :
    ∀ proc ∈ k.allocated, s'.exited proc = true ↔ k'.state proc = .zombie := by
  intro proc live
  by_cases here : proc = k.current
  · rw [here]
    exact own
  · rw [others proc here, frame.zombie_iff live here]
    exact agree.exited proc live

private theorem fork_step {answers : ForkAnswers} {flags : BitVec 32} {stack : BitVec 64} {tf : TrapFrame} {res : Except Int Ptr}
    (agree : Agree k s) (enabled : k.Enabled event) (stepped : k.step event = .ok k')
    (asks : event = .syscall (.fork answers) ∨ event = .initMain answers) (answered : s.Answers flags answers)
    (done : s.doFork flags stack tf = .ok (res, s')) :
    ∃ ret, Forks k k' s s' ret res ∧ k'.idleproc = k.idleproc ∧ k'.initproc = k.initproc ∧ ∀ proc ∈ k.allocated, k'.state proc = k.state proc := by
  rcases asks with rfl | rfl
  · obtain ⟨⟨ret, k₁⟩, forked, result⟩ := bind_ok stepped
    obtain rfl := Except.ok.inj result
    have agree₁ : Agree (k.setLoc k.current .trapDispatched) s :=
      ⟨agree.procs, agree.exited, agree.nrProcess, agree.idleproc, agree.initproc, agree.current⟩
    obtain ⟨forks, idleproc, initproc, state⟩ := fork_agrees agree₁ enabled.2.1 answered forked done
    refine ⟨ret, ?_, idleproc, initproc, state⟩
    cases forks with
    | refused error allocated procs => exact .refused error allocated procs
    | born child value pid allocated runnable procs => exact .born child value pid allocated runnable procs
  · obtain ⟨⟨ret, k₁⟩, forked, result⟩ := bind_ok stepped
    dsimp only at result
    split at result
    · cases result
    obtain rfl := Except.ok.inj result
    obtain ⟨forks, idleproc, initproc, state⟩ := fork_agrees agree enabled.2.1 answered forked done
    refine ⟨ret, ?_, idleproc, initproc, state⟩
    cases forks with
    | refused error allocated procs => exact .refused error allocated procs
    | born child value pid allocated runnable procs => exact .born child value pid allocated runnable procs

/-- A `do_wait` that takes a process away has found one that has exited. -/
private theorem reaped {asked : Option (Int × Nat)} {child : Ptr} (nodup : k.allocated.Nodup) (life : Kernel.Life k k' asked)
    (live : child ∈ k.allocated) (erased : k'.allocated = k.allocated.erase child) : k.state child = .zombie ∧ k'.state k.current ≠ .zombie := by
  have fewer := List.length_erase_of_mem live
  have some := List.length_pos_of_mem live
  cases life with
  | steady allocated | exit _ allocated =>
    rw [← erased, allocated] at fewer
    omega
  | fork _ _ allocated =>
    rw [← erased, allocated, List.length_cons] at fewer
    omega
  | reap pid codeStore other call live' below same exited allocated alive =>
    have equal : child = other := by
      by_contra apart
      have kept : other ∈ k.allocated.erase child := (List.mem_erase_of_ne (Ne.symm apart)).mpr live'
      rw [← erased, allocated] at kept
      exact nodup.not_mem_erase kept
    exact ⟨equal ▸ exited, alive⟩

/-- The step lemma of the two machines. -/
theorem Agree.step (agree : Agree k s) (reached : Kernel.Reachable schedClass k) (enabled : k.Enabled event) (stepped : k.step event = .ok k')
    (follows : Follows k k' s event s') : Agree k' (s'.runs k'.current) := by
  obtain ⟨procs, kids, queue, init, procs', kids', queue', inv, moves⟩ := reached.moves enabled stepped
  have inv' := moves.invariant
  have frame := moves.frame
  have idleproc := agree.idleproc.trans frame.idleproc.symm
  have initproc := agree.initproc.trans frame.initproc.symm
  have count : s.nrProcess = s.procs.length := by
    rw [agree.nrProcess, count_allocated inv, agree.procs]
  have active : ¬ s.exited k.current = true := by
    have live : k.current ∈ k.allocated := inv.stable.live.mem_iff.mpr inv.stable.current
    rw [agree.exited _ live, inv.runnable]
    exact ProcState.runnable_alive
  cases follows with
  | fork asks answered done =>
    obtain ⟨ret, forks, -, -, state⟩ := fork_step agree enabled stepped asks answered done
    cases forks with
    | refused error allocated same =>
      obtain ⟨vm, rfl⟩ := same
      refine agrees inv' (agree.procs.trans allocated.symm) (fun proc live => ?_) count idleproc initproc
      rw [allocated] at live
      rw [state proc live]
      exact agree.exited proc live
    | born child value pid allocated runnable born =>
      obtain ⟨vm, -, rfl⟩ := born
      refine agrees inv' ?_ (fun proc live => ?_) ?_ idleproc initproc
      · rw [allocated, ← agree.procs]
      · dsimp only
        by_cases fresh : proc = child
        · rw [fresh, Function.update_self, runnable]
          exact iff_of_false Bool.false_ne_true ProcState.runnable_alive
        · rw [allocated] at live
          have old := (List.mem_cons.mp live).resolve_left fresh
          rw [Function.update_of_ne fresh, state proc old]
          exact agree.exited proc old
      · dsimp only
        rw [count, List.length_cons]
        norm_cast
  | exec asks orderly kept done failed =>
    rw [agree.current] at failed
    rcases Spaces.doExecve_cases done with ⟨vm, rfl⟩ | ⟨vm, rfl⟩
    · exact agrees inv' (agree.procs.trans kept.symm) (kept ▸ exited_kept agree frame failed.symm fun _ _ => rfl) count idleproc initproc
    · rw [agree.current] at failed ⊢
      exact agrees inv' (agree.procs.trans kept.symm) (kept ▸ exited_kept agree frame failed.symm fun proc away => Function.update_of_ne away _ _)
        count idleproc initproc
  | exit asks kept gone done =>
    obtain ⟨vm, rfl⟩ := Spaces.doExit_cases done
    rw [agree.current]
    refine agrees inv' (agree.procs.trans kept.symm) (kept ▸ exited_kept agree frame ?_ fun proc away => Function.update_of_ne away _ _)
      count idleproc initproc
    exact iff_of_true (Function.update_self _ _ _) gone
  | @reap s' child pid codeStore asks call live erased thread done found =>
    rcases Spaces.doWait_cases done with ⟨vm, rfl⟩ | ⟨vm, rfl⟩
    · exact absurd rfl found
    obtain ⟨-, alive⟩ := reaped (nodup_allocated inv) moves.life live erased
    have member : child ∈ s.procs := agree.procs.symm ▸ live
    refine agrees inv' ?_ (fun proc left => ?_) ?_ idleproc initproc
    · rw [erased, ← agree.procs]
    · rw [erased] at left
      exact exited_kept agree frame (iff_of_false active alive) (fun _ _ => rfl) proc (List.mem_of_mem_erase left)
    · have some := List.length_pos_of_mem member
      dsimp only
      rw [count, List.length_erase_of_mem member]
      omega
  | quiet asks kept alive =>
    exact agrees inv' (agree.procs.trans kept.symm) (kept ▸ exited_kept agree frame (iff_of_false active alive) fun _ _ => rfl) count idleproc initproc

private theorem Agree.active (agree : Agree k s) (reached : Kernel.Reachable schedClass k) :
    s.vm.current ∈ s.procs ∧ s.exited s.vm.current = false := by
  obtain ⟨procs, kids, queue, init, inv⟩ := reached.invariant
  have live : k.current ∈ k.allocated := inv.stable.live.mem_iff.mpr inv.stable.current
  rw [agree.current, agree.procs]
  refine ⟨live, Bool.eq_false_iff.mpr fun ended => ?_⟩
  exact ProcState.runnable_alive (inv.runnable.symm.trans ((agree.exited _ live).mp ended))

private theorem booted_agree {memory : Kernel} {answers : ForkAnswers} {vm : Vm} {mem : Mem} {bootstack : Frame} {tf : TrapFrame} {idle : Ptr}
    (given : vm.mem.kmalloc = (some idle, mem)) (answered : (Spaces.primed bootstack idle mem vm).Answers cloneVm answers)
    (granted : answers.proc ≠ some idle ∧ (answers.copyMm = 0 ∨ answers.copyMm = -eNoMem))
    (booted : Kernel.boot schedClass memory idle answers = .ok k) (inited : Spaces.procInit bootstack tf vm = .ok s) : Agree k s := by
  obtain ⟨init, allocated, -, idleproc, initproc, current, -, -, -, -, idleReady, initReady⟩ := Kernel.booted_spec granted booted
  obtain ⟨_, _, _, _, inv⟩ := (Kernel.Reachable.boot granted booted).invariant
  have primed : Agree (Kernel.primed schedClass memory idle) (Spaces.primed bootstack idle mem vm) := by
    refine ⟨rfl, fun proc live => ?_, rfl, rfl, rfl, rfl⟩
    rw [List.mem_singleton.mp live]
    have ready : (Kernel.primed schedClass memory idle).state idle = .runnable := Function.update_self _ _ _
    rw [ready]
    exact iff_of_false Bool.false_ne_true ProcState.runnable_alive
  have fresh : ∀ proc ∈ answers.proc, proc ∉ (Kernel.primed schedClass memory idle).allocated := by
    intro proc answer inside
    rw [List.mem_singleton.mp inside] at answer
    exact granted.1 answer
  unfold Spaces.procInit at inited
  rw [given] at inited
  obtain ⟨⟨child, s₁⟩, done, inited⟩ := bind_ok inited
  rw [Kernel.boot_eq] at booted
  obtain ⟨⟨ret, k₁⟩, forked, booted⟩ := bind_ok booted
  obtain ⟨forks, -⟩ := fork_agrees primed fresh answered forked done
  dsimp only at inited booted
  cases forks with
  | refused error =>
    rw [error] at inited
    cases inited
  | born child value pid children runnable born =>
    rw [value] at inited
    obtain rfl := Except.ok.inj inited
    obtain ⟨vm', here, rfl⟩ := born
    split at booted
    · cases booted
    obtain ⟨found, -, booted⟩ := bind_ok booted
    obtain ⟨⟨⟩, -, booted⟩ := bind_ok booted
    obtain ⟨first, -, booted⟩ := bind_ok booted
    obtain ⟨⟨⟩, -, booted⟩ := bind_ok booted
    obtain rfl := Except.ok.inj booted
    obtain ⟨rfl, -⟩ := List.cons.inj (allocated.symm.trans children)
    refine ⟨allocated.symm, fun proc live => ?_, ?_, idleproc.symm, initproc.symm, here.trans current.symm⟩
    · have ready : k₁.state proc = .runnable := by
        rw [allocated] at live
        rcases List.mem_cons.mp live with rfl | live
        · exact initReady
        · rw [List.mem_singleton.mp live]
          exact idleReady
      have alive : Function.update (fun _ => false) init false proc = false := by
        rw [Function.update_apply]
        split <;> rfl
      dsimp only
      rw [ready]
      exact iff_of_false (Bool.eq_false_iff.mp alive) ProcState.runnable_alive
    · rw [count_allocated inv, allocated]
      rfl

private theorem Follows.reaches (follows : Follows k k' s event s') (agree : Agree k s) (reached : Kernel.Reachable schedClass k)
    (enabled : k.Enabled event) (stepped : k.step event = .ok k') (spaces : s.Reachable) : s'.Reachable := by
  have active := (agree.active reached).2
  cases follows with
  | @fork s' answers flags stack tf res asks answered done =>
    have allowed : s.Enabled (.fork flags stack tf) := ⟨active, trivial⟩
    exact spaces.step allowed (by rw [Spaces.act, done]; rfl)
  | @exec s' order name len size image outcome asks orderly kept done failed =>
    have allowed : s.Enabled (.exec order name len image size) := ⟨active, orderly⟩
    exact spaces.step allowed done
  | exit asks kept gone done =>
    have allowed : s.Enabled .exit := ⟨active, trivial⟩
    exact spaces.step allowed done
  | @reap s' child pid codeStore asks call live erased thread done found =>
    obtain ⟨procs, kids, queue, init, procs', kids', queue', inv, moves⟩ := reached.moves enabled stepped
    obtain ⟨exited, -⟩ := reaped (nodup_allocated inv) moves.life live erased
    have allowed : s.Enabled (.wait child codeStore (BitVec.ofInt 32 (k.exitCode child))) :=
      ⟨⟨active, agree.procs.symm ▸ live, (agree.exited child live).mpr exited, thread⟩, trivial⟩
    exact spaces.step allowed done
  | quiet => exact spaces

/-- In a run of both machines each of them is in a state of a run of its own, and they agree. -/
theorem Together.agree (together : Together schedClass k s) : Kernel.Reachable schedClass k ∧ s.Reachable ∧ Agree k s := by
  induction together with
  | boot started given answered granted booted inited =>
    exact ⟨.boot granted booted, .boot started inited, booted_agree given answered granted booted inited⟩
  | @step k k' s s' event together enabled stepped follows ih =>
    obtain ⟨reached, spaces, agree⟩ := ih
    have agree' := agree.step reached enabled stepped follows
    have reached' := reached.step enabled stepped
    have spaces' := follows.reaches agree reached enabled stepped spaces
    obtain ⟨member, active⟩ := agree'.active reached'
    rw [runs_current] at member active
    have allowed : s'.Enabled (.run k'.current) := ⟨⟨member, active⟩, trivial⟩
    exact ⟨reached', spaces'.step allowed rfl, agree'⟩
  | @store k s s' addr value together done ih =>
    obtain ⟨reached, spaces, agree⟩ := ih
    obtain ⟨vm, stored, result⟩ := bind_ok done
    have allowed : s.Enabled (.store addr value) := ⟨(agree.active reached).2, trivial⟩
    have spaces' := spaces.step allowed done
    obtain rfl := Except.ok.inj result
    have current : vm.current = s.vm.current := by
      unfold Vm.store at stored
      split at stored
      · split at stored
        · split at stored
          · rw [← Except.ok.inj stored]
          · cases stored
        · cases stored
      · cases stored
    exact ⟨reached, spaces', agree.procs, agree.exited, agree.nrProcess, agree.idleproc, agree.initproc, current.trans agree.current⟩

end Runs

end Ucore
