import Mathlib
import Ucore.Kernel
import Ucore.AddressSpace
import Ucore.Kmalloc

/-! The processes as owners of memory: what `do_fork`, `do_execve`, `do_exit`, `do_wait` and
`proc_run` of `proc.c` do to the address spaces, the kernel stacks and the `proc_struct`s, with
all their cleanup labels, and what a process stores in user mode. The process table, the
scheduler and the pids are those of `Kernel`. -/

namespace Ucore

/-- The number of `a0` among the registers. -/
def gprA0 : Nat := 10

/-- `sizeof(struct trapframe)` -/
def trapFrameSize : Nat := 36 * 8

/-- `exited` are the processes in the state `PROC_ZOMBIE`. -/
structure Spaces where
  vm : Vm
  procs : List Ptr
  exited : Ptr → Bool
  nrProcess : Int
  idleproc : Ptr
  initproc : Option Ptr

namespace Vm

/-- `copy_thread`; the `context` that `switch_to` loads is left out. -/
def copyThread (proc : Ptr) (esp : BitVec 64) (tf : TrapFrame) (vm : Vm) : Vm :=
  let address := wrap (vm.kstack proc * pgSize + physicalMemoryOffset + kstackPage * pgSize - trapFrameSize)
  let sp := if esp = 0 then BitVec.ofNat 64 address else esp
  { vm with tf := Function.update vm.tf proc { tf with gpr := Function.update (Function.update tf.gpr gprA0 0) gprSp sp } }

/-- The kernel stores a byte. -/
def poke (addr : Nat) (value : BitVec 8) (vm : Vm) : Kern Vm :=
  if kernWindow ≤ addr then .ok { vm with kernByte := Function.update vm.kernByte addr value }
  else
    match vm.mem.walk vm.satp addr with
    | some pte => if pte &&& pteW ≠ 0 then .ok { vm with mem := vm.mem.setByte (pteFrame pte) (addr % pgSize) value } else .error .fault
    | none => .error .fault

/-- The kernel stores the `n` low bytes of a number from `addr` on. -/
def pokeNumber : Nat → Nat → Nat → Vm → Kern Vm
  | 0, _, _, vm => .ok vm
  | n + 1, addr, value, vm => do
    let vm ← vm.poke addr (BitVec.ofNat 8 value)
    pokeNumber n (wrap (addr + 1)) (value / 256) vm

/-- A store of a byte in user mode. Only pages below `USERTOP` can be mapped for it. -/
def store (addr : Nat) (value : BitVec 8) (vm : Vm) : Kern Vm :=
  if addr < userTop then
    match vm.mem.walk vm.satp addr with
    | some pte =>
      if pte &&& pteU ≠ 0 ∧ pte &&& pteW ≠ 0 then .ok { vm with mem := vm.mem.setByte (pteFrame pte) (addr % pgSize) value }
      else .error (.unmapped addr)
    | none => .error (.unmapped addr)
  else .error (.unmapped addr)

end Vm

namespace Spaces

/-- `kfree` of a `proc_struct`. -/
def kfreeProc (proc : Ptr) (vm : Vm) : Kern Vm := do
  let mem ← vm.mem.kfree proc
  .ok { vm with mem := mem }

/-- `do_fork` returns an error, or the child, whose pid is in the process table. -/
def doFork (cloneFlags : BitVec 32) (stack : BitVec 64) (tf : TrapFrame) (s : Spaces) : Kern (Except Int Ptr × Spaces) :=
  if s.nrProcess ≥ maxProcess then .ok (.error (-eNoFreeProc), s)
  else
    match s.vm.mem.kmalloc with
    | (none, mem) => .ok (.error (-eNoMem), { s with vm := { s.vm with mem := mem } })
    | (some proc, mem) =>
      let (ret, vm) := (({ s.vm with mem := mem } : Vm).allocProc proc).setupKstack proc
      if ret ≠ 0 then do
        let vm ← kfreeProc proc vm
        .ok (.error ret, { s with vm := vm })
      else do
        let (ret, vm) ← vm.copyMm cloneFlags proc
        if ret ≠ 0 then do
          let vm ← vm.putKstack proc
          let vm ← kfreeProc proc vm
          .ok (.error ret, { s with vm := vm })
        else
          .ok (.ok proc, { s with
            vm := vm.copyThread proc stack tf
            procs := proc :: s.procs
            exited := Function.update s.exited proc false
            nrProcess := s.nrProcess + 1 })

/-- `do_exit` up to its call of `schedule`. -/
def doExit (s : Spaces) : Kern Spaces :=
  if s.vm.current = s.idleproc then .error (.panic "idleproc exit.\n")
  else if some s.vm.current = s.initproc then .error (.panic "initproc exit.\n")
  else do
    let vm ← s.vm.dropMm
    .ok { s with vm := vm, exited := Function.update s.exited s.vm.current true }

/-- `do_execve`, with the exit after a failure. -/
def doExecve (order : HeaderOrder) (name len : Nat) (image : Image) (size : Nat) (s : Spaces) : Kern Spaces := do
  let (answer, vm) ← s.vm.userMemCheck name len false
  if !answer then .ok { s with vm := vm }
  else do
    let (localName, vm) ← vm.leaveMm name len
    let (ret, vm) ← vm.loadIcode order image size
    if ret ≠ 0 then doExit { s with vm := vm }
    else .ok { s with vm := vm.setProcName vm.current localName }

/-- `do_wait` that finds `child`; `code` is its `exit_code`. -/
def doWait (child : Ptr) (codeStore : Nat) (code : BitVec 32) (s : Spaces) : Kern Spaces := do
  let (answer, vm) ← (if codeStore ≠ 0 then s.vm.userMemCheck codeStore 4 true else .ok (true, s.vm) : Kern (Bool × Vm))
  if !answer then .ok { s with vm := vm }
  else if child = s.idleproc ∨ some child = s.initproc then .error (.panic "wait idleproc or initproc.\n")
  else do
    let vm ← (if codeStore ≠ 0 then vm.pokeNumber 4 codeStore code.toNat else .ok vm : Kern Vm)
    let vm ← vm.putKstack child
    let vm ← kfreeProc child vm
    .ok { s with vm := vm, procs := s.procs.erase child, nrProcess := s.nrProcess - 1 }

/-- `proc_init` from the `alloc_proc` of `idleproc` on; `tf` is the trap frame of `init_main`. The names of the processes are left out. -/
def procInit (bootstack : Frame) (tf : TrapFrame) (vm : Vm) : Kern Spaces :=
  match vm.mem.kmalloc with
  | (none, _) => .error (.panic "cannot alloc idleproc.\n")
  | (some idle, mem) => do
    let vm := ({ vm with mem := mem } : Vm).allocProc idle
    let vm := { vm with kstack := Function.update vm.kstack idle bootstack, current := idle }
    let (child, s) ← doFork cloneVm 0 tf ⟨vm, [idle], fun _ => false, 1, idle, none⟩
    match child with
    | .error _ => .error (.panic "create init_main failed.\n")
    | .ok init => .ok { s with initproc := some init }

/-- What the current process does next, or who runs next. -/
inductive Action where
  | fork (cloneFlags : BitVec 32) (stack : BitVec 64) (tf : TrapFrame)
  | exec (order : HeaderOrder) (name len : Nat) (image : Image) (size : Nat)
  | exit
  | wait (child : Ptr) (codeStore : Nat) (code : BitVec 32)
  | run (next : Ptr)
  | store (addr : Nat) (value : BitVec 8)

def act : Action → Spaces → Kern Spaces
  | .fork cloneFlags stack tf, s => do
    let (_, s) ← s.doFork cloneFlags stack tf
    .ok s
  | .exec order name len image size, s => s.doExecve order name len image size
  | .exit, s => s.doExit
  | .wait child codeStore code, s => s.doWait child codeStore code
  | .run next, s => .ok { s with vm := s.vm.procRun next }
  | .store addr value, s => do
    let vm ← s.vm.store addr value
    .ok { s with vm := vm }

end Spaces

/-- The segments of the program headers that `load_icode` reads, `e_phnum` from `e_phoff` on, end
below 2^64. What is in user memory is not read, since `satp` holds `boot_pgdir`. -/
structure Image.Orderly (image : Image) : Prop where
  word : image.binary < 2 ^ 64
  ends : ∀ (satp : Frame) (m : Mem), (∀ i < 511, m.word satp i = 0) → ∀ phoff phnum, image.ePhoff satp m = .ok phoff → image.ePhnum satp m = .ok phnum →
    ∀ index < phnum, ∀ header, image.proghdr satp m (wrap (phoff + index * proghdrSize)) = .ok (some header) → header.pVa + header.pMemsz < 2 ^ 64

def Spaces.Action.Orderly : Spaces.Action → Prop
  | .exec _ _ _ image _ => image.Orderly
  | .fork _ _ _ | .exit | .wait _ _ _ | .run _ | .store _ _ => True

/-- What `pmm_init` leaves: `boot_pgdir` is in `satp` and maps nothing but the huge page of the kernel. -/
structure Vm.Started (vm : Vm) : Prop where
  inUse : vm.bootPgdir ∈ vm.mem.used
  zero : ∀ i < 511, vm.mem.word vm.bootPgdir i = 0
  free : ∀ f, f ∉ vm.mem.used → vm.mem.ref f = 0
  satp : vm.satp = vm.bootPgdir

namespace Spaces

/-- A process that has exited only waits for its parent, and a kernel thread waits with `NULL`. -/
def Allowed (s : Spaces) : Action → Prop
  | .fork _ _ _ | .exec _ _ _ _ _ | .exit | .store _ _ => s.exited s.vm.current = false
  | .wait child codeStore _ => s.exited s.vm.current = false ∧ child ∈ s.procs ∧ s.exited child = true ∧ (s.vm.mm s.vm.current = none → codeStore = 0)
  | .run next => next ∈ s.procs ∧ s.exited next = false

def Enabled (s : Spaces) (action : Action) : Prop := s.Allowed action ∧ action.Orderly

/-- The states between the actions of the processes. -/
inductive Reachable : Spaces → Prop where
  | boot {vm : Vm} {bootstack : Frame} {tf : TrapFrame} {s : Spaces} (started : vm.Started) (booted : procInit bootstack tf vm = .ok s) : Reachable s
  | step {s s' : Spaces} {action : Action} (reached : Reachable s) (enabled : s.Enabled action) (done : act action s = .ok s') : Reachable s'

end Spaces

end Ucore
