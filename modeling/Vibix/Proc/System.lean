import Vibix.Proc.Table
import Vibix.Vfs.OpenFile

/-! # The process side of the kernel

The state that the process, file and signal code of the kernel works on (`System`): the process
table, the open file table, the terminal and the few globals shared with the assembly stubs.  Memory
is not part of it.  What a system call gets from memory, from the file system or from the heap is an
argument of its model: the outcome of a path lookup, the blocks of a pipe, the kernel stack and the
page tables of a new process, the image that `exec` built.  What it leaves to be done in memory is
part of its result.

Results of system calls are integers; `-errno` is negative.  A call that ends in a panic or a halt
loop has no result (`Halt`). -/

namespace Vibix.Proc

open Vfs RefCount

/-- Why the kernel stops. -/
inductive Halt where
  /-- The panic of `process(pid)`: there is no such process. -/
  | notFound
  /-- The panic of an access out of bounds. -/
  | bounds
  /-- The busy wait of `sys_nanosleep`, with interrupts off. -/
  | waiting
  /-- The halt loop of the scheduler: the process selected is not ready. -/
  | notReady
  /-- The halt loop of `get_or_create_table`. -/
  | outOfMemory
  /-- A fault in kernel mode. -/
  | fault
  /-- Not a state of the kernel: the loop of the scheduler exceeds the bound of its model. -/
  | looping
deriving DecidableEq, Repr

/-- `Tty`. -/
structure Tty where
  buf : ℕ → BitVec 8
  head : ℕ
  tail : ℕ
  /-- The line being edited. -/
  line : List (BitVec 8)
  canonical : Bool
  waitingPid : ℕ

/-- `Tty::new`. -/
def Tty.new : Tty := ⟨fun _ => 0#8, 0, 0, [], true, 0⟩

/-- `syscall_state`. -/
structure SyscallSavedState where
  rsp : BitVec 64
  rflags : BitVec 64
  rip : BitVec 64
deriving DecidableEq

/-- What can become of a signal. -/
inductive SignalEvent where
  /-- The handler was entered; `saved` is the mask in the signal frame. -/
  | entered (pid : ℕ) (sig : Fin 32) (saved : BitVec 64)
  | ignored (pid : ℕ) (sig : Fin 32)
  | terminated (pid : ℕ)
  /-- The process called `exec`. -/
  | replaced (pid : ℕ)
deriving DecidableEq

/-- The kernel without memory.  `signalLog` is not state of the kernel: it records what has become of
the signals. -/
structure System where
  table : ProcessTable
  currentPid : ℕ
  oft : OpenFileTable
  tty : Tty
  shouldSchedule : Bool
  syscallState : SyscallSavedState
  /-- `current_proc_kernel_rsp`, and the stack pointer of the task state segment: the two are always
  set together. -/
  kernelStack : ℕ
  signalLog : List SignalEvent

/-- The current process and its slot. -/
def System.current (s : System) : Option (Fin 64 × Process) := s.table.find s.currentPid

/-- Replace the process in slot `i`. -/
def System.put (s : System) (i : Fin 64) (q : Process) : System :=
  { s with table := s.table.put i (some q) }

/-- Record what became of signals. -/
def System.log (s : System) (events : List SignalEvent) : System :=
  { s with signalLog := s.signalLog ++ events }

/-- `ENOENT`. -/
def enoent : ℤ := 2
/-- `EBADF`. -/
def ebadf : ℤ := 9
/-- `ENOMEM`. -/
def enomem : ℤ := 12
/-- `EINVAL`. -/
def einval : ℤ := 22
/-- `ENFILE`. -/
def enfile : ℤ := 23
/-- `EMFILE`. -/
def emfile : ℤ := 24

/-! ### Descriptors -/

/-- The first free descriptor. -/
def firstFree (fds : Fin 16 → Option ℕ) : Option (Fin 16) :=
  (List.finRange 16).find? fun fd => (fds fd).isNone

/-- Set a descriptor. -/
def Process.setFd (q : Process) (fd : Fin 16) (o : Option ℕ) : Process :=
  { q with fds := Function.update q.fds fd o }

/-- `sys_open`, given the vnode that the path resolves to (or the error of copying or resolving it),
and the result of the vnode's open operation (0 if it has none). -/
def sysOpen (resolved : Except ℤ Vnode) (openRc : ℤ) (flags mode : ℕ) (s : System) :
    Except Halt (System × ℤ) :=
  match resolved with
  | .error e => .ok (s, -e)
  | .ok vnode =>
    if openRc ≠ 0 then .ok (s, openRc)
    else
      match s.oft.oftAlloc vnode flags mode with
      | none => .ok (s, -enfile)
      | some (oft, idx) =>
        match s.current with
        | none => .error .notFound
        | some (i, q) =>
          match firstFree q.fds with
          | some fd => .ok ({ s with oft := oft }.put i (q.setFd fd (some idx)), fd.val)
          | none => .ok ({ s with oft := oft.oftDecref idx }, -emfile)

/-- `sys_close`. -/
def sysClose (fd : ℕ) (s : System) : Except Halt (System × ℤ) :=
  if h : fd < 16 then
    match s.current with
    | none => .error .notFound
    | some (i, q) =>
      match q.fds ⟨fd, h⟩ with
      | none => .ok (s, -ebadf)
      | some idx => .ok ({ s with oft := s.oft.oftDecref idx }.put i (q.setFd ⟨fd, h⟩ none), 0)
  else .ok (s, -ebadf)

/-- `sys_dup`. -/
def sysDup (oldFd : ℕ) (s : System) : Except Halt (System × ℤ) :=
  if h : oldFd < 16 then
    match s.current with
    | none => .error .notFound
    | some (i, q) =>
      match q.fds ⟨oldFd, h⟩ with
      | none => .ok (s, -ebadf)
      | some idx =>
        match firstFree q.fds with
        | some fd =>
          .ok ({ s with oft := s.oft.oftIncref idx }.put i (q.setFd fd (some idx)), fd.val)
        | none => .ok (s, -emfile)
  else .ok (s, -ebadf)

/-- `sys_dup2`. -/
def sysDup2 (oldFd newFd : ℕ) (s : System) : Except Halt (System × ℤ) :=
  if h : oldFd < 16 ∧ newFd < 16 then
    match s.current with
    | none => .error .notFound
    | some (i, q) =>
      match q.fds ⟨oldFd, h.1⟩ with
      | none => .ok (s, -ebadf)
      | some idx =>
        if (s.oft.get idx).isNone then .ok (s, -ebadf)
        else if oldFd = newFd then .ok (s, newFd)
        else
          -- an open `newFd` is closed first
          let oft := match q.fds ⟨newFd, h.2⟩ with
            | some old => s.oft.oftDecref old
            | none => s.oft
          .ok ({ s with oft := oft.oftIncref idx }.put i (q.setFd ⟨newFd, h.2⟩ (some idx)), newFd)
  else .ok (s, -ebadf)

/-- `sys_pipe`, given the vnodes of the two ends, or none if one of the three blocks could not be
allocated. -/
def sysPipe (blocks : Option (Vnode × Vnode)) (pipefd : ℕ) (s : System) :
    Except Halt (System × ℤ) :=
  if pipefd = 0 then .ok (s, -einval)
  else
    match blocks with
    | none => .ok (s, -enomem)
    | some (rvn, wvn) =>
      match s.oft.oftAlloc rvn 0 0o600 with
      | none => .ok (s, -enfile)
      | some (oft, readIdx) =>
        match oft.oftAlloc wvn 1 0o600 with
        | none => .ok ({ s with oft := oft.oftDecref readIdx }, -enfile)
        | some (oft, writeIdx) =>
          match s.current with
          | none => .error .notFound
          | some (i, q) =>
            let giveUp : System := { s with oft := (oft.oftDecref readIdx).oftDecref writeIdx }
            match firstFree q.fds with
            | none => .ok (giveUp, -emfile)
            | some readFd =>
              let q' := q.setFd readFd (some readIdx)
              match firstFree q'.fds with
              | none => .ok (giveUp.put i (q'.setFd readFd none), -emfile)
              | some writeFd =>
                .ok ({ s with oft := oft }.put i (q'.setFd writeFd (some writeIdx)), 0)

/-- `cleanup_fds`: the references of a process are given up. -/
def cleanupFds (fds : Fin 16 → Option ℕ) (oft : OpenFileTable) : OpenFileTable :=
  (entries fds).foldl OpenFileTable.oftDecref oft

/-! ### Processes -/

/-- The process that `sys_fork` adds: kernel stack at `base`, page tables at `root`. -/
def forkChild (s : System) (parent : Process) (base root : ℕ) : Process where
  pid := s.table.nextPid
  pml4Phys := root
  state := .ready
  entry := parent.entry
  userRsp := s.syscallState.rsp.toNat
  kernelStackTop := base + kernelStackSize
  kernelRsp := base + kernelStackSize - 176
  kernelStackBase := base
  parentPid := s.currentPid
  exitCode := 0
  waitForPid := 0
  brk := parent.brk
  errno := 0
  sigPending := 0#64
  sigactions := parent.sigactions
  inSignal := false
  sigframeRsp := 0
  stackLow := parent.stackLow
  fds := parent.fds

/-- `sys_fork` from the point where the kernel stack and the page tables of the child exist: the
child's PID, or none if there is no free slot. -/
def addChild (base root : ℕ) (s : System) : Except Halt (System × Option ℕ) :=
  match s.current with
  | none => .error .notFound
  | some (_, parent) =>
    let child := forkChild s parent base root
    let table := { s.table with nextPid := (s.table.nextPid + 1) % 2 ^ 64 }
    match (List.finRange 64).find? fun i => (s.table.slots i).isNone with
    | none => .ok ({ s with table := table }, none)
    | some i =>
      .ok ({ s with
        table := { table.put i (some child) with count := table.count + 1 }
        oft := (entries child.fds).foldl OpenFileTable.oftIncref s.oft }, some child.pid)

/-- What the memory side of `sys_fork` comes to. -/
inductive ForkMemory where
  | noStack
  | noRoot
  | built (base root : ℕ)

/-- `sys_fork`. -/
def sysFork (memory : ForkMemory) (s : System) : Except Halt (System × ℤ) :=
  match memory with
  | .noStack => .ok (s, -1)
  | .noRoot => .ok (s, -enomem)
  | .built base root =>
    match addChild base root s with
    | .error e => .error e
    | .ok (s, some pid) => .ok (s, pid)
    | .ok (s, none) => .ok (s, -1)

/-- What `exec` publishes: the fields of `ExecImage` and `FlatImage`, with the entry point. -/
structure UserImage where
  root : ℕ
  entry : ℕ
  userRsp : ℕ
  stackLow : ℕ

/-- The process after `exec`. -/
def Process.exec (q : Process) (image : UserImage) : Process :=
  { q with
    pml4Phys := image.root
    entry := image.entry
    userRsp := image.userRsp
    brk := brkStart
    errno := 0
    sigPending := 0#64
    inSignal := false
    sigframeRsp := 0
    stackLow := image.stackLow
    sigactions := fun _ => SigAction.default
    fds := fun fd => if fd.val < 3 then q.fds fd else none }

/-- `sys_exec`, given the image, or the negative result of the step that failed. -/
def sysExec (built : Except ℤ UserImage) (s : System) : Except Halt (System × ℤ) :=
  match s.current with
  | none => .error .notFound
  | some (i, q) =>
    match built with
    | .error rc => .ok (s, rc)
    | .ok image =>
      .ok ({ s with
        syscallState := ⟨BitVec.ofNat 64 image.userRsp, 0x202#64, BitVec.ofNat 64 image.entry⟩
        oft := cleanupFds (fun fd => if fd.val < 3 then none else q.fds fd) s.oft
        signalLog := s.signalLog ++ [SignalEvent.replaced q.pid] }.put i (q.exec image), 0)

/-- `sys_exit`; the result also has the word that `mark_zombie` clears. -/
def sysExit (code : ℕ) (s : System) : Except Halt (System × Option ℕ) :=
  match s.table.markZombie s.currentPid code with
  | none => .error .notFound
  | some (table, cleared) =>
    .ok ({ s with table := table, shouldSchedule := true }.log [.terminated s.currentPid], cleared)

/-- The first child of the current process that `sys_waitpid` may wait for. -/
def waitChild (requested : ℕ) (s : System) : Option Process :=
  (List.finRange 64).findSome? fun i => (s.table.slots i).bind fun child =>
    if child.parentPid = s.currentPid ∧ (requested = 2 ^ 64 - 1 ∨ child.pid = requested) then
      some child
    else none

/-- `sys_waitpid`; the result also has the process that was reaped. -/
def sysWaitpid (requested flags : ℕ) (s : System) : Except Halt (System × ℤ × Option Process) :=
  match waitChild requested s with
  | none => .ok (s, -1, none)
  | some child =>
    if child.state = .zombie then
      match s.table.find child.pid with
      | none => .error .notFound
      | some (i, reaped) =>
        .ok ({ s with
          table := { s.table.put i none with count := s.table.count - 1 }
          oft := cleanupFds reaped.fds s.oft }, child.pid, some reaped)
    else if flags.testBit 0 then .ok (s, 0, none)
    else
      match s.current with
      | none => .error .notFound
      | some (i, q) =>
        .ok ({ s with shouldSchedule := true }.put i
          { q with waitForPid := child.pid, state := .blocked }, 0, none)

/-! ### Boot -/

/-- What `spawn_init` gets from memory: the image of init, the kernel stacks of both processes, and
the entry point and the root of the idle process. -/
structure BootImage where
  init : UserImage
  initStack : ℕ
  idleStack : ℕ
  idleEntry : ℕ
  idleRoot : ℕ

/-- A process as `spawn_init` makes it. -/
def bootProcess (pid root entry userRsp base brk stackLow : ℕ) (fds : Fin 16 → Option ℕ) :
    Process where
  pid := pid
  pml4Phys := root
  state := .ready
  entry := entry
  userRsp := userRsp
  kernelStackTop := base + kernelStackSize
  kernelRsp := base + kernelStackSize - 176
  kernelStackBase := base
  parentPid := 0
  exitCode := 0
  waitForPid := 0
  brk := brk
  errno := 0
  sigPending := 0#64
  sigactions := fun _ => SigAction.default
  inSignal := false
  sigframeRsp := 0
  stackLow := stackLow
  fds := fds

/-- `spawn_init`: init in slot 0, with the terminal open as descriptors 0, 1 and 2, and the idle
process in slot 1. -/
def spawnInit (b : BootImage) (ttyVnode : Vnode) : System :=
  let noFds : Fin 16 → Option ℕ := fun _ => none
  let opened := match OpenFileTable.new.oftAlloc ttyVnode 2 0o666 with
    | none => (OpenFileTable.new, noFds)
    | some (oft, idx) =>
      (oft.put idx ((oft.get idx).map fun file : OpenFile => { file with refcount := 3 }),
        fun fd => if fd.val < 3 then some idx else none)
  let init := bootProcess 1 b.init.root b.init.entry b.init.userRsp b.initStack brkStart
    (b.init.userRsp - 0x1000) opened.2
  let idle := bootProcess 2 b.idleRoot b.idleEntry 0 b.idleStack 0 0 noFds
  { table := ((ProcessTable.mk (fun _ => none) 3 2).put 0 (some init)).put 1 (some idle)
    currentPid := 0
    oft := opened.1
    tty := Tty.new
    shouldSchedule := false
    syscallState := ⟨0#64, 0#64, 0#64⟩
    kernelStack := 0
    signalLog := [] }

/-- `start_scheduler`. -/
def startScheduler (s : System) : System :=
  match s.table.find 1 with
  | none => s
  | some (i, q) =>
    { s with currentPid := 1, kernelStack := q.kernelStackTop }.put i { q with state := .running }

end Vibix.Proc
