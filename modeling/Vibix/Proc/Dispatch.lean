import Vibix.Vfs.Cwd
import Vibix.Vfs.Pipe
import Vibix.Proc.Sched

/-! # The dispatch of system calls

`syscall_handler` and the handlers of `SYSCALL_TABLE` as user mode calls them, with the number and
the arguments in registers.  A handler gets the state of the kernel without memory, the working
directory of the caller, and what it needs from memory, from the file system and from devices
(`Env`).  Its `Reply` has, besides the new state and the result, what the handler stores through the
pointers in its arguments.

`Vibix.Proc.Call` has the same system calls without their registers; `handler_served` says that what
a handler does is what one of those calls does. -/

namespace Vibix.Proc

open Vfs

/-- The arguments in registers. -/
structure SyscallArgs where
  arg1 : BitVec 64
  arg2 : BitVec 64
  arg3 : BitVec 64
  arg4 : BitVec 64

/-- What is behind a vnode: the table of operations that it has, and their data. -/
inductive FileKind where
  | node (v : VnodeRef)
  | pipeReader (pb : PipeBuf)
  | pipeWriter (pb : PipeBuf)

/-- What a system call finds outside the process side of the kernel. -/
structure Env where
  /-- The memory as the caller's page tables map it. -/
  user : ℕ → BitVec 8
  fs : FsState
  /-- The vnodes, by address. -/
  kind : ℕ → FileKind
  vnode : VnodeRef → Vnode
  /-- The blocks that `sys_pipe` gets from the heap. -/
  blocks : Option (Vnode × Vnode)
  forkMemory : ForkMemory
  /-- The image that `exec` builds. -/
  image : Except ℤ UserImage
  /-- The values of `brk` and `errno` after `brk` and `mmap`, and their result. -/
  memory : ℕ × ℤ × ℤ
  /-- The mask in the signal frame of the caller. -/
  frameMask : BitVec 64
  /-- What the keyboard and the serial line have received. -/
  input : List (BitVec 8)

/-- Bytes that a handler stores at an address of the caller. -/
structure Store where
  addr : ℕ
  bytes : Bytes

/-- The kernel as a handler finds it. -/
structure Caller where
  sys : System
  cwd : PathBuf

/-- The kernel as a handler leaves it. -/
structure Reply where
  sys : System
  cwd : PathBuf
  rc : ℤ
  stores : List Store

/-- The reply that changes nothing. -/
def Caller.reply (c : Caller) (rc : ℤ) : Reply := ⟨c.sys, c.cwd, rc, []⟩

/-- The reply of a call that changes the state of processes. -/
def Caller.call (c : Caller) (call : Call) (stores : List Store) : Except Halt Reply :=
  (call.run c.sys).map fun r => ⟨r.1, c.cwd, r.2, stores⟩

/-- The bytes of a number, from the lowest on. -/
def leBytes (n value : ℕ) : Bytes := (List.range n).map fun i => BitVec.ofNat 8 (value / 256 ^ i)

/-- A word in the memory of the caller. -/
def Env.userWord (env : Env) (addr : ℕ) : BitVec 64 :=
  BitVec.ofNat 64 (((List.range 8).map fun i => (env.user (addr + i)).toNat * 256 ^ i).sum)

/-- `EFAULT`. -/
def efault : ℤ := 14
/-- `ENOTTY`. -/
def enotty : ℤ := 25
/-- `ESPIPE`. -/
def espipe : ℤ := 29

/-- An access that may be out of bounds. -/
def checked {α : Type*} : Option α → Except Halt α
  | none => .error .bounds
  | some a => .ok a

/-! ### Files -/

namespace FileKind

/-- The field `mode`. -/
def mode : FileKind → ℕ
  | node v => v.mode
  | pipeReader _ | pipeWriter _ => vChr ||| 0o600

/-- The field `ino`. -/
def ino : FileKind → ℕ
  | node v => v.ino
  | pipeReader _ | pipeWriter _ => 0

/-- The field `size`. -/
def size : FileKind → ℕ
  | node v => v.size
  | pipeReader _ | pipeWriter _ => 0

/-- Whether the operations are `TTY_OPS`. -/
def isTty : FileKind → Bool
  | node .devTty => true
  | _ => false

end FileKind

/-- What the read operation of a vnode does. -/
inductive Transfer where
  /-- There is no such operation. -/
  | missing
  | terminal
  /-- The offset of the file is set, and bytes are stored. -/
  | moved (offset : ℕ) (rc : ℤ) (bytes : Bytes)

/-- The read operations: `devfs_read`, `initramfs_read`, `pipe_read` and `tty_read`. -/
def readOp (env : Env) (file : OpenFile) (len : BitVec 64) : Transfer :=
  match env.kind file.vnode.addr with
  | .node .devTty => .terminal
  | .node .devNull => .moved file.offset 0 []
  | .node .devZero => .moved file.offset len.toInt (List.replicate len.toNat 0)
  | .node (.file data size _) =>
    let copyLen := min len.toNat (size - file.offset)
    .moved ((file.offset + copyLen) % 2 ^ 64) (BitVec.ofNat 64 copyLen).toInt
      ((List.range copyLen).map fun i => env.fs.mem (data + file.offset + i))
  | .pipeReader pb =>
    let r := pipeRead pb len
    .moved file.offset r.2.2.toInt r.2.1
  | .node _ | .pipeWriter _ => .missing

/-- The write operations, which move no offset: `devfs_write`, `pipe_write` and `tty_write`. -/
def writeOp (env : Env) (file : OpenFile) (buf : ℕ) (len : BitVec 64) : Option ℤ :=
  match env.kind file.vnode.addr with
  | .node .devTty | .node .devNull | .node .devZero => some len.toInt
  | .pipeWriter pb => some (pipeWrite pb (fun i => env.user (buf + i)) len).2.toInt
  | .node _ | .pipeReader _ => none

/-- The position that `sys_lseek` moves to, or a negative result: `devfs_lseek`, `pipe_lseek`, or the
computation in `sys_lseek` for files without such an operation. -/
def seekTarget (env : Env) (file : OpenFile) (offset whence : BitVec 64) : ℤ :=
  match env.kind file.vnode.addr with
  | .node .devNull | .node .devZero =>
    if whence.toNat % 2 ^ 32 = 0 ∨ whence.toNat % 2 ^ 32 = 1 then offset.toInt else -einval
  | .pipeReader _ | .pipeWriter _ => -espipe
  | .node v =>
    let newOff := match whence.toNat with
      | 0 => offset.toInt
      | 1 => (BitVec.ofNat 64 file.offset + offset).toInt
      | 2 => (BitVec.ofNat 64 v.size + offset).toInt
      | _ => -einval
    if newOff < 0 then -einval else newOff

/-- `Dirent`; `d_off` is zero and `d_reclen` the size of the structure. -/
structure Dirent where
  ino : ℕ
  mode : ℕ
  name : Bytes

/-- The size of a `Dirent`. -/
def direntSize : ℕ := 280

/-- A `Dirent` in memory; `d_type` is the low byte of the mode. -/
def Dirent.bytes (d : Dirent) : Bytes :=
  leBytes 8 d.ino ++ leBytes 8 0 ++ leBytes 2 direntSize ++ leBytes 1 d.mode ++ d.name ++
    List.replicate (261 - d.name.length) 0

/-- The entries that the `readdir` operation goes through: `rootfs_readdir` and `devfs_readdir`. -/
def FileKind.readdir : FileKind → Option (List Dirent)
  | node .devfsRoot => some
    [⟨1, vDir, dotName⟩, ⟨2, vDir, dotDotName⟩, ⟨3, vChr, nullName⟩, ⟨4, vChr, zeroName⟩,
      ⟨5, vChr, ttyName⟩]
  | node .rootDir => some
    [⟨0, vDir, dotName⟩, ⟨0, vDir, dotDotName⟩, ⟨1, vDir, sbinName⟩, ⟨2, vDir, binName⟩,
      ⟨3, vDir, etcName⟩, ⟨4, vDir, devName⟩]
  | node .sbinDir => some [⟨1, vDir, dotName⟩, ⟨0, vDir, dotDotName⟩]
  | node .binDir => some [⟨2, vDir, dotName⟩, ⟨0, vDir, dotDotName⟩]
  | node .etcDir => some [⟨3, vDir, dotName⟩, ⟨0, vDir, dotDotName⟩]
  | node .devDir => some [⟨4, vDir, dotName⟩, ⟨0, vDir, dotDotName⟩]
  | _ => none

/-- `stat_from_vnode`: the 144 bytes of a `Stat`. -/
def statFromVnode (kind : FileKind) : Bytes :=
  leBytes 8 0 ++ leBytes 8 kind.ino ++ leBytes 8 1 ++ leBytes 4 kind.mode ++ leBytes 12 0 ++
    leBytes 8 (if kind.mode &&& vChr ≠ 0 then 0x0101 else 0) ++ leBytes 8 kind.size ++
    leBytes 8 512 ++ leBytes 8 ((kind.size + 511) / 512) ++ leBytes 72 0

/-- The bytes that `TCGETS` stores. -/
def termios : Bytes :=
  List.replicate 8 0 ++ [0xfd, 0x0b, 0, 0] ++ [0xcb, 0x03, 0, 0] ++ List.replicate 44 0

/-! ### Handlers on descriptors -/

/-- A descriptor of the current process, `fds[fd as usize]`. -/
def fdEntry (fd : ℕ) (s : System) : Except Halt (Option ℕ) :=
  match s.current with
  | none => .error .notFound
  | some (_, q) => if h : fd < 16 then .ok (q.fds ⟨fd, h⟩) else .error .bounds

namespace Caller

variable (env : Env) (c : Caller)

/-- What the handlers on descriptors share: find the open file behind a descriptor.  `bad` is the
result if there is none; some handlers refuse their other arguments before they look at the table of
open files. -/
def onFile (fd : ℕ) (bad : ℤ) (refused : Option ℤ) (op : ℕ → OpenFile → Except Halt Reply) :
    Except Halt Reply :=
  if 16 ≤ fd then .ok (c.reply bad)
  else
    match fdEntry fd c.sys with
    | .error e => .error e
    | .ok none => .ok (c.reply bad)
    | .ok (some idx) =>
      match refused with
      | some rc => .ok (c.reply rc)
      | none =>
        match c.sys.oft.get idx with
        | none => .ok (c.reply bad)
        | some file => op idx file

/-- The bytes that `Tty::read` takes from the ring buffer. -/
def ttyBytes (len : ℕ) (s : System) : Bytes :=
  if s.tty.tail = s.tty.head then []
  else (List.range (min len s.tty.available)).map fun k => s.tty.buf ((s.tty.tail + k) % ttyBufSize)

/-- The read operation of an open file; `missing` is the result if it has none. -/
def readFile (missing : ℤ) (buf : ℕ) (len : BitVec 64) (idx : ℕ) (file : OpenFile) :
    Except Halt Reply :=
  match readOp env file len with
  | .missing => .ok (c.reply missing)
  | .terminal =>
    c.call (.ttyRead len.toNat env.input) [⟨buf, ttyBytes len.toNat (processInput env.input c.sys)⟩]
  | .moved offset rc bytes => c.call (.transfer idx offset rc) [⟨buf, bytes⟩]

/-- `sys_write`. -/
def sysWrite (args : SyscallArgs) : Except Halt Reply :=
  if 16 ≤ args.arg1.toNat ∨ args.arg2 = 0 ∨ args.arg3 = 0 then .ok (c.reply 0)
  else
    c.onFile args.arg1.toNat 0 none fun _ file =>
      match writeOp env file args.arg2.toNat args.arg3 with
      | none => .ok (c.reply 0)
      | some nwritten => .ok (c.reply (if nwritten < 0 then 0 else nwritten))

/-- `sys_read`. -/
def sysRead (args : SyscallArgs) : Except Halt Reply :=
  if 16 ≤ args.arg1.toNat ∨ args.arg2 = 0 ∨ args.arg3 = 0 then .ok (c.reply (-1))
  else
    (c.onFile args.arg1.toNat (-1) none (c.readFile env (-1) args.arg2.toNat args.arg3)).map fun r =>
      { r with rc := if r.rc < 0 then -1 else r.rc }

/-- The refusal of a null pointer or an empty buffer. -/
def emptyBuffer (args : SyscallArgs) : Option ℤ :=
  if args.arg2 = 0 ∨ args.arg3 = 0 then some (-einval) else none

/-- `sys_read_vfs`. -/
def sysReadVfs (args : SyscallArgs) : Except Halt Reply :=
  c.onFile args.arg1.toNat (-ebadf) (emptyBuffer args)
    (c.readFile env (-ebadf) args.arg2.toNat args.arg3)

/-- `sys_write_vfs`. -/
def sysWriteVfs (args : SyscallArgs) : Except Halt Reply :=
  c.onFile args.arg1.toNat (-ebadf) (emptyBuffer args) fun _ file =>
    .ok (c.reply ((writeOp env file args.arg2.toNat args.arg3).getD (-ebadf)))

/-- `sys_lseek`. -/
def sysLseek (args : SyscallArgs) : Except Halt Reply :=
  c.onFile args.arg1.toNat (-ebadf) none fun idx file =>
    let target := seekTarget env file args.arg2 args.arg3
    if 0 ≤ target then c.call (.transfer idx target.toNat target) [] else .ok (c.reply target)

/-- `sys_getdents`. -/
def sysGetdents (args : SyscallArgs) : Except Halt Reply :=
  c.onFile args.arg1.toNat (-ebadf) (emptyBuffer args) fun _ file =>
    match (env.kind file.vnode.addr).readdir with
    | none => .ok (c.reply (-enotty))
    | some entries =>
      let written := entries.take args.arg3.toNat
      .ok { c.reply written.length with
        stores := written.zipIdx.map fun d => ⟨args.arg2.toNat + direntSize * d.2, d.1.bytes⟩ }

/-- `sys_fstat`. -/
def sysFstat (args : SyscallArgs) : Except Halt Reply :=
  c.onFile args.arg1.toNat (-ebadf) (if args.arg2 = 0 then some (-efault) else none) fun _ file =>
    .ok { c.reply 0 with
      stores := [⟨args.arg2.toNat, statFromVnode (env.kind file.vnode.addr)⟩] }

/-- `sys_isatty`. -/
def sysIsatty (args : SyscallArgs) : Except Halt Reply :=
  c.onFile args.arg1.toNat (-ebadf) none fun _ file =>
    .ok (c.reply (if (env.kind file.vnode.addr).isTty then 1 else 0))

/-- What `sys_tcgetattr` and `sys_tcsetattr` share. -/
def onTty (args : SyscallArgs) (stores : List Store) : Except Halt Reply :=
  if 16 ≤ args.arg1.toNat ∨ args.arg2 = 0 then .ok (c.reply (-ebadf))
  else
    c.onFile args.arg1.toNat (-ebadf) none fun _ file =>
      if (env.kind file.vnode.addr).isTty then .ok { c.reply 0 with stores := stores }
      else .ok (c.reply (-enotty))

/-- `sys_tcgetattr`. -/
def sysTcgetattr (args : SyscallArgs) : Except Halt Reply :=
  c.onTty env args [⟨args.arg2.toNat, termios⟩]

/-- `sys_tcsetattr`. -/
def sysTcsetattr (args : SyscallArgs) : Except Halt Reply := c.onTty env args []

/-! ### Handlers on paths -/

/-- The path at an address of the caller. -/
def userPath (path : BitVec 64) : Except Halt (Except ℤ Bytes) :=
  match cstrFromUser env.user path.toNat with
  | none => .error .bounds
  | some (.error e) => .ok (.error e)
  | some (.ok buf) => (checked buf.path).map .ok

/-- `vfs_resolve` of the path at an address of the caller. -/
def resolveUser (path : BitVec 64) : Except Halt (Except ℤ VnodeRef) :=
  match userPath env path with
  | .error e => .error e
  | .ok (.error e) => .ok (.error e)
  | .ok (.ok path) => (checked (env.fs.vfsResolveIn path)).map fun
    | .error e => .error e
    | .ok vn => .ok vn

/-- `sys_open`.  No vnode has an open operation that fails. -/
def openPath (args : SyscallArgs) : Except Halt Reply :=
  match resolveUser env args.arg1 with
  | .error e => .error e
  | .ok resolved =>
    c.call (.openPath (resolved.map env.vnode) 0 (args.arg2.toNat % 2 ^ 32)
      (args.arg3.toNat % 2 ^ 32)) []

/-- `sys_exec`. -/
def execPath (args : SyscallArgs) : Except Halt Reply :=
  match c.sys.current with
  | none => .error .notFound
  | some _ =>
    match resolveUser env args.arg1 with
    | .error e => .error e
    | .ok (.error e) => .ok (c.reply (-e))
    | .ok (.ok vn) =>
      if vn.size = 0 then .ok (c.reply (-enoent)) else c.call (.exec env.image) []

/-- `sys_stat`. -/
def sysStat (args : SyscallArgs) : Except Halt Reply :=
  match userPath env args.arg1 with
  | .error e => .error e
  | .ok (.error e) => .ok (c.reply (-e))
  | .ok (.ok path) =>
    match c.sys.current, c.cwd.path.bind fun cwd => env.fs.vfsResolveRelative cwd path with
    | none, _ => .error .notFound
    | some _, none => .error .bounds
    | some _, some (.error e) => .ok (c.reply (-e))
    | some _, some (.ok vn) =>
      .ok { c.reply 0 with stores := [⟨args.arg2.toNat, statFromVnode (.node vn)⟩] }

/-- `sys_chdir`. -/
def sysChdir (args : SyscallArgs) : Except Halt Reply :=
  match userPath env args.arg1 with
  | .error e => .error e
  | .ok (.error e) => .ok (c.reply (-e))
  | .ok (.ok path) =>
    match c.sys.current, env.fs.chdirTo c.cwd path with
    | none, _ => .error .notFound
    | some _, none => .error .bounds
    | some _, some (.error e) => .ok (c.reply (-e))
    | some _, some (.ok cwd) => .ok { c.reply 0 with cwd := cwd }

/-- `sys_getcwd`. -/
def sysGetcwd (args : SyscallArgs) : Except Halt Reply :=
  match c.sys.current with
  | none => .error .notFound
  | some _ =>
    if args.arg1 = 0 then .ok (c.reply (-efault))
    else
      .ok { c.reply args.arg1.toInt with
        stores := [⟨args.arg1.toNat, getcwdBytes c.cwd args.arg2.toNat⟩] }

/-! ### Other handlers -/

/-- The number of ticks that `sys_nanosleep` waits for. -/
def sleepTicks (args : SyscallArgs) : ℕ :=
  (args.arg1.toNat * 100 + args.arg2.toNat / 10000000) % 2 ^ 64

/-- `sys_nanosleep`.  The counter of ticks stands still while the handler runs, since interrupts are
off: the loop ends at once, or never. -/
def sysNanosleep (args : SyscallArgs) : Except Halt Reply :=
  if 1000000000 ≤ args.arg2.toNat then .ok (c.reply (-1))
  else if sleepTicks args = 0 then .ok (c.reply 0)
  else .error .waiting

/-- The fields that `sys_uname` stores, and their positions. -/
def unameFields : List (ℕ × Bytes) :=
  [(0, [0x56, 0x49, 0x42, 0x49, 0x58, 0]),
    (65, [0x76, 0x69, 0x62, 0x69, 0x78, 0]),
    (130, [0x30, 0x2e, 0x31, 0x2e, 0x30, 0]),
    (195, [0x23, 0x31, 0x20, 0x50, 0x52, 0x45, 0x45, 0x4d, 0x50, 0x54, 0x20, 0x54, 0x75, 0x65, 0x20,
      0x4a, 0x75, 0x6e, 0x20, 0x32, 0x33, 0x20, 0x32, 0x30, 0x32, 0x36, 0]),
    (260, [0x78, 0x38, 0x36, 0x5f, 0x36, 0x34, 0]),
    (325, [0x56, 0x49, 0x42, 0x49, 0x58, 0])]

/-- `sys_uname`. -/
def sysUname (args : SyscallArgs) : Except Halt Reply :=
  .ok { c.reply 0 with stores := unameFields.map fun f => ⟨args.arg1.toNat + f.1, f.2⟩ }

/-- `sys_reboot`; the machine may be off before the handler returns. -/
def sysReboot (args : SyscallArgs) : Except Halt Reply :=
  if args.arg1 ≠ 0xfee1dead ∨ args.arg2 ≠ 0x28121969 then .ok (c.reply (-1))
  else if args.arg3 = 0xcdef0123 ∨ args.arg3 = 0x4321fedc then .ok (c.reply 0)
  else .ok (c.reply (-1))

/-- `sys_waitpid`. -/
def waitpid (args : SyscallArgs) : Except Halt Reply :=
  (sysWaitpid args.arg1.toNat args.arg3.toNat c.sys).map fun r =>
    ⟨r.1, c.cwd, r.2.1,
      match r.2.2 with
      | some reaped => if args.arg2 = 0 then [] else [⟨args.arg2.toNat, leBytes 8 reaped.exitCode⟩]
      | none => []⟩

/-- The two descriptors that `sys_pipe` takes. -/
def pipeFds (s : System) : Option (Fin 16 × Fin 16) :=
  s.current.bind fun (_, q) =>
    (firstFree q.fds).bind fun readFd =>
      (firstFree (q.setFd readFd (some 0)).fds).map (readFd, ·)

/-- `sys_pipe`. -/
def pipe (args : SyscallArgs) : Except Halt Reply :=
  (c.call (.pipe env.blocks args.arg1.toNat) []).map fun r =>
    if r.rc = 0 then
      { r with
        stores := match pipeFds c.sys with
          | some (readFd, writeFd) =>
            [⟨args.arg1.toNat, leBytes 4 readFd⟩, ⟨args.arg1.toNat + 4, leBytes 4 writeFd⟩]
          | none => [] }
    else r

/-- A `SigAction` in memory. -/
def actionBytes (a : SigAction) : Bytes :=
  leBytes 8 a.handler.toNat ++ leBytes 8 a.mask.toNat ++ leBytes 8 a.flags.toNat

/-- `sys_sigaction`. -/
def sigaction (args : SyscallArgs) : Except Halt Reply :=
  let act := if args.arg2 = 0 then none else
    some ⟨env.userWord args.arg2.toNat, env.userWord (args.arg2.toNat + 8),
      env.userWord (args.arg2.toNat + 16)⟩
  (c.call (.sigaction args.arg1.toNat act) []).map fun r =>
    if r.rc = 0 ∧ args.arg3 ≠ 0 then
      { r with
        stores := match c.sys.current with
          | some (_, q) =>
            [⟨args.arg3.toNat, actionBytes (q.sigactions (Fin.ofNat 32 args.arg1.toNat))⟩]
          | none => [] }
    else r

/-! ### The table -/

/-- `MAX_SYSCALLS`. -/
def maxSyscalls : ℕ := 64

/-- `SYSCALL_TABLE`, after `syscall::init` and `vfs_init`. -/
def handler (args : SyscallArgs) : ℕ → Option (Except Halt Reply)
  | 0 => some (c.call (.exit args.arg1.toNat) [])
  | 1 => some (c.sysWrite env args)
  | 2 => some (c.sysRead env args)
  | 3 => some (.ok (c.reply c.sys.currentPid))
  | 4 => some (c.call (.setBreak env.memory.1 env.memory.2.1 env.memory.2.2) [])
  | 5 => some (c.sysNanosleep args)
  | 6 => some (c.sysUname args)
  | 7 => some (c.sysReboot args)
  | 8 => some (c.call (.fork env.forkMemory) [])
  | 9 => some (c.execPath env args)
  | 10 => some (c.waitpid args)
  | 11 => some (c.call (.setBreak env.memory.1 env.memory.2.1 env.memory.2.2) [])
  | 12 => some (c.openPath env args)
  | 13 => some (c.call (.close args.arg1.toNat) [])
  | 14 => some (c.sysReadVfs env args)
  | 15 => some (c.sysWriteVfs env args)
  | 16 => some (c.sysLseek env args)
  | 17 => some (c.sysGetdents env args)
  | 18 => some (c.call (.dup args.arg1.toNat) [])
  | 19 => some (c.call (.dup2 args.arg1.toNat args.arg2.toNat) [])
  | 20 => some (c.pipe env args)
  | 21 => some (c.sysStat env args)
  | 22 => some (c.sysFstat env args)
  | 23 => some (c.sysChdir env args)
  | 24 => some (c.sysIsatty env args)
  | 25 => some (c.sysTcgetattr env args)
  | 26 => some (c.sysTcsetattr env args)
  | 27 => some (c.sysGetcwd args)
  | 28 => some (c.call (.kill args.arg1.toNat args.arg2.toNat) [])
  | 29 => some (c.sigaction env args)
  | 30 => some (c.call (.sigreturn env.frameMask) [])
  | _ => none

/-- `SYSCALL_TABLE[num]`, called; `u64::MAX` if there is no handler. -/
def dispatch (num : BitVec 64) (args : SyscallArgs) : Except Halt Reply :=
  if num.toNat < maxSyscalls then (c.handler env args num.toNat).getD (.ok (c.reply (-1)))
  else .ok (c.reply (-1))

/-- `syscall_handler`. -/
def syscallHandler (num : BitVec 64) (args : SyscallArgs) : Except Halt Reply :=
  match checkSignalsSyscall c.sys with
  | .error e => .error e
  | .ok (s, .none, _) => dispatch env ⟨s, c.cwd⟩ num args
  | .ok (s, _, _) => .ok ⟨{ s with shouldSchedule := true }, c.cwd, 0, []⟩

end Caller

end Vibix.Proc
