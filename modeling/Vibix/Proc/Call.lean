import Vibix.Proc.Terminal

/-! # System calls

`Call` is the system calls as the process side of the kernel sees them, each with what it gets from
memory, from the file system and from devices; `Call.run` is what the dispatch table of `syscall.rs`
runs for it.  `sys_brk` and `sys_mmap` come down to new values of `brk` and `errno`; a transfer on a
descriptor that is not the terminal comes down to a new offset of the open file.  The calls that
change nothing here are `other`. -/

namespace Vibix.Proc

open Vfs

/-- The system calls. -/
inductive Call where
  | openPath (resolved : Except ℤ Vnode) (openRc : ℤ) (flags mode : ℕ)
  | close (fd : ℕ)
  | dup (oldFd : ℕ)
  | dup2 (oldFd newFd : ℕ)
  | pipe (blocks : Option (Vnode × Vnode)) (pipefd : ℕ)
  | fork (memory : ForkMemory)
  | exec (built : Except ℤ UserImage)
  | exit (code : ℕ)
  | waitpid (requested flags : ℕ)
  | kill (pid sig : ℕ)
  | sigaction (signum : ℕ) (act : Option SigAction)
  | sigreturn (mask : BitVec 64)
  /-- `read` on the terminal. -/
  | ttyRead (len : ℕ) (input : List (BitVec 8))
  /-- `read`, `write`, `lseek` and `getdents` on other files. -/
  | transfer (idx offset : ℕ) (rc : ℤ)
  /-- `brk` and `mmap`. -/
  | setBreak (brk : ℕ) (errno rc : ℤ)
  | other (rc : ℤ)

/-- The offset of an open file is moved. -/
def moveOffset (idx offset : ℕ) (s : System) : System :=
  let moved := (s.oft.get idx).map fun file : OpenFile => { file with offset := offset }
  { s with oft := s.oft.put idx moved }

/-- `brk` and `errno` of the current process are set. -/
def setBreak (brk : ℕ) (errno : ℤ) (s : System) : Except Halt System :=
  match s.current with
  | none => .error .notFound
  | some (i, q) => .ok (s.put i { q with brk := brk, errno := errno })

/-- The call, on the process side: the state and the result. -/
def Call.run (s : System) : Call → Except Halt (System × ℤ)
  | .openPath resolved openRc flags mode => sysOpen resolved openRc flags mode s
  | .close fd => sysClose fd s
  | .dup oldFd => sysDup oldFd s
  | .dup2 oldFd newFd => sysDup2 oldFd newFd s
  | .pipe blocks pipefd => sysPipe blocks pipefd s
  | .fork memory => sysFork memory s
  | .exec built => sysExec built s
  | .exit code => (sysExit code s).map fun r => (r.1, 0)
  | .waitpid requested flags => (sysWaitpid requested flags s).map fun r => (r.1, r.2.1)
  | .kill pid sig => sysKill pid sig s
  | .sigaction signum act => sysSigaction signum act s
  | .sigreturn mask => sysSigreturn mask s
  | .ttyRead len input => Proc.ttyRead len input s
  | .transfer idx offset rc => .ok (moveOffset idx offset s, rc)
  | .setBreak brk errno rc => (Proc.setBreak brk errno s).map fun s => (s, rc)
  | .other rc => .ok (s, rc)

end Vibix.Proc
