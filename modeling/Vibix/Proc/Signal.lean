import Vibix.Proc.System

/-! # Signals

`signal.rs`: signals are checked at two places, on entry to a system call (`checkSignalsSyscall`)
and when the scheduler has selected a process (`deliverPendingSignals`).  Both go through the
pending signals in order, and differ only in what they do about a handler of the process: the first
leaves it to the scheduler, the second enters it.  `scan` is this loop.

The frame that the scheduler is about to restore is memory; of it the scheduler path reads the mode
and the stack pointer (`FrameView`).  The words of the signal frame that `sys_sigreturn` reads are
memory too; of them the mask is an argument of `sysSigreturn`. -/

namespace Vibix.Proc

/-- `SIG_DFL`. -/
def sigDfl : BitVec 64 := 0#64
/-- `SIG_IGN`. -/
def sigIgn : BitVec 64 := 1#64
/-- `SIGINT`. -/
def sigInt : ℕ := 2
/-- `SIGKILL`. -/
def sigKill : ℕ := 9
/-- `SIGUSR1`. -/
def sigUsr1 : ℕ := 10
/-- `SIGUSR2`. -/
def sigUsr2 : ℕ := 12
/-- `SIGFRAME_SIZE`. -/
def sigframeSize : ℕ := 160

/-- The signals, in the order in which they are checked. -/
def signals : List (Fin 32) := (List.finRange 32).tail

/-- The signals whose default is to terminate the process. -/
def fatalByDefault (sig : ℕ) : Bool :=
  sig = sigKill || sig = sigInt || sig = sigUsr1 || sig = sigUsr2

/-- Clear a pending signal. -/
def Process.clearSignal (q : Process) (sig : ℕ) : Process :=
  { q with sigPending := q.sigPending &&& ~~~(1#64 <<< sig) }

/-- Set a pending signal. -/
def Process.raise (q : Process) (sig : ℕ) : Process :=
  { q with sigPending := q.sigPending ||| (1#64 <<< sig) }

/-- How going through the pending signals ends. -/
inductive Outcome where
  /-- Nothing is left to be done. -/
  | pass
  /-- A handler is left to the scheduler. -/
  | custom
  /-- The process is to be terminated. -/
  | fatal (code : ℕ)
  /-- A handler is entered. -/
  | enter (sig : Fin 32) (handler : BitVec 64)
deriving DecidableEq

/-- The result of `scan`: the process, the signals that were ignored, and the outcome. -/
structure Scan where
  proc : Process
  ignored : List (Fin 32)
  outcome : Outcome

/-- The loop over the pending signals; on the scheduler path `userRsp` is the stack pointer. -/
def scan (userRsp : Option ℕ) (q : Process) (ignored : List (Fin 32)) (result : Outcome) :
    List (Fin 32) → Scan
  | [] => ⟨q, ignored, result⟩
  | sig :: rest =>
    if q.sigPending.getLsbD sig = false then scan userRsp q ignored result rest
    else if (q.sigactions sig).handler = sigIgn then
      scan userRsp (q.clearSignal sig) (ignored ++ [sig]) result rest
    else if (q.sigactions sig).handler = sigDfl then
      if fatalByDefault sig then ⟨q.clearSignal sig, ignored, .fatal (128 + sig)⟩
      else scan userRsp (q.clearSignal sig) (ignored ++ [sig]) result rest
    else
      match userRsp with
      | none => scan userRsp q ignored .custom rest
      | some rsp =>
        -- no room for a signal frame above the low end of the stack
        if rsp < (q.stackLow + sigframeSize) % 2 ^ 64 then
          ⟨q.clearSignal sig, ignored, .fatal (128 + sigKill)⟩
        else
          ⟨{ q.clearSignal sig with
              sigframeRsp := (rsp + 2 ^ 64 - sigframeSize) % 2 ^ 64, inSignal := true },
            ignored, .enter sig (q.sigactions sig).handler⟩

/-- Store the process and mark it as a zombie; the result also has the word that `mark_zombie`
clears. -/
def System.terminate (s : System) (i : Fin 64) (q : Process) (code : ℕ) :
    Except Halt (System × Option ℕ) :=
  match (s.put i q).table.markZombie q.pid code with
  | none => .error .notFound
  | some (table, cleared) => .ok ({ s with table := table }.log [.terminated q.pid], cleared)

/-- `SignalResult`. -/
inductive SignalResult where
  | none
  | terminated
  | customPending
deriving DecidableEq

/-- The events of ignored signals. -/
def ignoredEvents (pid : ℕ) (sigs : List (Fin 32)) : List SignalEvent :=
  sigs.map fun sig => .ignored pid sig

/-- `check_signals_syscall` for the current process; the result also has the word that
`mark_zombie` clears. -/
def checkSignalsSyscall (s : System) : Except Halt (System × SignalResult × Option ℕ) :=
  if s.currentPid = 0 ∨ s.currentPid = 2 then .ok (s, .none, none)
  else
    match s.current with
    | none => .error .notFound
    | some (i, q) =>
      if q.sigPending = 0#64 then .ok (s, .none, none)
      else if q.inSignal then
        if q.sigPending.getLsbD sigKill then
          match s.terminate i (q.clearSignal sigKill) (128 + sigKill) with
          | .error e => .error e
          | .ok (s, cleared) => .ok (s, .terminated, cleared)
        else .ok (s, .none, none)
      else
        let r := scan none q [] .pass signals
        let s := s.log (ignoredEvents q.pid r.ignored)
        match r.outcome with
        | .fatal code =>
          match s.terminate i r.proc code with
          | .error e => .error e
          | .ok (s, cleared) => .ok (s, .terminated, cleared)
        | .custom => .ok (s.put i r.proc, .customPending, none)
        | _ => .ok (s.put i r.proc, .none, none)

/-- What `deliver_pending_signals` reads of the frame to be restored. -/
structure FrameView where
  userMode : Bool
  userRsp : ℕ

/-- What `deliver_pending_signals` leaves to be done in memory. -/
inductive Delivery where
  | unchanged
  /-- The process was terminated; `cleared` is the word that `mark_zombie` clears. -/
  | killed (cleared : Option ℕ)
  /-- The signal frame is written at `frameRsp` and the frame made to enter the handler. -/
  | entered (sig : Fin 32) (handler : BitVec 64) (frameRsp : ℕ) (saved : BitVec 64)

/-- `deliver_pending_signals`. -/
def deliverPendingSignals (pid : ℕ) (frame : FrameView) (s : System) :
    Except Halt (System × Delivery) :=
  if pid = 0 ∨ pid = 2 then .ok (s, .unchanged)
  else
    match s.table.find pid with
    | none => .error .notFound
    | some (i, q) =>
      if q.sigPending = 0#64 then .ok (s, .unchanged)
      else if q.inSignal then
        if q.sigPending.getLsbD sigKill then
          match s.terminate i (q.clearSignal sigKill) (128 + sigKill) with
          | .error e => .error e
          | .ok (s, cleared) => .ok (s, .killed cleared)
        else .ok (s, .unchanged)
      else if !frame.userMode then .ok (s, .unchanged)
      else
        let r := scan (some frame.userRsp) q [] .pass signals
        let s := s.log (ignoredEvents q.pid r.ignored)
        match r.outcome with
        | .fatal code =>
          match s.terminate i r.proc code with
          | .error e => .error e
          | .ok (s, cleared) => .ok (s, .killed cleared)
        | .enter sig handler =>
          .ok ((s.log [.entered q.pid sig r.proc.sigPending]).put i r.proc,
            .entered sig handler r.proc.sigframeRsp r.proc.sigPending)
        | _ => .ok (s.put i r.proc, .unchanged)

/-- `ESRCH`. -/
def esrch : ℤ := 3

/-- `sys_kill`. -/
def sysKill (pid sig : ℕ) (s : System) : Except Halt (System × ℤ) :=
  if pid = 0 ∨ sig = 0 ∨ 32 ≤ sig then .ok (s, -einval)
  else if pid = 2 then .ok (s, 0)
  else
    match s.table.find pid with
    | none => .error .notFound
    | some (i, q) =>
      if q.state = .zombie then .ok (s, -esrch)
      else
        .ok (s.put i { q.raise sig with state := if q.state = .blocked then .ready else q.state },
          0)

/-- `sys_sigaction`, given the action that `act` points to, if it is not null. -/
def sysSigaction (signum : ℕ) (act : Option SigAction) (s : System) : Except Halt (System × ℤ) :=
  if signum = 0 ∨ 32 ≤ signum then .ok (s, -einval)
  else if signum = sigKill then .ok (s, -einval)
  else
    match s.current with
    | none => .error .notFound
    | some (i, q) =>
      match act with
      | none => .ok (s, 0)
      | some action =>
        .ok (s.put i { q with
          sigactions := Function.update q.sigactions (Fin.ofNat 32 signum) action }, 0)

/-- `sys_sigreturn`, given the mask in the signal frame. -/
def sysSigreturn (mask : BitVec 64) (s : System) : Except Halt (System × ℤ) :=
  match s.current with
  | none => .error .notFound
  | some (i, q) =>
    if q.sigframeRsp = 0 then .ok (s, 0)
    else
      .ok ({ s with shouldSchedule := true }.put i
        { q with sigframeRsp := 0, inSignal := false, sigPending := mask }, 0)

end Vibix.Proc
