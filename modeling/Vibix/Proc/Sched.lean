import Vibix.Proc.Call

/-! # The scheduler

`sched_next`, the two entry points of the scheduler (`scheduler_tick` on interrupts,
`scheduler_switch_exit` at the end of system calls) and the entry of system calls.  Both entry points
end in the same loop: select a process, deliver its signals, and select again if they killed it.  The
model of the loop (`schedule`) has a bound on the number of rounds; that it is never reached is part
of what is proved about it.

`Step` is one step of the kernel as seen from user mode: a system call of the current process, with
the switch that may follow it, or an interrupt.  The idle process makes no system calls. -/

namespace Vibix.Proc

/-- The PID of a process in slot `i` that satisfies `p`. -/
def slotPid (t : ProcessTable) (p : Process → Bool) (i : Fin 64) : Option ℕ :=
  (t.slots i).bind fun q => if p q then some q.pid else none

/-- The slots after `start`, in the order in which `sched_next` looks at them. -/
def slotsAfter (start : Fin 64) : List (Fin 64) :=
  (List.range 63).map fun k => start + Fin.ofNat 64 (k + 1)

/-- The slot of the current process, 0 if there is none. -/
def System.start (s : System) : Fin 64 :=
  match s.current with
  | none => 0
  | some (i, _) => i

/-- `sched_next`. -/
def schedNext (s : System) : ℕ :=
  match (slotsAfter s.start).findSome?
      (slotPid s.table fun q => q.state = .ready ∧ q.pid ≠ 2) with
  | some pid => pid
  | none =>
    match (List.finRange 64).findSome?
        (slotPid s.table fun q => q.state = .ready ∧ q.pid = 2) with
    | some _ => 2
    | none => s.currentPid

/-- One round of the loop: a process is selected, and its signals are delivered. -/
def schedRound (frame : FrameView) (s : System) : Except Halt (System × Delivery) :=
  match s.table.find (schedNext s) with
  | none => .error .notFound
  | some (_, q) =>
    if q.state ≠ .ready then .error .notReady
    else
      deliverPendingSignals (schedNext s) frame
        { s with currentPid := schedNext s, kernelStack := q.kernelStackTop }

/-- The selected process is made to run. -/
def System.resume (s : System) : Except Halt System :=
  match s.current with
  | none => .error .notFound
  | some (i, q) => .ok (s.put i { q with state := .running })

/-- The loop of the scheduler; `frames` is what the rounds see of the selected frames. -/
def schedule (frames : ℕ → FrameView) : ℕ → System → Except Halt System
  | 0, _ => .error .looping
  | n + 1, s =>
    match schedRound (frames n) s with
    | .error e => .error e
    | .ok (s, .killed _) => schedule frames n s
    | .ok (s, _) => s.resume

/-- The bound on the rounds: one for every slot, and one more. -/
def schedRounds : ℕ := 65

/-- `scheduler_tick`, given the input that is polled. -/
def schedulerTick (rsp : ℕ) (input : List (BitVec 8)) (frames : ℕ → FrameView) (s : System) :
    Except Halt System :=
  let s := processInput input s
  if s.currentPid = 0 then .ok s
  else
    match s.current with
    | none => .error .notFound
    | some (i, q) =>
      schedule frames schedRounds (s.put i { q with kernelRsp := rsp, state := .ready })

/-- `scheduler_switch_exit`. -/
def schedulerSwitchExit (rsp : ℕ) (frames : ℕ → FrameView) (s : System) : Except Halt System :=
  match s.current with
  | none => .error .notFound
  | some (i, q) =>
    schedule frames schedRounds (s.put i
      { q with kernelRsp := rsp, state := if q.state = .running then .ready else q.state })

/-- `syscall_handler`. -/
def syscallHandler (call : Call) (s : System) : Except Halt (System × ℤ) :=
  match checkSignalsSyscall s with
  | .error e => .error e
  | .ok (s, .none, _) => call.run s
  | .ok (s, _, _) => .ok ({ s with shouldSchedule := true }, 0)

/-- The state in which the call of a system call is run, if no signal prevents it. -/
def System.called (s : System) (saved : SyscallSavedState) : Option System :=
  match checkSignalsSyscall { s with syscallState := saved } with
  | .ok (s, .none, _) => some s
  | _ => none

/-- `syscall_entry`: the handler, and the switch if one was asked for. -/
def syscallEntry (saved : SyscallSavedState) (call : Call) (frames : ℕ → FrameView) (s : System) :
    Except Halt System :=
  match syscallHandler call { s with syscallState := saved } with
  | .error e => .error e
  | .ok (s, _) =>
    if s.shouldSchedule then
      schedulerSwitchExit (s.kernelStack - 176) frames { s with shouldSchedule := false }
    else .ok s

/-- What user mode, or a device, asks of the kernel. -/
inductive Event where
  | syscall (saved : SyscallSavedState) (call : Call) (frames : ℕ → FrameView)
  | irq (rsp : ℕ) (input : List (BitVec 8)) (frames : ℕ → FrameView)

/-- What the kernel does then. -/
def System.handle (s : System) : Event → Except Halt System
  | .syscall saved call frames => syscallEntry saved call frames s
  | .irq rsp input frames => schedulerTick rsp input frames s

/-- The events that the current process allows. -/
def Event.allowed (s : System) : Event → Prop
  | .syscall .. => s.currentPid ≠ 2
  | .irq .. => True

instance (s : System) (e : Event) : Decidable (e.allowed s) := by
  cases e <;> unfold Event.allowed <;> infer_instance

/-- The state after an event that is allowed and does not stop the kernel. -/
def System.next (s : System) (e : Event) : Option System :=
  if e.allowed s then (s.handle e).toOption else none

/-- One step of the kernel. -/
abbrev Step (s : System) (e : Event) (s' : System) : Prop := s.next e = some s'

theorem Step.of_handle {s s' : System} {e : Event} (hallowed : e.allowed s)
    (h : s.handle e = .ok s') : Step s e s' := by
  unfold Step System.next
  rw [if_pos hallowed, h]
  rfl

theorem eq_ok_of_toOption {ε α : Type*} {x : Except ε α} {a : α} (h : x.toOption = some a) :
    x = .ok a := by
  cases x with
  | error => cases h
  | ok => cases h; rfl

theorem Step.handle_eq {s s' : System} {e : Event} (h : Step s e s') :
    e.allowed s ∧ s.handle e = .ok s' := by
  unfold Step System.next at h
  split at h
  next hallowed => exact ⟨hallowed, eq_ok_of_toOption h⟩
  next => cases h

end Vibix.Proc
