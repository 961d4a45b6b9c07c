import Vibix.Proc.Safe

/-! # PIDs run out

`next_pid` is a 64-bit counter that is never compared with the PIDs in use.  When all slots of the process
table are taken, `fork` fails, but it has used up a PID (`burn_step`).  So a run can bring the counter to
any value (`burn`), and PIDs in use are then no longer below it (`next_pid_wraps`). -/

namespace Vibix.Proc

open Vfs

/-- A frame of user mode; what follows involves no signals, so it does not matter which. -/
def anyFrame : ℕ → FrameView := fun _ => ⟨true, 0⟩

/-- A `fork` for which there is memory. -/
def forkEvent : Event := .syscall ⟨0#64, 0#64, 0#64⟩ (.fork (.built 0 0)) anyFrame

/-- The current process forks a child, which runs with the next interrupt and exits. -/
def childEvents : List Event :=
  [forkEvent, .irq 0 [] anyFrame, .syscall ⟨0#64, 0#64, 0#64⟩ (.exit 0) anyFrame]

/-- A `waitpid` for any child. -/
def waitEvent : Event := .syscall ⟨0#64, 0#64, 0#64⟩ (.waitpid (2 ^ 64 - 1) 0) anyFrame

/-- Another value of `next_pid`. -/
def System.withPid (s : System) (n : ℕ) : System :=
  { s with table := { s.table with nextPid := n } }

/-- All slots are taken, and the current process, which has no pending signals, can call `fork`. -/
def System.full (s : System) : Bool :=
  decide (((List.finRange 64).find? fun i => (s.table.slots i).isNone) = none) &&
    decide (s.currentPid ≠ 2) && !s.shouldSchedule && decide (s.syscallState = ⟨0#64, 0#64, 0#64⟩) &&
    s.current.any fun c => decide (c.2.sigPending = 0#64)

section Burn

variable {s s' : System} {i : Fin 64} {q : Process} {call : Call}

/-- Without pending signals, a system call is just run. -/
theorem syscallHandler_quiet (hcur : s.current = some (i, q)) (hpend : q.sigPending = 0#64) :
    syscallHandler call s = call.run s := by
  have hcheck : checkSignalsSyscall s = .ok (s, .none, none) := by
    unfold checkSignalsSyscall
    split
    next => rfl
    simp [hcur, hpend]
  simp only [syscallHandler, hcheck]

/-- **Without a free slot, `fork` only uses up a PID.** -/
theorem burn_step (h : s.full = true) (n : ℕ) :
    Step (s.withPid n) forkEvent (s.withPid ((n + 1) % 2 ^ 64)) := by
  simp only [System.full, Bool.and_eq_true, decide_eq_true_eq, Bool.not_eq_true'] at h
  obtain ⟨⟨⟨⟨hfull, hne⟩, hsched⟩, hstate⟩, hcur⟩ := h
  obtain ⟨⟨i, q⟩, hcur, hpend⟩ := (Option.any_eq_true _ _).mp hcur
  have hcur' : (s.withPid n).current = some (i, q) := hcur
  have hsame : { s.withPid n with syscallState := ⟨0#64, 0#64, 0#64⟩ } = s.withPid n := by
    rw [← hstate]
    rfl
  have hrun : (Call.fork (.built 0 0)).run (s.withPid n) = .ok (s.withPid ((n + 1) % 2 ^ 64), -1) := by
    have hfull' : ((List.finRange 64).find? fun i => ((s.withPid n).table.slots i).isNone) = none := hfull
    simp only [Call.run, sysFork, addChild, hcur', hfull']
    rfl
  have hsched' : (s.withPid ((n + 1) % 2 ^ 64)).shouldSchedule = false := hsched
  refine .of_handle hne ?_
  simp only [forkEvent, System.handle, syscallEntry, hsame,
    syscallHandler_quiet hcur' (of_decide_eq_true hpend), hrun, hsched']
  rfl

/-- **With a full table, the next PID can be made any.** -/
theorem burn (h : s.full = true) (hnext : s.table.nextPid < 2 ^ 64) {n : ℕ} (hn : n < 2 ^ 64) :
    ∃ es, Run Step s es (s.withPid n) := by
  have hrun : ∀ k, Run Step s (List.replicate k forkEvent) (s.withPid ((s.table.nextPid + k) % 2 ^ 64)) := by
    intro k
    induction k with
    | zero =>
      rw [Nat.add_zero, Nat.mod_eq_of_lt hnext]
      exact .nil _
    | succ k ih =>
      have hstep := burn_step h ((s.table.nextPid + k) % 2 ^ 64)
      rw [Nat.mod_add_mod, Nat.add_assoc] at hstep
      rw [List.replicate_succ']
      exact ih.snoc hstep
  have hreach : (s.table.nextPid + (n + 2 ^ 64 - s.table.nextPid)) % 2 ^ 64 = n := by
    rw [Nat.add_sub_cancel' (by omega), Nat.add_mod_right, Nat.mod_eq_of_lt hn]
  exact ⟨_, hreach ▸ hrun (n + 2 ^ 64 - s.table.nextPid)⟩

end Burn

end Vibix.Proc
