import Vibix.Proc.Status

/-! # Where processes are blocked

A process is blocked by one of two system calls, `waitpid` and a `read` from the terminal.  The kernel
does not record by which: the process has a PID that it waits for, which outlives the wait, and the
terminal has the PID of a reader, which outlives the read.  `Waits` records it, for every slot;
`Waits.after` says how an event changes the record.

`Tracking P C` is the rule for invariants that relate the record to the kernel: it extends the rule of
`Invariant` by the calls that block, as far as they meet the condition `C`.  Then `P` holds in every
state that is reached (`Tracking.run`), and in the states in which the scheduler delivers signals
(`Tracking.delivers`). -/

namespace Vibix.Proc

open Vfs Relation

/-- The system call in which a process is blocked: `waitpid`, which chose a child, or `read`. -/
inductive Wait where
  | child (pid : ℕ)
  | input
deriving DecidableEq

/-- For every slot, the call that blocked its process last. -/
abbrev Waits := Fin 64 → Option Wait

/-- The calls that can block. -/
def Call.mayBlock : Call → Bool
  | .waitpid .. => true
  | .ttyRead .. => true
  | _ => false

/-- Where a call, run in state `s`, blocks its caller if it does. -/
def Call.wait (s : System) : Call → Option Wait
  | .waitpid requested _ => (waitChild requested s).map fun child => .child child.pid
  | .ttyRead .. => some .input
  | _ => none

/-- A call has blocked its caller: the state then, the slot, the process, and the call. -/
structure Blocking where
  sys : System
  slot : Fin 64
  proc : Process
  wait : Wait

/-- What a call that is run in state `s` blocks. -/
def Call.blocking (s : System) (call : Call) : Option Blocking :=
  match call.run s, call.wait s with
  | .ok (s', _), some w =>
    s'.current.bind fun r => if r.2.state = .blocked then some ⟨s', r.1, r.2, w⟩ else none
  | _, _ => none

/-- What an event blocks. -/
def System.blocking (s : System) : Event → Option Blocking
  | .syscall saved call _ => (s.called saved).bind fun s₁ => call.blocking s₁
  | .irq .. => none

/-- The record after a call. -/
def Waits.record (g : Waits) : Option Blocking → Waits
  | none => g
  | some b => Function.update g b.slot (some b.wait)

/-- The record after an event. -/
def Waits.after (g : Waits) (s : System) (e : Event) : Waits := g.record (s.blocking e)

/-- The kernel and the record. -/
structure Tracked where
  sys : System
  waits : Waits

/-- The state after an event; `C` is required of a call that blocks. -/
def Tracked.next (C : Blocking → Prop) [DecidablePred C] (s : Tracked) (e : Event) :
    Option Tracked :=
  if ∀ b ∈ s.sys.blocking e, C b then (s.sys.next e).map (⟨·, s.waits.after s.sys e⟩) else none

/-- One step of the kernel, with the record. -/
abbrev TrackedStep (C : Blocking → Prop) [DecidablePred C] (s : Tracked) (e : Event) (s' : Tracked) :
    Prop := s.next C e = some s'

/-- What an invariant `P` that relates the record to the kernel has to be kept by, for it to be kept
by the steps in which calls that block meet the condition `C`. -/
structure Tracking (P : Waits → System → Prop) (C : Blocking → Prop) : Prop where
  keeps : ∀ g, Invariant (P g) fun _ call => call.mayBlock = false
  reap : ∀ g s i q oft, SysOk s → P g s → s.table.slots i = some q → q.state = .zombie →
    P g { s with table := { s.table.put i none with count := s.table.count - 1 }, oft := oft }
  read : ∀ g s s' i q, SysOk s → P g s → s.current = some (i, q) →
    s' = { s with tty := { s.tty with waitingPid := s.currentPid }, shouldSchedule := true }.put i
      { q with state := .blocked } →
    C ⟨s', i, { q with state := .blocked }, .input⟩ → P (Function.update g i (some .input)) s'
  wait : ∀ g s s' i j q child, SysOk s → P g s → s.current = some (i, q) →
    s.table.slots j = some child → child.parentPid = s.currentPid → child.state ≠ .zombie →
    s' = { s with shouldSchedule := true }.put i
      { q with waitForPid := child.pid, state := .blocked } →
    C ⟨s', i, { q with waitForPid := child.pid, state := .blocked }, .child child.pid⟩ →
    P (Function.update g i (some (.child child.pid))) s'

section Blocking

variable {s s' : System} {call : Call} {rc : ℤ}

theorem next_tracked {C : Blocking → Prop} [DecidablePred C] {t t' : Tracked} {e : Event}
    (h : t.next C e = some t') :
    Step t.sys e t'.sys ∧ t'.waits = t.waits.after t.sys e ∧ ∀ b ∈ t.sys.blocking e, C b := by
  unfold Tracked.next at h
  split at h
  next hC =>
    obtain ⟨s', hs', rfl⟩ := Option.map_eq_some_iff.mp h
    exact ⟨hs', rfl, hC⟩
  next => cases h

/-- The current process is found after it has changed. -/
theorem current_put {i : Fin 64} {q q' : Process} (ht : TableOk s.table)
    (hcur : s.current = some (i, q)) (hpid : q'.pid = q.pid) : (s.put i q').current = some (i, q') := by
  obtain ⟨hi, hq⟩ := ProcessTable.find_some hcur
  have hd : (s.table.put i (some q')).Distinct := ht.distinct.congr (ProcessTable.pids_put hi hpid)
  have hfind := hd.find_eq ProcessTable.put_same
  rwa [hpid, hq] at hfind

/-- A call that leaves its caller running blocks nothing. -/
theorem blocking_of_ok (hok : SysOk s') (hrun : call.run s = .ok (s', rc)) :
    call.blocking s = none := by
  obtain ⟨i, q, hcur, -, -, hstate⟩ := hok.current
  unfold Call.blocking
  rw [hrun]
  cases call.wait s with
  | none => rfl
  | some w =>
    dsimp only
    rw [hcur, Option.bind_some, hstate]
    rfl

theorem blocking_of_blocked {i : Fin 64} {q : Process} {w : Wait}
    (hrun : call.run s = .ok (s', rc)) (hwait : call.wait s = some w)
    (hcur : s'.current = some (i, q)) (hblocked : q.state = .blocked) :
    call.blocking s = some ⟨s', i, q, w⟩ := by
  unfold Call.blocking
  rw [hrun, hwait]
  dsimp only
  rw [hcur, Option.bind_some, if_pos hblocked]

theorem blocking_of_not_mayBlock (h : call.mayBlock = false) : call.blocking s = none := by
  have hwait : call.wait s = none := by
    cases call with
    | waitpid => cases h
    | ttyRead => cases h
    | _ => rfl
  unfold Call.blocking
  rw [hwait]
  split
  next heq => cases heq
  next => rfl

/-- **`sys_waitpid`** does nothing, or reaps the child that it chose, or blocks. -/
theorem sysWaitpid_inv {requested flags : ℕ} {reaped : Option Process} (ht : TableOk s.table)
    (hrun : sysWaitpid requested flags s = .ok (s', rc, reaped)) :
    s' = s ∨
      (∃ i child oft, s.table.slots i = some child ∧ child.state = .zombie ∧
        s' = { s with
          table := { s.table.put i none with count := s.table.count - 1 }, oft := oft }) ∨
      ∃ i q child, waitChild requested s = some child ∧ child.state ≠ .zombie ∧
        s.current = some (i, q) ∧
        s' = { s with shouldSchedule := true }.put i
          { q with waitForPid := child.pid, state := .blocked } := by
  unfold sysWaitpid at hrun
  split at hrun
  next => cases hrun; exact .inl rfl
  next child hchild =>
    obtain ⟨j, hslot, -⟩ := waitChild_some hchild
    split at hrun
    next hzombie =>
      rw [ht.find_eq hslot] at hrun
      cases hrun
      exact .inr (.inl ⟨j, child, _, hslot, hzombie, rfl⟩)
    next halive =>
      split at hrun
      next => cases hrun; exact .inl rfl
      split at hrun
      next => cases hrun
      next i q hcur =>
        cases hrun
        exact .inr (.inr ⟨i, q, child, hchild, halive, hcur, rfl⟩)

end Blocking

namespace Tracking

variable {P : Waits → System → Prop} {C : Blocking → Prop} {g : Waits} {s s' : System}

/-- A call keeps the invariant. -/
theorem call (h : Tracking P C) {call : Call} {rc : ℤ} (hok : SysOk s) (hne : s.currentPid ≠ 2)
    (hwrap : call.handsOut = true → s.table.nextPid + 1 < 2 ^ 64) (hs : P g s)
    (hrun : call.run s = .ok (s', rc)) (hC : ∀ b ∈ call.blocking s, C b) :
    P (g.record (call.blocking s)) s' := by
  have hquiet : SysOk s' → P g s' → P (g.record (call.blocking s)) s' := by
    intro hok' hs'
    rw [blocking_of_ok hok' hrun]
    exact hs'
  by_cases hblock : call.mayBlock = false
  · rw [blocking_of_not_mayBlock hblock]
    rcases call.run_cases hrun with hch | heff
    · exact (h.keeps g).changes hok.table hs hch
    · exact (h.keeps g).effect _ _ _ hok hne hwrap hblock hs heff
  cases call with
  | ttyRead len input =>
    rcases Call.run_cases hrun with hch | heff
    · exact hquiet (hch.steady.ok hok) ((h.keeps g).changes hok.table hs hch)
    · cases heff with
      | blockRead empty current =>
        rename_i i q
        have hin := processInput_changes (s := s) input
        have hok₁ := hin.steady.ok hok
        have hb := blocking_of_blocked hrun rfl (current_put hok₁.table current rfl) rfl
        rw [hb]
        exact h.read g _ _ i q hok₁ ((h.keeps g).changes hok.table hs hin) current rfl
          (hC _ hb)
  | waitpid requested flags =>
    obtain ⟨⟨s₂, rc₂, reaped⟩, hwait, heq⟩ := ok_of_map hrun
    cases heq
    rcases sysWaitpid_inv hok.table hwait with
      rfl | ⟨i, child, oft, hi, hz, hs'⟩ | ⟨i, q, child, hchild, halive, hcur, hs'⟩
    · exact hquiet hok hs
    · have hs₂ := h.reap g s i child oft hok hs hi hz
      have hok₂ := hok.remove hi hz oft
      rw [← hs'] at hs₂ hok₂
      exact hquiet hok₂ hs₂
    · obtain ⟨j, hj, hparent⟩ := waitChild_some hchild
      have hcur' : s₂.current = some (i, { q with waitForPid := child.pid, state := .blocked }) := by
        rw [hs']
        exact current_put hok.table hcur rfl
      have hb := blocking_of_blocked hrun (by rw [Call.wait, hchild, Option.map_some]) hcur' rfl
      rw [hb]
      exact h.wait g s s₂ i j q child hok hs hcur hj hparent halive hs' (hC _ hb)
  | _ => exact absurd rfl hblock

/-- The handler of a system call keeps the invariant. -/
theorem handler (h : Tracking P C) {saved : SyscallSavedState} {call : Call} {frames : ℕ → FrameView}
    {rc : ℤ} (hok : SysOk s) (hne : s.currentPid ≠ 2)
    (hwrap : call.handsOut = true → s.table.nextPid + 1 < 2 ^ 64) (hs : P g s)
    (hC : ∀ b ∈ s.blocking (.syscall saved call frames), C b)
    (hrun : syscallHandler call { s with syscallState := saved } = .ok (s', rc)) :
    P (g.after s (.syscall saved call frames)) s' := by
  have hok₀ : SysOk { s with syscallState := saved } := ⟨hok.table, hok.runs, hok.only⟩
  have hs₀ : P g { s with syscallState := saved } := (h.keeps g).globals s _ rfl rfl hs
  unfold Waits.after
  unfold System.blocking at hC ⊢
  dsimp only at hC ⊢
  cases hcalled : s.called saved with
  | none =>
    refine (h.keeps g).handler hok₀ hne hs₀ hwrap (fun s₁ cleared hcheck => ?_) hrun
    rw [System.called, hcheck] at hcalled
    cases hcalled
  | some s₁ =>
    rw [hcalled, Option.bind_some] at hC
    rw [Option.bind_some]
    have hch := called_changes hcalled
    have hrun₁ : call.run s₁ = .ok (s', rc) := by
      rcases syscallHandler_cases hrun with ⟨s₂, hs₂, hcall⟩ | ⟨hnone, -⟩
      · rw [hcalled] at hs₂
        cases hs₂
        exact hcall
      · rw [hcalled] at hnone
        cases hnone
    exact h.call (hch.steady.ok hok₀) (hch.steady.currentPid ▸ hne) (hch.steady.nextPid ▸ hwrap)
      ((h.keeps g).changes hok₀.table hs₀ hch) hrun₁ hC

/-- **A step keeps the invariant.** -/
theorem step (h : Tracking P C) {e : Event} (hok : SysOk s) (hs : P g s) (hstep : Step s e s')
    (hwrap : e.handsOut = true → s.table.nextPid + 1 < 2 ^ 64) (hC : ∀ b ∈ s.blocking e, C b) :
    P (g.after s e) s' := by
  obtain ⟨hallowed, hhandle⟩ := hstep.handle_eq
  cases e with
  | irq rsp input frames => exact (h.keeps g).tick hok hs hhandle
  | syscall saved call frames =>
    rw [System.handle, syscallEntry] at hhandle
    split at hhandle
    next => cases hhandle
    next s₁ rc hrun =>
      have hok₀ : SysOk { s with syscallState := saved } := ⟨hok.table, hok.runs, hok.only⟩
      have hhandled := syscallHandler_handled hok₀ hallowed hwrap hrun
      have hs₁ : P (g.after s (.syscall saved call frames)) s₁ :=
        h.handler hok hallowed hwrap hs hC hrun
      split at hhandle
      next =>
        exact (h.keeps _).switchExit (s := { s₁ with shouldSchedule := false }) hhandled.table
          hhandled.notIdle ((h.keeps _).globals s₁ _ rfl rfl hs₁) hhandle
      next =>
        cases hhandle
        exact hs₁

/-- The invariant holds when the scheduler starts to select. -/
theorem scheduling (h : Tracking P C) {e : Event} {t : System} (hok : SysOk s) (hs : P g s)
    (hallowed : e.allowed s) (hwrap : e.handsOut = true → s.table.nextPid + 1 < 2 ^ 64)
    (hC : ∀ b ∈ s.blocking e, C b) (hstart : s.scheduling e = some t) :
    TableOk t.table ∧ P (g.after s e) t := by
  cases e with
  | irq rsp input frames =>
    obtain ⟨⟨i, q⟩, hcur, rfl⟩ := Option.map_eq_some_iff.mp hstart
    have hin := processInput_changes (s := s) input
    have hok₁ := hin.steady.ok hok
    have hi := current_slot hcur
    refine ⟨hok₁.table.put hi rfl fun _ => .inl rfl, ?_⟩
    refine (h.keeps _).sched _ i q rsp .ready hok₁.table ((h.keeps g).changes hok.table hs hin) hi
      (.inl rfl) fun hz => ?_
    rw [hok₁.running hcur] at hz
    cases hz
  | syscall saved call frames =>
    rw [System.scheduling] at hstart
    split at hstart
    next => cases hstart
    next s₁ rc hrun =>
      obtain ⟨⟨i, q⟩, hcur, rfl⟩ := Option.map_eq_some_iff.mp hstart
      have hok₀ : SysOk { s with syscallState := saved } := ⟨hok.table, hok.runs, hok.only⟩
      have hhandled := syscallHandler_handled hok₀ hallowed hwrap hrun
      have hs₁ : P (g.after s (.syscall saved call frames)) s₁ :=
        h.handler hok hallowed hwrap hs hC hrun
      obtain ⟨hi, hpid⟩ := ProcessTable.find_some hcur
      refine ⟨hhandled.table.put hi rfl fun h2 => ?_, ?_⟩
      · exact absurd (hpid.symm.trans h2) hhandled.notIdle
      · refine (h.keeps _).sched { s₁ with shouldSchedule := false } i q _ _ hhandled.table
          ((h.keeps _).globals s₁ _ rfl rfl hs₁) hi ?_ fun hz => ?_
        · split
          · exact .inl rfl
          · exact .inr (.inr rfl)
        · simp [hz]

/-- **The invariant holds in every state that is reached**, if it holds at the start. -/
theorem run (h : Tracking P C) [DecidablePred C] {t t' : Tracked} {es : List Event}
    (hok : SysOk t.sys) (hs : P t.waits t.sys)
    (hrun : Run (TrackedStep C) t es t')
    (hpids : t.sys.table.nextPid + es.countP Event.handsOut < 2 ^ 64) :
    SysOk t'.sys ∧ t'.sys.table.nextPid ≤ t.sys.table.nextPid + es.countP Event.handsOut ∧
      P t'.waits t'.sys := by
  induction hrun with
  | nil => exact ⟨hok, le_rfl, hs⟩
  | snoc _ hlast ih =>
    rename_i u v es e _
    rw [List.countP_append, List.countP_singleton] at hpids ⊢
    obtain ⟨hok', hnext, hs'⟩ := ih (by omega)
    obtain ⟨hstep, hwaits, hC⟩ := next_tracked hlast
    have hwrap : e.handsOut = true → u.sys.table.nextPid + 1 < 2 ^ 64 := by
      intro he
      rw [if_pos he] at hpids
      omega
    obtain ⟨hok'', hnext'⟩ := hstep.ok hok' hwrap
    refine ⟨hok'', by omega, ?_⟩
    rw [hwaits]
    exact h.step hok' hs' hstep hwrap hC

end Tracking

/-- An invariant holds in the states in which the scheduler delivers signals. -/
theorem Invariant.delivers {P : System → Prop} {C : System → Call → Prop} (h : Invariant P C)
    {frames : ℕ → FrameView} {n : ℕ} {t u : System} {view : FrameView} (ht : TableOk t.table)
    (hs : P t) (hdelivers : Delivers frames n t view u) : TableOk u.table ∧ P u := by
  induction hdelivers with
  | here found ready =>
    rename_i n s i q
    exact ⟨ht, h.globals s _ rfl rfl hs⟩
  | next killed later ih =>
    rename_i n s s₁ t cleared view
    obtain ⟨s₀, ⟨ht₀, hs₀⟩, hdeliver⟩ := schedRound_cases
      (P := fun s => TableOk s.table ∧ P s) (Q := fun s => TableOk s.table ∧ P s)
      (fun s i q hP _ _ _ => ⟨hP.1, h.globals s _ rfl rfl hP.2⟩) ⟨ht, hs⟩ killed
    rcases deliver_cases hdeliver with ⟨hnot, -, -⟩ | ⟨c, -, hne, hkilled⟩
    · exact absurd rfl (hnot cleared)
    · obtain ⟨i, q, z, events, hcur, hb, -⟩ := hkilled.buried ht₀
      have ht₁ := hb.tableOk ht₀ ((ProcessTable.find_some hcur).2 ▸ hne)
      exact ih ht₁ (h.kill _ _ _ ht₀ hne hs₀ hkilled)

end Vibix.Proc
