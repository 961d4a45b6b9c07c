import Vibix.Proc.Safe

/-! # The rule for invariants of the process side

Everything that a step does to the processes is an elementary change, the termination of the current
process, the effect of one system call, or the scheduler's making a process ready or running.
`Invariant P C` says that all of these keep `P`, the effect of a call if it meets the condition `C`;
then steps keep `P` (`Invariant.step`), and so do runs (`Invariant.run`). -/

namespace Vibix.Proc

open Vfs Relation

/-- What an invariant `P` of the process side has to be kept by, for it to be kept by the steps whose
calls meet the condition `C` in the state in which they run. -/
structure Invariant (P : System → Prop) (C : System → Call → Prop) : Prop where
  globals : ∀ s s', s'.table = s.table → s'.tty = s.tty → P s → P s'
  change : ∀ s s', TableOk s.table → P s → Change s s' → P s'
  kill : ∀ s s' cleared, TableOk s.table → s.currentPid ≠ 2 → P s → Killed s s' cleared → P s'
  effect : ∀ s s' call, SysOk s → s.currentPid ≠ 2 →
    (call.handsOut = true → s.table.nextPid + 1 < 2 ^ 64) → C s call → P s → Effect call s s' → P s'
  /-- The scheduler sets the stack pointer of a process, and makes it ready or running if it is not a
  zombie. -/
  sched : ∀ s i q rsp st, TableOk s.table → P s → s.table.slots i = some q →
    (st = .ready ∨ st = .running ∨ st = q.state) → (q.state = .zombie → st = .zombie) →
    P (s.put i { q with kernelRsp := rsp, state := st })

namespace Invariant

variable {s s' : System} {P : System → Prop} {C : System → Call → Prop}

theorem changes (h : Invariant P C) (ht : TableOk s.table) (hs : P s) (hch : Changes s s') :
    P s' := by
  induction hch with
  | refl => exact hs
  | tail hch hlast ih => exact h.change _ _ ((Changes.steady hch).tableOk ht) ih hlast

theorem schedule (h : Invariant P C) {frames : ℕ → FrameView} {n : ℕ} (ht : TableOk s.table)
    (hs : P s) (hrun : schedule frames n s = .ok s') : P s' := by
  refine schedule_induct (P := fun s => TableOk s.table ∧ P s)
    (Q := fun s => TableOk s.table ∧ P s ∧ s.Ready) (R := P) ?_ ?_ ?_ hrun ⟨ht, hs⟩
  · rintro s i q ⟨ht, hs⟩ hi hpid hready
    exact ⟨ht, h.globals s _ rfl rfl hs, i, q, hi, hpid, hready⟩
  · rintro s s' cleared ⟨ht, hs, -⟩ hne hkilled
    refine ⟨?_, h.kill _ _ _ ht hne hs hkilled⟩
    obtain ⟨i, q, z, events, hcur, hb, -⟩ := hkilled.buried ht
    exact hb.tableOk ht ((ProcessTable.find_some hcur).2 ▸ hne)
  · rintro s s' i q ⟨ht, hs, hready⟩ hch hcur
    have ht' := hch.steady.tableOk ht
    have hstate := (hch.steady.ready hready).state_eq ht' hcur
    refine h.sched s' i q q.kernelRsp .running ht' (h.changes ht hs hch) (current_slot hcur)
      (.inr (.inl rfl)) fun hz => ?_
    rw [hstate] at hz
    cases hz

theorem tick (h : Invariant P C) {rsp : ℕ} {input : List (BitVec 8)} {frames : ℕ → FrameView}
    (hok : SysOk s) (hs : P s) (hrun : schedulerTick rsp input frames s = .ok s') : P s' := by
  have hin := processInput_changes (s := s) input
  have hok₁ := hin.steady.ok hok
  have hs₁ := h.changes hok.table hs hin
  unfold schedulerTick at hrun
  dsimp only at hrun
  split at hrun
  next =>
    cases hrun
    exact hs₁
  split at hrun
  next => cases hrun
  next i q hcur =>
    have hi := current_slot hcur
    refine h.schedule (hok₁.table.put hi ?_ fun _ => ?_) ?_ hrun
    · rfl
    · exact .inl rfl
    · refine h.sched _ i q rsp .ready hok₁.table hs₁ hi (.inl rfl) fun hz => ?_
      rw [hok₁.running hcur] at hz
      cases hz

theorem switchExit (h : Invariant P C) {rsp : ℕ} {frames : ℕ → FrameView} (ht : TableOk s.table)
    (hne : s.currentPid ≠ 2) (hs : P s) (hrun : schedulerSwitchExit rsp frames s = .ok s') :
    P s' := by
  unfold schedulerSwitchExit at hrun
  split at hrun
  next => cases hrun
  next i q hcur =>
    obtain ⟨hi, hpid⟩ := ProcessTable.find_some hcur
    refine h.schedule (ht.put hi ?_ fun h2 => ?_) ?_ hrun
    · rfl
    · exact absurd (hpid.symm.trans h2) hne
    · refine h.sched s i q rsp _ ht hs hi ?_ fun hz => ?_
      · split
        · exact .inl rfl
        · exact .inr (.inr rfl)
      · simp [hz]

theorem handler (h : Invariant P C) {call : Call} {rc : ℤ} (hok : SysOk s) (hne : s.currentPid ≠ 2)
    (hs : P s) (hwrap : call.handsOut = true → s.table.nextPid + 1 < 2 ^ 64)
    (hcond : ∀ s₁ cleared, checkSignalsSyscall s = .ok (s₁, .none, cleared) → C s₁ call)
    (hrun : syscallHandler call s = .ok (s', rc)) : P s' := by
  unfold syscallHandler at hrun
  split at hrun
  next => cases hrun
  next s₁ cleared hcheck =>
    rcases checkSignals_cases hcheck with ⟨-, hch, -, -⟩ | ⟨hres, -⟩
    · have hok₁ := hch.steady.ok hok
      have hs₁ := h.changes hok.table hs hch
      rcases call.run_cases hrun with hch' | heff
      · exact h.changes hok₁.table hs₁ hch'
      · exact h.effect _ _ call hok₁ (hch.steady.currentPid ▸ hne) (hch.steady.nextPid ▸ hwrap)
          (hcond s₁ cleared hcheck) hs₁ heff
    · cases hres
  next s₁ res cleared hres hcheck =>
    cases hrun
    refine h.globals s₁ _ rfl rfl ?_
    rcases checkSignals_cases hcheck with ⟨-, hch, -, -⟩ | ⟨-, hkilled⟩
    · exact h.changes hok.table hs hch
    · exact h.kill _ _ _ hok.table hne hs hkilled

/-- **A step keeps an invariant.** -/
theorem step (h : Invariant P C) {e : Event} (hok : SysOk s) (hs : P s) (hstep : Step s e s')
    (hwrap : e.handsOut = true → s.table.nextPid + 1 < 2 ^ 64)
    (hcond : ∀ saved call frames, e = .syscall saved call frames →
      ∀ s₁ ∈ s.called saved, C s₁ call) : P s' := by
  obtain ⟨hallowed, hhandle⟩ := hstep.handle_eq
  cases e with
  | irq rsp input frames => exact h.tick hok hs hhandle
  | syscall saved call frames =>
    have hok₀ : SysOk { s with syscallState := saved } := ⟨hok.table, hok.runs, hok.only⟩
    have hs₀ : P { s with syscallState := saved } := h.globals s _ rfl rfl hs
    rw [System.handle, syscallEntry] at hhandle
    split at hhandle
    next => cases hhandle
    next s₁ rc hrun =>
      have hhandled := syscallHandler_handled hok₀ hallowed hwrap hrun
      have hs₁ : P s₁ := by
        refine h.handler hok₀ hallowed hs₀ hwrap (fun s₂ cleared hcheck => ?_) hrun
        refine hcond saved call frames rfl s₂ ?_
        simp only [System.called, hcheck, Option.mem_def]
      split at hhandle
      next =>
        exact h.switchExit (s := { s₁ with shouldSchedule := false }) hhandled.table
          hhandled.notIdle (h.globals s₁ _ rfl rfl hs₁) hhandle
      next =>
        cases hhandle
        exact hs₁

/-- **An invariant holds in every state that is reached**, if it holds at the start. -/
theorem run (h : Invariant P C) {es : List Event} (hok : SysOk s) (hs : P s)
    (hrun : Run (fun s e s' => Step s e s' ∧ ∀ saved call frames, e = .syscall saved call frames →
      ∀ s₁ ∈ s.called saved, C s₁ call) s es s')
    (hpids : s.table.nextPid + es.countP Event.handsOut < 2 ^ 64) : P s' := by
  induction hrun with
  | nil => exact hs
  | snoc hinit hlast ih =>
    rename_i t u es e
    rw [List.countP_append, List.countP_singleton] at hpids
    obtain ⟨hok', hnext⟩ := run_ok hok (hinit.mono fun _ _ _ h => h.1) (by omega)
    refine h.step hok' (ih (by omega)) hlast.1 (fun he => ?_) hlast.2
    rw [if_pos he] at hpids
    omega

end Invariant

end Vibix.Proc
