import Vibix.Proc.Safe

/-! # Pending signals

A pending signal is cleared by an event that consumes it: it is ignored, its handler is entered, or
the process is terminated or replaced (`Consumed`).  That holds of every step of the kernel
(`pending_until_consumed`) but one: `sigreturn` overwrites the pending signals with the mask in the
signal frame, which is what was pending when the handler was entered.  A signal that was sent since
then is lost (`sigreturn_loses_signal`), so the condition is that every signal pending at a
`sigreturn` is in the mask (`Call.keepsPending`). -/

namespace Vibix.Proc

open Vfs Relation

/-- Something in `events` has consumed the signal `b` of process `pid`. -/
def Consumed (events : List SignalEvent) (pid b : ℕ) : Prop :=
  Accounted events pid b ∨ SignalEvent.terminated pid ∈ events ∨ SignalEvent.replaced pid ∈ events

/-- Between `s` and `s'` no pending signal is lost. -/
structure Kept (s s' : System) : Prop where
  log : ∃ events, s'.signalLog = s.signalLog ++ events ∧
    ∀ i q q', s.table.slots i = some q → s'.table.slots i = some q' → q'.pid = q.pid ∧
      ∀ b, q.sigPending.getLsbD b = true →
        q'.sigPending.getLsbD b = true ∨ Consumed events q.pid b

/-- The same slots are in use. -/
def SameSlots (s s' : System) : Prop :=
  ∀ i, (s'.table.slots i).isSome = (s.table.slots i).isSome

section Kept

variable {s s' s'' : System}

theorem Consumed.mono {events events' : List SignalEvent} {pid b : ℕ} (h : Consumed events pid b)
    (hsub : events ⊆ events') : Consumed events' pid b := by
  rcases h with ⟨sig, hsig, hmem | ⟨saved, hmem⟩⟩ | hmem | hmem
  · exact .inl ⟨sig, hsig, .inl (hsub hmem)⟩
  · exact .inl ⟨sig, hsig, .inr ⟨saved, hsub hmem⟩⟩
  · exact .inr (.inl (hsub hmem))
  · exact .inr (.inr (hsub hmem))

theorem Kept.of_pending (hlog : s'.signalLog = s.signalLog)
    (hpend : ∀ i q q', s.table.slots i = some q → s'.table.slots i = some q' → q'.pid = q.pid ∧
      ∀ b, q.sigPending.getLsbD b = true → q'.sigPending.getLsbD b = true) : Kept s s' :=
  ⟨[], by rw [hlog, List.append_nil], fun i q q' hq hq' =>
    ⟨(hpend i q q' hq hq').1, fun b hb => .inl ((hpend i q q' hq hq').2 b hb)⟩⟩

theorem Kept.refl (s : System) : Kept s s := by
  refine .of_pending rfl fun i q q' hq hq' => ?_
  rw [hq] at hq'
  cases hq'
  exact ⟨rfl, fun _ h => h⟩

/-- Composition, when no slot was freed and used again. -/
theorem Kept.trans (h : Kept s s') (h' : Kept s' s'')
    (hmid : ∀ i, (s.table.slots i).isSome → (s''.table.slots i).isSome →
      (s'.table.slots i).isSome) : Kept s s'' := by
  obtain ⟨events, hlog, hkept⟩ := h.log
  obtain ⟨events', hlog', hkept'⟩ := h'.log
  refine ⟨events ++ events', by rw [hlog', hlog, List.append_assoc], fun i q q'' hq hq'' => ?_⟩
  obtain ⟨q', hq'⟩ := Option.isSome_iff_exists.mp (hmid i (by rw [hq]; rfl) (by rw [hq'']; rfl))
  obtain ⟨hpid, hbits⟩ := hkept i q q' hq hq'
  obtain ⟨hpid', hbits'⟩ := hkept' i q' q'' hq' hq''
  refine ⟨hpid'.trans hpid, fun b hb => ?_⟩
  rcases hbits b hb with hb' | hc
  · refine (hbits' b hb').imp_right fun hc => ?_
    rw [hpid] at hc
    exact hc.mono (List.subset_append_right _ _)
  · exact .inr (hc.mono (List.subset_append_left _ _))

/-- One process changes. -/
theorem Kept.put {i : Fin 64} {q q' : Process} {events : List SignalEvent}
    (hi : s.table.slots i = some q) (hpid : q'.pid = q.pid)
    (hpend : ∀ b, q.sigPending.getLsbD b = true →
      q'.sigPending.getLsbD b = true ∨ Consumed events q.pid b) :
    Kept s ((s.log events).put i q') := by
  refine ⟨events, rfl, fun j r r' hr hr' => ?_⟩
  rcases slots_put_some hr' with ⟨rfl, rfl⟩ | ⟨-, hold⟩
  · rw [hi] at hr
    cases hr
    exact ⟨hpid, hpend⟩
  · have hsame : s.table.slots j = some r' := hold
    rw [hr] at hsame
    cases hsame
    exact ⟨rfl, fun _ h => .inl h⟩

theorem SameSlots.put {i : Fin 64} {q q' : Process} (hi : s.table.slots i = some q) :
    SameSlots s (s.put i q') := by
  intro j
  by_cases hj : j = i
  · subst hj
    change ((s.table.put j (some q')).slots j).isSome = _
    rw [ProcessTable.put_same, hi]
    rfl
  · change ((s.table.put i (some q')).slots j).isSome = _
    rw [ProcessTable.put_ne hj]

theorem SameSlots.trans (h : SameSlots s s') (h' : SameSlots s' s'') : SameSlots s s'' :=
  fun i => (h' i).trans (h i)

theorem Steady.sameSlots (h : Steady s s') : SameSlots s s' := by
  intro i
  have hslot := h.slots i
  revert hslot
  cases s.table.slots i <;> cases s'.table.slots i <;> simp

/-- The PIDs and the pending signals of a table. -/
def ProcessTable.pending (t : ProcessTable) (i : Fin 64) : Option (ℕ × BitVec 64) :=
  (t.slots i).map fun q => (q.pid, q.sigPending)

theorem pending_put {t : ProcessTable} {i : Fin 64} {q q' : Process} (hi : t.slots i = some q)
    (hpid : q'.pid = q.pid) (hpend : q'.sigPending = q.sigPending) (j : Fin 64) :
    (t.put i (some q')).pending j = t.pending j := by
  unfold ProcessTable.pending
  by_cases hj : j = i
  · subst hj
    rw [ProcessTable.put_same, hi, Option.map_some, Option.map_some, hpid, hpend]
  · rw [ProcessTable.put_ne hj]

/-- `mark_zombie` leaves PIDs and pending signals alone. -/
theorem markZombie_pending {t t' : ProcessTable} {pid code : ℕ} {cleared : Option ℕ}
    (h : t.markZombie pid code = some (t', cleared)) (j : Fin 64) : t'.pending j = t.pending j := by
  obtain ⟨i, q, hfind, hcases⟩ := markZombie_cases h
  have hz := pending_put (ProcessTable.find_some hfind).1
    (show ({ q with state := .zombie, exitCode := code } : Process).pid = q.pid from rfl) rfl j
  rcases hcases with ⟨rfl, -, -⟩ | ⟨k, p, hp, -, -, rfl, -⟩
  · exact hz
  · refine (pending_put (ProcessTable.find_some hp).1 ?_ ?_ j).trans hz <;> rfl

/-- Tables with the same pending signals. -/
theorem Kept.of_table (hlog : s'.signalLog = s.signalLog)
    (h : ∀ j, s'.table.pending j = s.table.pending j) : Kept s s' := by
  refine .of_pending hlog fun i q q' hq hq' => ?_
  have hi := h i
  rw [ProcessTable.pending, ProcessTable.pending, hq, hq', Option.map_some, Option.map_some,
    Option.some.injEq, Prod.mk.injEq] at hi
  exact ⟨hi.1, fun b hb => by rw [hi.2]; exact hb⟩

theorem wakeReader_kept : Kept s s.wakeReader := by
  unfold System.wakeReader
  split
  next => exact .refl s
  dsimp only
  split
  next => exact .of_table rfl fun _ => rfl
  next i q hfind =>
    split
    next => exact .of_table rfl (pending_put (ProcessTable.find_some hfind).1 rfl rfl)
    next => exact .of_table rfl fun _ => rfl

theorem Change.kept (h : Change s s') : Kept s s' := by
  cases h with
  | globals table current stack waiting sched log =>
    exact .of_table log fun j => by rw [table]
  | update slot role code handler pending kill =>
    rename_i i q q'
    have hpid : q'.pid = q.pid := (congrArg Process.pid role :)
    have hput : Kept s ((s.log []).put i q') := .put slot hpid fun b hb => .inl (pending b hb)
    rwa [log_nil] at hput
  | consume current idle signals pending =>
    exact .put (current_slot current) signals.pid_eq fun b hb => (pending b hb).imp_right .inl
  | wake slot blocked => exact .of_table rfl (pending_put slot rfl rfl)
  | wakeReader => exact wakeReader_kept
  | forgetReader idle => exact .of_table rfl fun _ => rfl

theorem Changes.kept (h : Changes s s') : Kept s s' := by
  induction h with
  | refl => exact .refl s
  | tail hch hlast ih =>
    refine ih.trans hlast.kept fun i hi _ => ?_
    rw [(Changes.steady hch).sameSlots i]
    exact hi

theorem Killed.sameSlots {cleared : Option ℕ} (h : Killed s s' cleared) : SameSlots s s' := by
  cases h with
  | mk current signals zombie =>
    rename_i i q q' events code table
    have hput : SameSlots s (s.put i q') := .put (current_slot current)
    refine hput.trans fun j => ?_
    have hj := congrArg Option.isSome (markZombie_pending zombie j)
    simpa [ProcessTable.pending] using hj

theorem Killed.kept {cleared : Option ℕ} (h : Killed s s' cleared) : Kept s s' := by
  cases h with
  | mk current signals zombie =>
    rename_i i q q' events code table
    refine ⟨events ++ [.terminated q.pid], by rw [List.append_assoc], fun j r r' hr hr' => ?_⟩
    have hj := markZombie_pending zombie j
    by_cases hji : j = i
    · subst hji
      rw [current_slot current] at hr
      cases hr
      have hslot : (s.put j q').table.slots j = some q' := ProcessTable.put_same
      rw [ProcessTable.pending, ProcessTable.pending, hr', hslot, Option.map_some,
        Option.map_some, Option.some.injEq, Prod.mk.injEq] at hj
      exact ⟨hj.1.trans signals.pid_eq, fun b _ => .inr (.inr (.inl (by simp)))⟩
    · have hslot : (s.put i q').table.slots j = some r := (ProcessTable.put_ne hji).trans hr
      rw [ProcessTable.pending, ProcessTable.pending, hr', hslot, Option.map_some,
        Option.map_some, Option.some.injEq, Prod.mk.injEq] at hj
      exact ⟨hj.1, fun b hb => .inl (by rw [hj.2]; exact hb)⟩

end Kept

section Steps

variable {s s' : System} {call : Call}

/-- At `sigreturn` every pending signal is in the mask. -/
def Call.keepsPending (s : System) : Call → Prop
  | .sigreturn mask => ∀ r ∈ s.current, r.2.sigframeRsp ≠ 0 → r.2.sigPending &&& mask = r.2.sigPending
  | _ => True

instance (s : System) (call : Call) : Decidable (call.keepsPending s) := by
  unfold Call.keepsPending
  split <;> infer_instance

/-- **The effect of a system call.** -/
theorem Effect.kept (h : Effect call s s') (hkeeps : call.keepsPending s) : Kept s s' := by
  cases h with
  | blockRead empty current =>
    rename_i len input i q
    have hin := processInput_changes (s := s) input
    refine hin.kept.trans (.of_table rfl (pending_put (current_slot current) rfl rfl)) ?_
    intro j hj _
    rw [hin.steady.sameSlots j]
    exact hj
  | blockWait current slot parent alive =>
    exact .of_table rfl (pending_put (current_slot current) rfl rfl)
  | reap slot parent zombie found =>
    rename_i requested flags i j child reaped oft
    refine .of_pending rfl fun a q q' hq hq' => ?_
    by_cases ha : a = i
    · subst ha
      have hnone : (s.table.put a none).slots a = some q' := hq'
      rw [ProcessTable.put_same] at hnone
      cases hnone
    · have hsame : s.table.slots a = some q' := (ProcessTable.put_ne ha).symm.trans hq'
      rw [hq] at hsame
      cases hsame
      exact ⟨rfl, fun _ h => h⟩
  | exit killed => exact ⟨killed.kept.log⟩
  | noSlot => exact .of_table rfl fun _ => rfl
  | fork current free =>
    rename_i i j parent base root oft
    refine .of_pending rfl fun a q q' hq hq' => ?_
    rcases slots_put_some hq' with ⟨rfl, rfl⟩ | ⟨-, hold⟩
    · rw [free] at hq
      cases hq
    · rw [hq] at hold
      cases hold
      exact ⟨rfl, fun _ h => h⟩
  | exec current =>
    rename_i i q image oft saved
    have hput : Kept s ((s.log [.replaced q.pid]).put i (q.exec image)) :=
      .put (current_slot current) rfl fun b _ => .inr (.inr (.inr (by simp)))
    exact ⟨hput.log⟩
  | sigreturn current frame =>
    rename_i mask i q
    have hmask := hkeeps (i, q) current frame
    have hput : Kept s ((s.log []).put i
        { q with sigframeRsp := 0, inSignal := false, sigPending := mask }) := by
      refine .put (current_slot current) rfl fun b hb => .inl ?_
      have hand : (q.sigPending &&& mask).getLsbD b = true := by
        rw [hmask]
        exact hb
      rw [BitVec.getLsbD_and, Bool.and_eq_true] at hand
      exact hand.2
    rw [log_nil] at hput
    exact ⟨hput.log⟩

theorem schedule_kept {frames : ℕ → FrameView} {n : ℕ} (hrun : schedule frames n s = .ok s') :
    Kept s s' ∧ SameSlots s s' := by
  refine schedule_induct (P := fun t => Kept s t ∧ SameSlots s t)
    (Q := fun t => Kept s t ∧ SameSlots s t) (R := fun t => Kept s t ∧ SameSlots s t) ?_ ?_ ?_ hrun
    ⟨.refl s, fun _ => rfl⟩
  · rintro t i q ⟨hk, hsame⟩ - - -
    exact ⟨⟨hk.log⟩, hsame⟩
  · rintro t u cleared ⟨hk, hsame⟩ - hkilled
    exact ⟨hk.trans hkilled.kept fun i hi _ => by rwa [hsame i], hsame.trans hkilled.sameSlots⟩
  · rintro t u i q ⟨hk, hsame⟩ hch hcur
    have hsame' := hsame.trans hch.steady.sameSlots
    have hk' : Kept s u := hk.trans hch.kept fun i hi _ => by rwa [hsame i]
    have hi := current_slot hcur
    refine ⟨hk'.trans (.of_table rfl (pending_put hi rfl rfl)) fun j hj _ => ?_, hsame'.trans (.put hi)⟩
    rwa [hsame' j]

/-- The condition on events: see `Call.keepsPending`. -/
def Event.keepsPending (s : System) : Event → Prop
  | .syscall saved call _ => ∀ s₁ ∈ s.called saved, call.keepsPending s₁
  | .irq .. => True

theorem syscallHandler_kept {rc : ℤ}
    (hkeeps : ∀ s₁ cleared, checkSignalsSyscall s = .ok (s₁, .none, cleared) →
      call.keepsPending s₁)
    (hrun : syscallHandler call s = .ok (s', rc)) : Kept s s' := by
  unfold syscallHandler at hrun
  split at hrun
  next => cases hrun
  next s₁ cleared hcheck =>
    rcases checkSignals_cases hcheck with ⟨-, hch, -, -⟩ | ⟨hres, -⟩
    · have hsame := hch.steady.sameSlots
      refine hch.kept.trans ?_ fun i hi _ => by rwa [hsame i]
      rcases call.run_cases hrun with hch' | heff
      · exact hch'.kept
      · exact heff.kept (hkeeps s₁ cleared hcheck)
    · cases hres
  next s₁ res cleared hres hcheck =>
    cases hrun
    rcases checkSignals_cases hcheck with ⟨-, hch, -, -⟩ | ⟨-, hkilled⟩
    · exact ⟨hch.kept.log⟩
    · exact ⟨hkilled.kept.log⟩

/-- A table put aside for the scheduler, and the scheduler's work. -/
theorem put_schedule_kept {i : Fin 64} {q q' : Process} {frames : ℕ → FrameView} {n : ℕ}
    (hrun : schedule frames n (s.put i q') = .ok s') (hi : s.table.slots i = some q)
    (hpid : q'.pid = q.pid) (hpend : q'.sigPending = q.sigPending) :
    Kept s s' ∧ SameSlots s s' := by
  obtain ⟨hk, hsame⟩ := schedule_kept hrun
  have hput : SameSlots s (s.put i q') := .put hi
  have hkept : Kept s (s.put i q') := .of_table rfl (pending_put hi hpid hpend)
  exact ⟨hkept.trans hk fun j hj _ => by rwa [hput j], hput.trans hsame⟩

/-- **A step loses no pending signal**, if a `sigreturn` in it restores all of them. -/
theorem Step.kept {e : Event} (hstep : Step s e s') (hkeeps : e.keepsPending s) : Kept s s' := by
  obtain ⟨hallowed, hhandle⟩ := hstep.handle_eq
  cases e with
  | irq rsp input frames =>
    have hin := processInput_changes (s := s) input
    unfold System.handle schedulerTick at hhandle
    dsimp only at hhandle
    split at hhandle
    next =>
      cases hhandle
      exact hin.kept
    split at hhandle
    next => cases hhandle
    next i q hcur =>
      obtain ⟨hk, -⟩ := put_schedule_kept hhandle (current_slot hcur) rfl rfl
      refine hin.kept.trans hk fun j hj _ => ?_
      rw [hin.steady.sameSlots j]
      exact hj
  | syscall saved call frames =>
    rw [System.handle, syscallEntry] at hhandle
    split at hhandle
    next => cases hhandle
    next s₁ rc hrun =>
      have hk : Kept s s₁ := by
        refine ⟨(syscallHandler_kept (fun s₂ cleared hcheck => hkeeps s₂ ?_) hrun).log⟩
        simp only [System.called, hcheck, Option.mem_def]
      split at hhandle
      next =>
        unfold schedulerSwitchExit at hhandle
        split at hhandle
        next => cases hhandle
        next i q hcur =>
          obtain ⟨hk', hsame⟩ := put_schedule_kept hhandle (current_slot hcur) rfl rfl
          refine hk.trans ⟨hk'.log⟩ fun j _ hj => ?_
          have hslot := hsame j
          rw [hj] at hslot
          exact hslot.symm
      next =>
        cases hhandle
        exact hk

/-- **Signals are pending until consumed.**  In a step from any state, a pending signal of a process
stays pending, or the step has ignored it, entered its handler, terminated the process, or replaced
its image; if the step is a `sigreturn`, provided that every signal pending then is in the mask that
it restores. -/
theorem pending_until_consumed {e : Event} (hstep : Step s e s') (hkeeps : e.keepsPending s) :
    ∃ events, s'.signalLog = s.signalLog ++ events ∧
      ∀ i q q', s.table.slots i = some q → s'.table.slots i = some q' → ∀ bit,
        q.sigPending.getLsbD bit = true →
          q'.sigPending.getLsbD bit = true ∨ Consumed events q.pid bit := by
  obtain ⟨events, hlog, hkept⟩ := (hstep.kept hkeeps).log
  exact ⟨events, hlog, fun i q q' hq hq' => (hkept i q q' hq hq').2⟩

/-- Init handles `SIGUSR1`, and sends itself that signal. -/
def usr1Events : List Event :=
  [.syscall ⟨0#64, 0#64, 0#64⟩ (.sigaction 10 (some ⟨0x400000#64, 0#64, 0#64⟩)) fun _ => ⟨true, 0x3000⟩,
    .syscall ⟨0#64, 0#64, 0#64⟩ (.kill 1 10) fun _ => ⟨true, 0x3000⟩,
    .irq 0 [] fun _ => ⟨true, 0x3000⟩]

/-- The interrupt after the next one enters the handler. -/
theorem pending_until_consumed_usr1 :
    ∃ s s', Run Step (startScheduler (spawnInit ⟨⟨0, 0, 0x3000, 0⟩, 0, 0, 0, 0⟩ ⟨0, none, true⟩))
        usr1Events s ∧ Step s (.irq 0 [] fun _ => ⟨true, 0x3000⟩) s' ∧
      ((s.table.slots 0).map Process.sigPending = some 0x400#64 ∧
        (s'.table.slots 0).map Process.sigPending = some 0#64) ∧
      ∃ events, s'.signalLog = s.signalLog ++ events ∧
        ∀ i q q', s.table.slots i = some q → s'.table.slots i = some q' → ∀ bit,
          q.sigPending.getLsbD bit = true →
            q'.sigPending.getLsbD bit = true ∨ Consumed events q.pid bit := by
  refine Exists.imp (fun s h => Exists.imp (fun s' h' => ⟨h.1, h'.1, h'.2, pending_until_consumed h'.1
      (by exact trivial)⟩) h.2)
    (?_ : ∃ s, Run Step _ usr1Events s ∧ ∃ s', Step s (.irq 0 [] fun _ => ⟨true, 0x3000⟩) s' ∧
      (s.table.slots 0).map Process.sigPending = some 0x400#64 ∧
        (s'.table.slots 0).map Process.sigPending = some 0#64)
  decide +kernel

/-- **`sigreturn` loses a signal**: while its handler for `SIGUSR1` runs, init sends itself
`SIGUSR2`; the handler then returns with the mask that was saved when it was entered.  `SIGUSR2` is no
longer pending, and nothing has consumed it. -/
theorem sigreturn_loses_signal :
    ∃ s s', Run Step (startScheduler (spawnInit ⟨⟨0, 0, 0x3000, 0⟩, 0, 0, 0, 0⟩ ⟨0, none, true⟩))
        (usr1Events ++ [.irq 0 [] fun _ => ⟨true, 0x3000⟩,
          .syscall ⟨0#64, 0#64, 0#64⟩ (.kill 1 12) fun _ => ⟨true, 0x3000⟩]) s ∧
      Step s (.syscall ⟨0#64, 0#64, 0#64⟩ (.sigreturn 0#64) fun _ => ⟨true, 0x3000⟩) s' ∧
      s.signalLog = [.entered 1 10 0#64] ∧
      (s.table.slots 0).map Process.sigPending = some 0x1000#64 ∧
      (s'.table.slots 0).map (fun q => (q.pid, q.sigPending)) = some (1, 0#64) ∧
      s'.signalLog = s.signalLog := by
  simp only [exists_and_left]
  decide +kernel

end Steps

end Vibix.Proc
