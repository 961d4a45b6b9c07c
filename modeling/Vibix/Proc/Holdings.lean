import Vibix.Lib.Run
import Vibix.Proc.Changes
import Vibix.Proc.Files
import Vibix.Proc.Sched

/-! # What processes hold

A process holds page tables, a kernel stack and open files.  Only a few events change who holds
what: `fork`, `exec`, the calls that open and close descriptors, and the `waitpid` that reaps a
child.  All others, the interrupts and the exits among them, are quiet: `Keeps` says that all slots
hold what they held, `quiet_step` that a quiet step has this property, and `quiet_run` that a run
of such steps has it. -/

namespace Vibix.Proc

open Vfs RefCount OpenFileTable

/-- The holdings are the same, and the open file table is still in balance with them. -/
structure Keeps (s s' : System) : Prop where
  held : s'.table.held = s.table.held
  count : s'.table.count = s.table.count
  files : s.FilesOk → s'.FilesOk

/-! ### Signals and the scheduler -/

section Scheduler

variable {s s' s'' : System}

theorem Keeps.trans (h : Keeps s s') (h' : Keeps s' s'') : Keeps s s'' :=
  ⟨h'.held.trans h.held, h'.count.trans h.count, h'.files ∘ h.files⟩

theorem Calm.keeps (h : Calm s s') : Keeps s s' :=
  ⟨h.held, h.count, (h.moves (V := ∅)).files⟩

theorem calm_of_checkSignals {res : SignalResult} {c : Option ℕ}
    (hrun : checkSignalsSyscall s = .ok (s', res, c)) : Calm s s' := by
  rcases checkSignals_calm hrun with ⟨-, hch, -⟩ | ⟨-, hkilled⟩
  · exact hch.calm
  · exact hkilled.calm

theorem schedRound_calm {frame : FrameView} {d : Delivery}
    (hrun : schedRound frame s = .ok (s', d)) : Calm s s' := by
  unfold schedRound at hrun
  split at hrun
  next => cases hrun
  split at hrun
  next => cases hrun
  next i q _ _ =>
    let s₀ : System := { s with currentPid := schedNext s, kernelStack := q.kernelStackTop }
    have hselect : Calm s s₀ := ⟨rfl, rfl, rfl⟩
    refine hselect.trans ?_
    rcases deliver_calm (s := s₀) hrun with ⟨-, hch, -⟩ | ⟨_, -, -, hkilled⟩
    · exact hch.calm
    · exact hkilled.calm

theorem schedule_calm {frames : ℕ → FrameView} {n : ℕ} (hrun : schedule frames n s = .ok s') :
    Calm s s' := by
  induction n generalizing s with
  | zero => cases hrun
  | succ n ih =>
    unfold schedule at hrun
    split at hrun
    next => cases hrun
    next hround => exact (schedRound_calm hround).trans (ih hrun)
    next hround =>
      refine (schedRound_calm hround).trans ?_
      unfold System.resume at hrun
      split at hrun
      next => cases hrun
      next i q hcur =>
        cases hrun
        exact .put (current_slot hcur) rfl

theorem schedulerTick_calm {rsp : ℕ} {input : List (BitVec 8)} {frames : ℕ → FrameView}
    (hrun : schedulerTick rsp input frames s = .ok s') : Calm s s' := by
  have hin := (processInput_calm (s := s) input).calm
  unfold schedulerTick at hrun
  dsimp only at hrun
  split at hrun
  next => cases hrun; exact hin
  split at hrun
  next => cases hrun
  next i q hcur =>
    refine hin.trans (Calm.trans ?_ (schedule_calm hrun))
    exact .put (current_slot hcur) rfl

theorem schedulerSwitchExit_calm {rsp : ℕ} {frames : ℕ → FrameView}
    (hrun : schedulerSwitchExit rsp frames s = .ok s') : Calm s s' := by
  unfold schedulerSwitchExit at hrun
  split at hrun
  next => cases hrun
  next i q hcur =>
    refine Calm.trans ?_ (schedule_calm hrun)
    exact .put (current_slot hcur) rfl

end Scheduler

/-! ### System calls -/

/-- The calls that give nothing to a process and take nothing from one, in the state in which they
are run. -/
def Call.Quiet (s : System) : Call → Prop
  | .openPath .. | .close .. | .dup .. | .dup2 .. | .pipe .. | .fork .. | .exec .. => False
  | .waitpid requested _ => ∀ child, waitChild requested s = some child → child.state ≠ .zombie
  | _ => True

/-- An interrupt, or a system call that is quiet when it is run. -/
def Event.Quiet (s : System) : Event → Prop
  | .irq .. => True
  | .syscall saved call _ => ∀ s₁ ∈ s.called saved, call.Quiet s₁

/-- A step that is quiet. -/
def QuietStep (s : System) (e : Event) (s' : System) : Prop := Step s e s' ∧ e.Quiet s

section Calls

variable {s s' : System} {rc : ℤ}

theorem sysExit_calm {code : ℕ} {c : Option ℕ} (hrun : sysExit code s = .ok (s', c)) :
    Calm s s' := by
  obtain ⟨s₁, hkilled, rfl⟩ := sysExit_killed hrun
  exact hkilled.calm.trans ⟨rfl, rfl, rfl⟩

theorem sysWaitpid_calm {requested flags : ℕ} {reaped : Option Process}
    (hquiet : (Call.waitpid requested flags).Quiet s)
    (hrun : sysWaitpid requested flags s = .ok (s', rc, reaped)) : Calm s s' := by
  unfold sysWaitpid at hrun
  split at hrun
  next => cases hrun; exact .refl _
  next child hchild =>
    rw [if_neg (hquiet child hchild)] at hrun
    split at hrun
    next => cases hrun; exact .refl _
    split at hrun
    next => cases hrun
    next i q hcur =>
      cases hrun
      exact ⟨held_put (current_slot hcur) rfl, rfl, rfl⟩

theorem sysSigreturn_calm {mask : BitVec 64} (hrun : sysSigreturn mask s = .ok (s', rc)) :
    Calm s s' := by
  unfold sysSigreturn at hrun
  split at hrun
  next => cases hrun
  next i q hcur =>
    split at hrun
    next => cases hrun; exact .refl _
    next =>
      cases hrun
      exact ⟨held_put (current_slot hcur) rfl, rfl, rfl⟩

theorem ttyRead_calm {len : ℕ} {input : List (BitVec 8)}
    (hrun : ttyRead len input s = .ok (s', rc)) : Calm s s' := by
  rcases ttyRead_cases hrun with hch | heff
  · exact hch.calm
  · cases heff with
    | blockRead empty current =>
      exact (processInput_calm input).calm.trans ⟨held_put (current_slot current) rfl, rfl, rfl⟩

/-- **Quiet calls.** -/
theorem Call.run_keeps {call : Call} (hquiet : call.Quiet s) (hrun : call.run s = .ok (s', rc)) :
    Keeps s s' := by
  cases call with
  | exit code =>
    obtain ⟨⟨s₁, c⟩, hexit, heq⟩ := ok_of_map hrun
    cases heq
    exact (sysExit_calm hexit).keeps
  | waitpid requested flags =>
    obtain ⟨⟨s₁, rc₁, reaped⟩, hwait, heq⟩ := ok_of_map hrun
    cases heq
    exact (sysWaitpid_calm hquiet hwait).keeps
  | kill pid sig => exact (sysKill_calm hrun).calm.keeps
  | sigaction signum act => exact (sysSigaction_calm hrun).calm.keeps
  | sigreturn mask => exact (sysSigreturn_calm hrun).keeps
  | ttyRead len input => exact (ttyRead_calm hrun).keeps
  | transfer idx offset rc =>
    cases hrun
    exact ⟨rfl, rfl, moveOffset_files idx offset⟩
  | setBreak brk errno rc =>
    obtain ⟨s₁, hset, heq⟩ := ok_of_map hrun
    cases heq
    exact (setBreak_calm hset).calm.keeps
  | other rc =>
    cases hrun
    exact (Calm.refl s).keeps
  | _ => exact hquiet.elim

theorem syscallHandler_keeps {call : Call}
    (hquiet : ∀ s₁ c, checkSignalsSyscall s = .ok (s₁, .none, c) → call.Quiet s₁)
    (hrun : syscallHandler call s = .ok (s', rc)) : Keeps s s' := by
  unfold syscallHandler at hrun
  split at hrun
  next => cases hrun
  next s₁ c hcheck =>
    exact (calm_of_checkSignals hcheck).keeps.trans (Call.run_keeps (hquiet s₁ c hcheck) hrun)
  next s₁ res c _ hcheck =>
    cases hrun
    refine ((calm_of_checkSignals hcheck).trans ?_).keeps
    exact ⟨rfl, rfl, rfl⟩

/-- **A quiet step** leaves all holdings as they are. -/
theorem quiet_step {e : Event} (h : QuietStep s e s') : Keeps s s' := by
  obtain ⟨hstep, hquiet⟩ := h
  obtain ⟨-, hhandle⟩ := hstep.handle_eq
  cases e with
  | irq rsp input frames => exact (schedulerTick_calm hhandle).keeps
  | syscall saved call frames =>
    rw [System.handle, syscallEntry] at hhandle
    have hsaved : Calm s { s with syscallState := saved } := ⟨rfl, rfl, rfl⟩
    split at hhandle
    next => cases hhandle
    next s₁ rc hrun =>
      have hcall : Keeps { s with syscallState := saved } s₁ := by
        refine syscallHandler_keeps (fun s₂ c hcheck => hquiet s₂ ?_) hrun
        simp only [System.called, hcheck, Option.mem_def]
      split at hhandle
      next =>
        have hasked : Calm s₁ { s₁ with shouldSchedule := false } := ⟨rfl, rfl, rfl⟩
        exact (hsaved.keeps.trans hcall).trans
          (hasked.trans (schedulerSwitchExit_calm hhandle)).keeps
      next =>
        cases hhandle
        exact hsaved.keeps.trans hcall

/-- **A quiet run** leaves all holdings as they are. -/
theorem quiet_run {es : List Event} (h : Run QuietStep s es s') : Keeps s s' := by
  induction h with
  | nil => exact (Calm.refl s).keeps
  | snoc _ hlast ih => exact ih.trans (quiet_step hlast)

end Calls

/-! ### Runs of calls -/

/-- The process `a.1` makes the call `a.2`. -/
def callBy (s : System) (a : ℕ × Call) : Option System :=
  (a.2.run { s with currentPid := a.1 }).toOption.map (·.1)

/-- One call of some process. -/
abbrev CallStep (s : System) (a : ℕ × Call) (s' : System) : Prop := callBy s a = some s'

/-- The vnodes that a call may open. -/
def Call.opens : Call → Set Vnode
  | .openPath (.ok v) _ _ _ => {v}
  | .pipe (some (rvn, wvn)) _ => {rvn, wvn}
  | _ => ∅

/-- **Every call moves references**, or an offset. -/
theorem Call.run_moves {V : Set Vnode} {s s' : System} {call : Call} {rc : ℤ} (hV : call.opens ⊆ V)
    (hrun : call.run s = .ok (s', rc)) :
    FileMoves V s s' ∨ ∃ idx offset, call = .transfer idx offset rc ∧ s' = moveOffset idx offset s := by
  cases call with
  | openPath resolved openRc flags mode =>
    refine .inl (sysOpen_moves (fun v hv => hV ?_) hrun).2
    subst hv
    exact rfl
  | close fd => exact .inl (sysClose_moves hrun).2
  | dup oldFd => exact .inl (sysDup_moves hrun).2
  | dup2 oldFd newFd => exact .inl (sysDup2_moves hrun).2
  | pipe blocks pipefd =>
    refine .inl (sysPipe_moves (fun rvn wvn hb => ?_) hrun).2
    subst hb
    exact ⟨hV (.inl rfl), hV (.inr rfl)⟩
  | fork memory => exact .inl (sysFork_moves hrun)
  | exec built => exact .inl (sysExec_moves hrun)
  | exit code =>
    obtain ⟨⟨s₁, c⟩, hexit, heq⟩ := ok_of_map hrun
    cases heq
    exact .inl (sysExit_calm hexit).moves
  | waitpid requested flags =>
    obtain ⟨⟨s₁, rc₁, reaped⟩, hwait, heq⟩ := ok_of_map hrun
    cases heq
    exact .inl (sysWaitpid_moves hwait)
  | kill pid sig => exact .inl (sysKill_calm hrun).calm.moves
  | sigaction signum act => exact .inl (sysSigaction_calm hrun).calm.moves
  | sigreturn mask => exact .inl (sysSigreturn_calm hrun).moves
  | ttyRead len input => exact .inl (ttyRead_calm hrun).moves
  | transfer idx offset rc =>
    cases hrun
    exact .inr ⟨idx, offset, rfl, rfl⟩
  | setBreak brk errno rc =>
    obtain ⟨s₁, hset, heq⟩ := ok_of_map hrun
    cases heq
    exact .inl (setBreak_calm hset).calm.moves
  | other rc =>
    cases hrun
    exact .inl .refl

/-- **Every call keeps the balance.** -/
theorem Call.run_files {s s' : System} {call : Call} {rc : ℤ} (h : s.FilesOk)
    (hrun : call.run s = .ok (s', rc)) : s'.FilesOk := by
  rcases call.run_moves (Set.subset_univ _) hrun with hmoves | ⟨idx, offset, -, rfl⟩
  · exact hmoves.files h
  · exact moveOffset_files idx offset h

theorem callStep_files {s s' : System} {a : ℕ × Call} (h : s.FilesOk) (hstep : CallStep s a s') :
    s'.FilesOk := by
  obtain ⟨⟨s₁, rc⟩, hrun, heq⟩ := Option.map_eq_some_iff.mp hstep
  cases heq
  cases hres : a.2.run { s with currentPid := a.1 } with
  | error e =>
    rw [hres] at hrun
    cases hrun
  | ok r =>
    rw [hres] at hrun
    cases hrun
    exact Call.run_files (s := { s with currentPid := a.1 }) h hres

/-- The number of descriptors, of all processes, that hold `i`. -/
def System.references (s : System) (i : ℕ) : ℕ :=
  (Finset.univ.filter fun d : Fin 64 × Fin 16 => s.table.descriptors d.1 d.2 = some i).card

theorem references_eq (s : System) (i : ℕ) : s.references i = inRows s.table.descriptors i := by
  rw [System.references, Finset.card_filter, Fintype.sum_prod_type]
  rfl

/-- Some descriptor holds the open file with serial number `n`. -/
def System.Held (s : System) (n : ℕ) : Prop :=
  ∃ slot fd i file, s.table.descriptors slot fd = some i ∧ s.oft.get i = some file ∧
    file.serial = n

/-- **The open file table balances the descriptors**, in every state reached from boot by any
calls of any processes: an entry is in use iff some descriptor holds it, its count is the number of
these, every descriptor names an entry, and the close operation of a file's vnode has run once if no
descriptor holds the file, and not at all otherwise. -/
theorem descriptors_balanced (b : BootImage) (ttyVnode : Vnode) {calls : List (ℕ × Call)}
    {s : System} (hrun : Run CallStep (spawnInit b ttyVnode) calls s) :
    (∀ i, (s.oft.get i).isSome ↔ ∃ slot fd, s.table.descriptors slot fd = some i) ∧
      (∀ i file, s.oft.get i = some file → file.refcount = s.references i) ∧
      (∀ slot fd i, s.table.descriptors slot fd = some i → (s.oft.get i).isSome) ∧
      ∀ n v, s.oft.opened[n]? = some v → v.closes = true →
        (s.Held n → s.oft.closed.count n = 0) ∧ (¬ s.Held n → s.oft.closed.count n = 1) := by
  have h : s.FilesOk := hrun.invariant (P := System.FilesOk) (spawnInit_files b ttyVnode)
    fun _ _ _ hs hstep => callStep_files hs hstep
  have hiff : ∀ i, (s.oft.get i).isSome ↔ ∃ slot fd, s.table.descriptors slot fd = some i := by
    intro i
    have hi := h.balanced.isSome_iff (i := i)
    rw [OpenFileTable.count, Option.isSome_map, List.count_nil, Nat.add_zero, inRows_pos_iff] at hi
    exact hi
  refine ⟨hiff, ?_, fun slot fd i hi => (hiff i).mpr ⟨slot, fd, hi⟩, ?_⟩
  · intro i file hfile
    rw [references_eq]
    simpa using h.balanced.eq_of_some (Consistent.count_eq hfile)
  · intro n v hn hv
    constructor
    · rintro ⟨slot, fd, i, file, -, hfile, rfl⟩
      exact List.count_eq_zero.mpr (h.history.live i file hfile)
    · intro hnot
      refine List.count_eq_one_of_mem h.history.nodup ((h.history.all n v hn hv).resolve_right ?_)
      rintro ⟨i, file, hfile, hs⟩
      obtain ⟨slot, fd, hi⟩ := (hiff i).mp (by rw [hfile]; rfl)
      exact hnot ⟨slot, fd, i, file, hi, hfile, hs⟩

/-- Init opens a pipe, duplicates its write end over its read end, and closes one of the two. -/
theorem descriptors_balanced_pipe :
    ∃ s, Run CallStep (spawnInit ⟨⟨0, 0, 0x3000, 0⟩, 0, 0, 0, 0⟩ ⟨0, none, true⟩)
        [(1, .pipe (some (⟨1, none, true⟩, ⟨2, none, true⟩)) 8), (1, .dup2 4 3), (1, .close 4)] s ∧
      (s.oft.closed = [1] ∧ s.oft.opened.length = 3) ∧
      (∀ i file, s.oft.get i = some file → file.refcount = s.references i) ∧
      ∀ n v, s.oft.opened[n]? = some v → v.closes = true →
        (s.Held n → s.oft.closed.count n = 0) ∧ (¬ s.Held n → s.oft.closed.count n = 1) := by
  refine Exists.imp (fun s h => ⟨h.1, h.2, (descriptors_balanced _ _ h.1).2.1,
      (descriptors_balanced _ _ h.1).2.2.2⟩)
    (?_ : ∃ s, Run CallStep _ _ s ∧ s.oft.closed = [1] ∧ s.oft.opened.length = 3)
  decide +kernel

end Vibix.Proc
