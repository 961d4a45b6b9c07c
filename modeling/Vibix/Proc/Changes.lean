import Mathlib.Logic.Relation
import Vibix.Proc.Sched
import Vibix.Proc.Files

/-! # What the kernel does to processes

All handling of input and of signals, and most system calls, come down to a few elementary changes of
the process side of the kernel (`Change`), none of which touches the state of the current process.
The other system calls have one effect of their own (`Effect`).  This module says so for each of them
(`processInput_changes`, `checkSignals_cases`, `deliver_cases`, `Call.run_cases`); an invariant of the
process table is then proved for the changes and the effects only. -/

namespace Vibix.Proc

open Vfs RefCount Relation

/-- The part of a process on which others depend, and where its memory is. -/
def Process.role (q : Process) : Process :=
  { q with
    entry := 0
    userRsp := 0
    exitCode := 0
    brk := 0
    errno := 0
    sigPending := 0#64
    sigactions := fun _ => SigAction.default
    inSignal := false
    sigframeRsp := 0
    fds := fun _ => none }

/-- Process `q'` is `q` with fewer pending signals, or in a handler. -/
def Process.SignalsOnly (q q' : Process) : Prop :=
  q' = { q with
    sigPending := q'.sigPending, sigframeRsp := q'.sigframeRsp, inSignal := q'.inSignal }

/-- The current process is terminated, after its pending signals were changed. -/
inductive Killed (s : System) : System → Option ℕ → Prop
  | mk {i : Fin 64} {q q' : Process} {events : List SignalEvent} {code : ℕ} {table : ProcessTable}
      {cleared : Option ℕ} (current : s.current = some (i, q)) (signals : q.SignalsOnly q')
      (zombie : (s.put i q').table.markZombie q.pid code = some (table, cleared)) :
      Killed s { s with
        table := table, signalLog := s.signalLog ++ events ++ [.terminated q.pid] } cleared

/-- The lost signal `b` is accounted for in `events`. -/
def Accounted (events : List SignalEvent) (pid b : ℕ) : Prop :=
  ∃ sig : Fin 32, sig.val = b ∧
    (SignalEvent.ignored pid sig ∈ events ∨ ∃ saved, SignalEvent.entered pid sig saved ∈ events)

/-- The elementary changes of the process side of the kernel. -/
inductive Change : System → System → Prop
  /-- Nothing that concerns processes. -/
  | globals {s s' : System} (table : s'.table = s.table) (current : s'.currentPid = s.currentPid)
      (stack : s'.kernelStack = s.kernelStack) (waiting : s'.tty.waitingPid = s.tty.waitingPid)
      (sched : s.shouldSchedule = true → s'.shouldSchedule = true)
      (log : s'.signalLog = s.signalLog) : Change s s'
  /-- A process, outside its role; no signal is lost, and what `SIGKILL` does stays. -/
  | update {s : System} {i : Fin 64} {q q' : Process} (slot : s.table.slots i = some q)
      (role : q'.role = q.role) (code : q'.exitCode = q.exitCode)
      (handler : q'.inSignal = q.inSignal ∧ q'.sigframeRsp = q.sigframeRsp)
      (pending : ∀ b, q.sigPending.getLsbD b = true → q'.sigPending.getLsbD b = true)
      (kill : q'.sigactions 9 = q.sigactions 9) :
      Change s (s.put i q')
  /-- Signals of the current process are ignored, or its handler is entered. -/
  | consume {s : System} {i : Fin 64} {q q' : Process} {events : List SignalEvent}
      (current : s.current = some (i, q)) (idle : q.inSignal = false) (signals : q.SignalsOnly q')
      (pending : ∀ b, q.sigPending.getLsbD b = true →
        q'.sigPending.getLsbD b = true ∨ Accounted events q.pid b) :
      Change s ((s.log events).put i q')
  /-- A blocked process is made ready. -/
  | wake {s : System} {i : Fin 64} {q : Process} (slot : s.table.slots i = some q)
      (blocked : q.state = .blocked) : Change s (s.put i { q with state := .ready })
  | wakeReader {s : System} : Change s s.wakeReader
  /-- The terminal forgets a process that does not wait. -/
  | forgetReader {s : System}
      (idle : ∀ i q, s.table.find s.tty.waitingPid = some (i, q) → q.state ≠ .blocked) :
      Change s { s with tty := { s.tty with waitingPid := 0 } }

/-- Any number of elementary changes. -/
abbrev Changes : System → System → Prop := ReflTransGen Change

/-- What a system call does beyond that: it blocks or terminates the current process, changes the
set of processes, or replaces the image or the pending signals of the current process. -/
inductive Effect : Call → System → System → Prop
  /-- `read` finds no input. -/
  | blockRead {s : System} {len : ℕ} {input : List (BitVec 8)} {i : Fin 64} {q : Process}
      (empty : (processInput input s).tty.tail = (processInput input s).tty.head)
      (current : (processInput input s).current = some (i, q)) :
      Effect (.ttyRead len input) s
        ({ processInput input s with
            tty := { (processInput input s).tty with
              waitingPid := (processInput input s).currentPid }
            shouldSchedule := true }.put i { q with state := .blocked })
  /-- The child that `waitpid` found is alive. -/
  | blockWait {s : System} {requested flags : ℕ} {i j : Fin 64} {q child : Process}
      (current : s.current = some (i, q)) (slot : s.table.slots j = some child)
      (parent : child.parentPid = s.currentPid) (alive : child.state ≠ .zombie) :
      Effect (.waitpid requested flags) s
        ({ s with shouldSchedule := true }.put i
          { q with waitForPid := child.pid, state := .blocked })
  /-- The child that `waitpid` found is a zombie. -/
  | reap {s : System} {requested flags : ℕ} {i j : Fin 64} {child reaped : Process}
      {oft : OpenFileTable} (slot : s.table.slots j = some child)
      (parent : child.parentPid = s.currentPid) (zombie : child.state = .zombie)
      (found : s.table.find child.pid = some (i, reaped)) :
      Effect (.waitpid requested flags) s { s with
        table := { s.table.put i none with count := s.table.count - 1 }, oft := oft }
  | exit {s s' : System} {code : ℕ} {cleared : Option ℕ} (killed : Killed s s' cleared) :
      Effect (.exit code) s { s' with shouldSchedule := true }
  /-- `fork` finds no slot; its PID is used up. -/
  | noSlot {s : System} {base root : ℕ} :
      Effect (.fork (.built base root)) s
        { s with table := { s.table with nextPid := (s.table.nextPid + 1) % 2 ^ 64 } }
  | fork {s : System} {i j : Fin 64} {parent : Process} {base root : ℕ} {oft : OpenFileTable}
      (current : s.current = some (j, parent)) (free : s.table.slots i = none) :
      Effect (.fork (.built base root)) s { s with
        table := { s.table.put i (some (forkChild s parent base root)) with
          nextPid := (s.table.nextPid + 1) % 2 ^ 64, count := s.table.count + 1 }
        oft := oft }
  | exec {s : System} {i : Fin 64} {q : Process} {image : UserImage} {oft : OpenFileTable}
      {saved : SyscallSavedState} (current : s.current = some (i, q)) :
      Effect (.exec (.ok image)) s ({ s with
        syscallState := saved
        oft := oft
        signalLog := s.signalLog ++ [SignalEvent.replaced q.pid] }.put i (q.exec image))
  | sigreturn {s : System} {mask : BitVec 64} {i : Fin 64} {q : Process}
      (current : s.current = some (i, q)) (frame : q.sigframeRsp ≠ 0) :
      Effect (.sigreturn mask) s
        ({ s with shouldSchedule := true }.put i
          { q with sigframeRsp := 0, inSignal := false, sigPending := mask })

/-! ### Holdings -/

/-- What the kernel has to give back when a process is gone, and the PIDs by which it is found. -/
structure Held where
  pid : ℕ
  parentPid : ℕ
  pml4Phys : ℕ
  kernelStackBase : ℕ
  fds : Fin 16 → Option ℕ

/-- What a process holds. -/
def Process.held (q : Process) : Held := ⟨q.pid, q.parentPid, q.pml4Phys, q.kernelStackBase, q.fds⟩

/-- What the processes hold, by slot. -/
def ProcessTable.held (t : ProcessTable) : Fin 64 → Option Held := fun i =>
  (t.slots i).map Process.held

/-- Nobody gets or loses anything. -/
structure Calm (s s' : System) : Prop where
  held : s'.table.held = s.table.held
  count : s'.table.count = s.table.count
  oft : s'.oft = s.oft

/-- Any number of elementary changes that are calm. -/
abbrev CalmChanges : System → System → Prop := ReflTransGen fun s s' => Change s s' ∧ Calm s s'

section Tables

variable {t t' : ProcessTable} {i : Fin 64} {q q' : Process}

theorem held_some {x : Held} : t.held i = some x ↔ ∃ q, t.slots i = some q ∧ q.held = x :=
  Option.map_eq_some_iff

theorem held_put (hi : t.slots i = some q) (h : q'.held = q.held) :
    (t.put i (some q')).held = t.held := by
  funext j
  by_cases hj : j = i
  · subst hj
    rw [ProcessTable.held, ProcessTable.held, ProcessTable.put_same, hi, Option.map_some,
      Option.map_some, h]
  · rw [ProcessTable.held, ProcessTable.held, ProcessTable.put_ne hj]

theorem descriptors_of_held (h : t'.held = t.held) : t'.descriptors = t.descriptors := by
  funext j fd
  have hj := congrArg (fun o => o.bind fun x : Held => x.fds fd) (congrFun h j)
  simpa [ProcessTable.held, ProcessTable.descriptors, Option.bind_map, Function.comp_def,
    Process.held] using hj

/-- `mark_zombie` takes nothing away. -/
theorem markZombie_held {pid code : ℕ} {c : Option ℕ} (h : t.markZombie pid code = some (t', c)) :
    t'.held = t.held ∧ t'.count = t.count := by
  unfold ProcessTable.markZombie at h
  split at h
  next => cases h
  next i q hfind =>
    have hz : (t.put i (some { q with state := .zombie, exitCode := code })).held = t.held :=
      held_put (ProcessTable.find_some hfind).1 rfl
    dsimp only at h
    split at h
    next => cases h; exact ⟨hz, rfl⟩
    split at h
    next => cases h; exact ⟨hz, rfl⟩
    next j parent hparent =>
      split at h
      next =>
        cases h
        refine ⟨(held_put (ProcessTable.find_some hparent).1 ?_).trans hz, rfl⟩
        rfl
      next => cases h; exact ⟨hz, rfl⟩

end Tables

section Calm

variable {s s' s'' : System} {i : Fin 64} {q q' : Process}

theorem Calm.refl (s : System) : Calm s s := ⟨rfl, rfl, rfl⟩

theorem Calm.trans (h : Calm s s') (h' : Calm s' s'') : Calm s s'' :=
  ⟨h'.held.trans h.held, h'.count.trans h.count, h'.oft.trans h.oft⟩

theorem Calm.put (hi : s.table.slots i = some q) (h : q'.held = q.held) : Calm s (s.put i q') :=
  ⟨held_put hi h, rfl, rfl⟩

theorem Calm.moves {V : Set Vnode} (h : Calm s s') : FileMoves V s s' :=
  .of_eq h.oft (descriptors_of_held h.held)

theorem CalmChanges.changes (h : CalmChanges s s') : Changes s s' :=
  ReflTransGen.mono (fun _ _ (h : Change _ _ ∧ Calm _ _) => h.1) _ _ h

theorem CalmChanges.calm (h : CalmChanges s s') : Calm s s' := by
  induction h with
  | refl => exact .refl s
  | tail _ hlast ih => exact ih.trans hlast.2

theorem wakeReader_calm : Calm s s.wakeReader := by
  unfold System.wakeReader
  split
  next => exact .refl s
  dsimp only
  split
  next => exact ⟨rfl, rfl, rfl⟩
  next i q hfind =>
    split
    next => exact ⟨held_put (ProcessTable.find_some hfind).1 rfl, rfl, rfl⟩
    next => exact ⟨rfl, rfl, rfl⟩

end Calm

/-! ### Input -/

section Input

variable {s s' : System}

theorem calm_tty (t : Tty) (h : t.waitingPid = s.tty.waitingPid) :
    CalmChanges s { s with tty := t } :=
  .single ⟨.globals rfl rfl rfl h id rfl, rfl, rfl, rfl⟩

theorem Tty.store_waitingPid (t : Tty) (b : BitVec 8) : (t.store b).waitingPid = t.waitingPid := by
  unfold Tty.store
  split <;> rfl

theorem pushByte_calm (b : BitVec 8) : CalmChanges s (pushByte s b) :=
  (calm_tty _ (Tty.store_waitingPid _ b)).tail ⟨.wakeReader, wakeReader_calm⟩

theorem raise_pending (q : Process) (sig b : ℕ) (h : q.sigPending.getLsbD b = true) :
    (q.raise sig).sigPending.getLsbD b = true := by
  simp [Process.raise, h]

theorem handleCtrlc_calm : CalmChanges s (handleCtrlc s) := by
  unfold handleCtrlc
  refine ReflTransGen.trans ?_ (pushByte_calm _)
  have hclear : CalmChanges s { s with tty := { s.tty with line := [] } } := calm_tty _ rfl
  split
  next => exact hclear
  split
  next hnone =>
    refine hclear.tail ⟨.forgetReader fun i q hq => ?_, rfl, rfl, rfl⟩
    have hfind : s.table.find s.tty.waitingPid = some (i, q) := hq
    rw [hnone] at hfind
    cases hfind
  next i q hfind =>
    split
    next =>
      have hi := (ProcessTable.find_some hfind).1
      exact hclear.tail ⟨.update hi rfl rfl ⟨rfl, rfl⟩ (raise_pending q sigInt) rfl, .put hi rfl⟩
    next hstate =>
      refine hclear.tail ⟨.forgetReader fun j q' hq' => ?_, rfl, rfl, rfl⟩
      have hsame : s.table.find s.tty.waitingPid = some (j, q') := hq'
      rw [hfind] at hsame
      cases hsame
      exact hstate

theorem pushBytes_calm (bytes : List (BitVec 8)) : CalmChanges s (bytes.foldl pushByte s) := by
  induction bytes generalizing s with
  | nil => exact .refl
  | cons b bytes ih => exact (pushByte_calm b).trans ih

theorem processByte_calm (c : BitVec 8) : CalmChanges s (processByte s c) := by
  have hchar : CalmChanges s (handleChar c s) := by
    unfold handleChar
    split_ifs
    · exact calm_tty _ rfl
    · exact .refl
  unfold processByte
  split_ifs
  · exact pushByte_calm c
  · exact calm_tty _ rfl
  · exact handleCtrlc_calm
  · exact ((pushBytes_calm _).trans (pushByte_calm _)).trans (calm_tty _ rfl)
  · exact hchar
  · exact .refl
  · exact hchar
  · exact .refl

theorem processInput_calm (input : List (BitVec 8)) : CalmChanges s (processInput input s) := by
  unfold processInput
  induction input generalizing s with
  | nil => exact .refl
  | cons c input ih => exact (processByte_calm c).trans ih

theorem processInput_changes (input : List (BitVec 8)) : Changes s (processInput input s) :=
  (processInput_calm input).changes

theorem ttyRead_cases {len : ℕ} {input : List (BitVec 8)} {rc : ℤ}
    (hrun : ttyRead len input s = .ok (s', rc)) :
    CalmChanges s s' ∨ Effect (.ttyRead len input) s s' := by
  have hin : CalmChanges s (processInput input s) := processInput_calm input
  unfold ttyRead at hrun
  dsimp only at hrun
  split at hrun
  next =>
    cases hrun
    exact .inl (hin.trans (calm_tty _ rfl))
  next hempty =>
    split at hrun
    next =>
      cases hrun
      exact .inl hin
    split at hrun
    next => cases hrun
    next i q hcur =>
      cases hrun
      exact .inr (.blockRead (not_not.mp hempty) hcur)

end Input

/-! ### Signals -/

section Signals

variable {s s' : System} {q q' q'' : Process}

theorem Process.SignalsOnly.refl (q : Process) : q.SignalsOnly q := rfl

theorem Process.SignalsOnly.trans (h : q.SignalsOnly q') (h' : q'.SignalsOnly q'') :
    q.SignalsOnly q'' := by
  unfold SignalsOnly at h h' ⊢
  rw [h] at h'
  exact h'

theorem Process.SignalsOnly.role_eq (h : q.SignalsOnly q') : q'.role = q.role := by
  unfold SignalsOnly at h
  rw [h]
  rfl

theorem Process.SignalsOnly.pid_eq (h : q.SignalsOnly q') : q'.pid = q.pid :=
  (congrArg Process.pid h.role_eq :)

theorem Process.SignalsOnly.held_eq (h : q.SignalsOnly q') : q'.held = q.held := by
  rw [h]
  rfl

theorem clearSignal_only (sig : ℕ) : q.SignalsOnly (q.clearSignal sig) := rfl

theorem clearSignal_keeps {sig b : ℕ} (h : q.sigPending.getLsbD b = true) (hne : b ≠ sig) :
    (q.clearSignal sig).sigPending.getLsbD b = true := by
  have hb : b < 64 := BitVec.lt_of_getLsbD h
  have hbit : (1#64 <<< sig).getLsbD b = false := by
    rw [BitVec.getLsbD_shiftLeft]
    by_cases hlt : b < sig
    · simp [hlt]
    · have hpos : b - sig ≠ 0 := by omega
      simp [hpos]
  unfold Process.clearSignal
  rw [BitVec.getLsbD_and, BitVec.getLsbD_not, hbit, h]
  simp [hb]

section Scan

variable {userRsp : Option ℕ} {ignored : List (Fin 32)} {result : Outcome}

theorem scan_only (l : List (Fin 32)) : q.SignalsOnly (scan userRsp q ignored result l).proc := by
  fun_induction scan with
  | case1 => exact .refl _
  | case2 _ _ _ _ _ _ ih => exact ih
  | case3 _ _ _ sig _ _ _ ih => exact (clearSignal_only sig).trans ih
  | case4 _ _ _ sig => exact clearSignal_only sig
  | case5 _ _ _ sig _ _ _ _ _ ih => exact (clearSignal_only sig).trans ih
  | case6 _ _ _ _ _ _ _ _ hu ih =>
    subst hu
    exact ih
  | case7 _ _ _ sig => exact clearSignal_only sig
  | case8 => rfl

theorem scan_ignored (l : List (Fin 32)) : ignored ⊆ (scan userRsp q ignored result l).ignored := by
  fun_induction scan with
  | case1 => exact List.Subset.refl _
  | case2 _ _ _ _ _ _ ih => exact ih
  | case3 _ _ _ _ _ _ _ ih => exact List.Subset.trans (List.subset_append_left _ _) ih
  | case4 => exact List.Subset.refl _
  | case5 _ _ _ _ _ _ _ _ _ ih => exact List.Subset.trans (List.subset_append_left _ _) ih
  | case6 _ _ _ _ _ _ _ _ hu ih =>
    subst hu
    exact ih
  | case7 => exact List.Subset.refl _
  | case8 => exact List.Subset.refl _

/-- A signal that is lost was ignored, or its handler is entered, or the process is to be
terminated. -/
theorem scan_lost {b : ℕ} (hb : q.sigPending.getLsbD b = true) (l : List (Fin 32)) :
    (scan userRsp q ignored result l).proc.sigPending.getLsbD b = true ∨
      (∃ sig ∈ (scan userRsp q ignored result l).ignored, sig.val = b) ∨
      (∃ sig handler, (scan userRsp q ignored result l).outcome = .enter sig handler ∧
        sig.val = b) ∨
      ∃ code, (scan userRsp q ignored result l).outcome = .fatal code := by
  fun_induction scan with
  | case1 => exact .inl hb
  | case2 _ _ _ _ _ _ ih => exact ih hb
  | case3 _ _ _ sig rest _ _ ih =>
    by_cases hsig : b = sig.val
    · exact .inr (.inl ⟨sig, scan_ignored rest (by simp), hsig.symm⟩)
    · exact ih (clearSignal_keeps hb hsig)
  | case4 => exact .inr (.inr (.inr ⟨_, rfl⟩))
  | case5 _ _ _ sig rest _ _ _ _ ih =>
    by_cases hsig : b = sig.val
    · exact .inr (.inl ⟨sig, scan_ignored rest (by simp), hsig.symm⟩)
    · exact ih (clearSignal_keeps hb hsig)
  | case6 _ _ _ _ _ _ _ _ hu ih =>
    subst hu
    exact ih hb
  | case7 => exact .inr (.inr (.inr ⟨_, rfl⟩))
  | case8 _ _ _ sig =>
    by_cases hsig : b = sig.val
    · exact .inr (.inr (.inl ⟨sig, _, rfl, hsig.symm⟩))
    · exact .inl (clearSignal_keeps hb hsig)

end Scan

theorem terminate_killed {i : Fin 64} {code : ℕ} {cleared : Option ℕ} {events : List SignalEvent}
    (hcur : s.current = some (i, q)) (hq' : q.SignalsOnly q')
    (hrun : (s.log events).terminate i q' code = .ok (s', cleared)) : Killed s s' cleared := by
  unfold System.terminate at hrun
  split at hrun
  next => cases hrun
  next table c hz =>
    cases hrun
    rw [hq'.pid_eq] at hz ⊢
    exact .mk hcur hq' hz

theorem log_nil : s.log [] = s := by
  unfold System.log
  rw [List.append_nil]

theorem log_log (a b : List SignalEvent) : (s.log a).log b = s.log (a ++ b) := by
  unfold System.log
  rw [List.append_assoc]

/-- On the system call path no handler is entered. -/
theorem scan_none_outcome {ignored : List (Fin 32)} {result : Outcome}
    (h : ∀ sig handler, result ≠ .enter sig handler) (l : List (Fin 32)) (sig : Fin 32)
    (handler : BitVec 64) : (scan none q ignored result l).outcome ≠ .enter sig handler := by
  induction l generalizing q ignored result with
  | nil => exact h sig handler
  | cons a l ih =>
    unfold scan
    split_ifs
    · exact ih h
    · exact ih h
    · nofun
    · exact ih h
    · exact ih fun _ _ => nofun

/-- Going through the signals, unless it is fatal, is a calm change. -/
theorem scan_change {i : Fin 64} (userRsp : Option ℕ) (events : List SignalEvent)
    (hcur : s.current = some (i, q)) (hidle : q.inSignal = false)
    (hfatal : ∀ code, (scan userRsp q [] .pass signals).outcome ≠ .fatal code)
    (henter : ∀ sig handler, (scan userRsp q [] .pass signals).outcome = .enter sig handler →
      ∃ saved, SignalEvent.entered q.pid sig saved ∈ events) :
    CalmChanges s ((s.log (ignoredEvents q.pid (scan userRsp q [] .pass signals).ignored ++
      events)).put i (scan userRsp q [] .pass signals).proc) := by
  refine .single ⟨.consume hcur hidle (scan_only signals) fun b hb => ?_,
    held_put (current_slot hcur) (scan_only signals).held_eq, rfl, rfl⟩
  rcases scan_lost hb signals with hkept | ⟨sig, hsig, rfl⟩ | ⟨sig, handler, hout, rfl⟩ | ⟨code, hout⟩
  · exact .inl hkept
  · exact .inr ⟨sig, rfl, .inl (List.mem_append_left _ (List.mem_map_of_mem hsig))⟩
  · obtain ⟨saved, hmem⟩ := henter sig handler hout
    exact .inr ⟨sig, rfl, .inr ⟨saved, List.mem_append_right _ hmem⟩⟩
  · exact absurd hout (hfatal code)

/-- **`check_signals_syscall`** changes the current process, or terminates it. -/
theorem checkSignals_calm {res : SignalResult} {cleared : Option ℕ}
    (hrun : checkSignalsSyscall s = .ok (s', res, cleared)) :
    (res ≠ .terminated ∧ CalmChanges s s' ∧ s'.shouldSchedule = s.shouldSchedule ∧
      s'.currentPid = s.currentPid) ∨
      (res = .terminated ∧ Killed s s' cleared) := by
  unfold checkSignalsSyscall at hrun
  split at hrun
  next =>
    cases hrun
    exact .inl ⟨nofun, .refl, rfl, rfl⟩
  split at hrun
  next => cases hrun
  next i q hcur =>
    split at hrun
    next =>
      cases hrun
      exact .inl ⟨nofun, .refl, rfl, rfl⟩
    split at hrun
    next =>
      split at hrun
      next =>
        split at hrun
        next => cases hrun
        next s₁ c hterm =>
          cases hrun
          rw [← log_nil (s := s)] at hterm
          exact .inr ⟨rfl, terminate_killed hcur (clearSignal_only sigKill) hterm⟩
      next =>
        cases hrun
        exact .inl ⟨nofun, .refl, rfl, rfl⟩
    next hhandler =>
      have hidle : q.inSignal = false := by simpa using hhandler
      have hnone : ∀ sig handler, (scan none q [] .pass signals).outcome ≠ .enter sig handler :=
        scan_none_outcome (fun _ _ h => by cases h) signals
      have hchange := fun hfatal =>
        scan_change none [] hcur hidle hfatal fun sig handler hout => absurd hout (hnone sig handler)
      rw [List.append_nil] at hchange
      dsimp only at hrun
      split at hrun
      next code hout =>
        split at hrun
        next => cases hrun
        next s₁ c hterm =>
          cases hrun
          exact .inr ⟨rfl, terminate_killed hcur (scan_only signals) hterm⟩
      next hout =>
        cases hrun
        exact .inl ⟨nofun, hchange (fun code h => by rw [hout] at h; cases h), rfl, rfl⟩
      next hfatal hcustom =>
        cases hrun
        exact .inl ⟨nofun, hchange hfatal, rfl, rfl⟩

theorem checkSignals_cases {res : SignalResult} {cleared : Option ℕ}
    (hrun : checkSignalsSyscall s = .ok (s', res, cleared)) :
    (res ≠ .terminated ∧ Changes s s' ∧ s'.shouldSchedule = s.shouldSchedule ∧
      s'.currentPid = s.currentPid) ∨ (res = .terminated ∧ Killed s s' cleared) :=
  (checkSignals_calm hrun).imp_left fun ⟨hres, hch, hrest⟩ => ⟨hres, hch.changes, hrest⟩

/-- **`deliver_pending_signals`** changes the current process, or terminates it. -/
theorem deliver_calm {frame : FrameView} {d : Delivery}
    (hrun : deliverPendingSignals s.currentPid frame s = .ok (s', d)) :
    ((∀ cleared, d ≠ .killed cleared) ∧ CalmChanges s s' ∧ s'.currentPid = s.currentPid) ∨
      ∃ cleared, d = .killed cleared ∧ s.currentPid ≠ 2 ∧ Killed s s' cleared := by
  unfold deliverPendingSignals at hrun
  split at hrun
  next =>
    cases hrun
    exact .inl ⟨fun _ => nofun, .refl, rfl⟩
  next hpid =>
  split at hrun
  next => cases hrun
  next i q hcur =>
    have htwo : s.currentPid ≠ 2 := fun h => hpid (.inr h)
    split at hrun
    next =>
      cases hrun
      exact .inl ⟨fun _ => nofun, .refl, rfl⟩
    split at hrun
    next =>
      split at hrun
      next =>
        split at hrun
        next => cases hrun
        next s₁ c hterm =>
          cases hrun
          rw [← log_nil (s := s)] at hterm
          exact .inr ⟨c, rfl, htwo, terminate_killed hcur (clearSignal_only sigKill) hterm⟩
      next =>
        cases hrun
        exact .inl ⟨fun _ => nofun, .refl, rfl⟩
    next hhandler =>
      have hidle : q.inSignal = false := by simpa using hhandler
      split at hrun
      next =>
        cases hrun
        exact .inl ⟨fun _ => nofun, .refl, rfl⟩
      dsimp only at hrun
      split at hrun
      next code hout =>
        split at hrun
        next => cases hrun
        next s₁ c hterm =>
          cases hrun
          exact .inr ⟨c, rfl, htwo, terminate_killed hcur (scan_only signals) hterm⟩
      next sig handler hout =>
        cases hrun
        rw [log_log]
        refine .inl ⟨fun _ => nofun, scan_change _ _ hcur hidle ?_ ?_, rfl⟩
        · intro code h
          rw [hout] at h
          cases h
        · intro sig' handler' h
          rw [hout] at h
          cases h
          exact ⟨_, List.mem_singleton_self _⟩
      next hfatal henter =>
        cases hrun
        have hchange := scan_change (some frame.userRsp) [] hcur hidle hfatal
          fun sig handler hout => absurd hout (henter sig handler)
        rw [List.append_nil] at hchange
        exact .inl ⟨fun _ => nofun, hchange, rfl⟩

theorem deliver_cases {frame : FrameView} {d : Delivery}
    (hrun : deliverPendingSignals s.currentPid frame s = .ok (s', d)) :
    ((∀ cleared, d ≠ .killed cleared) ∧ Changes s s' ∧ s'.currentPid = s.currentPid) ∨
      ∃ cleared, d = .killed cleared ∧ s.currentPid ≠ 2 ∧ Killed s s' cleared :=
  (deliver_calm hrun).imp_left fun ⟨hd, hch, hpid⟩ => ⟨hd, hch.changes, hpid⟩

theorem Killed.calm {cleared : Option ℕ} (h : Killed s s' cleared) : Calm s s' := by
  cases h with
  | mk current signals zombie =>
    obtain ⟨hheld, hcount⟩ := markZombie_held zombie
    exact ⟨hheld.trans (held_put (current_slot current) signals.held_eq), hcount, rfl⟩

end Signals

/-! ### System calls -/

section Calls

variable {s s' : System} {rc : ℤ}

theorem Refiled.changes (h : Refiled s s') : Changes s s' := by
  have hoft : ∀ oft, Change s { s with oft := oft } := fun oft => .globals rfl rfl rfl rfl id rfl
  cases h with
  | oft oft => exact .single (hoft oft)
  | fds current oft fds =>
    exact .tail (.single (hoft oft))
      (.update (current_slot current) rfl rfl ⟨rfl, rfl⟩ (fun _ h => h) rfl)

theorem sysFork_cases {memory : ForkMemory} (hrun : sysFork memory s = .ok (s', rc)) :
    Changes s s' ∨ Effect (.fork memory) s s' := by
  unfold sysFork at hrun
  split at hrun
  next => cases hrun; exact .inl .refl
  next => cases hrun; exact .inl .refl
  next base root =>
    unfold addChild at hrun
    split at hrun
    next => cases hrun
    next s₁ pid hadd =>
      cases hrun
      split at hadd
      next => cases hadd
      next j parent hcur =>
        dsimp only at hadd
        split at hadd
        next => cases hadd
        next i hfree =>
          cases hadd
          have hnone := List.find?_some (p := fun i => (s.table.slots i).isNone) hfree
          exact .inr (.fork hcur (by simpa using hnone))
    next s₁ hadd =>
      cases hrun
      split at hadd
      next => cases hadd
      next j parent hcur =>
        dsimp only at hadd
        split at hadd
        next =>
          cases hadd
          exact .inr .noSlot
        next => cases hadd

theorem sysExec_cases {built : Except ℤ UserImage} (hrun : sysExec built s = .ok (s', rc)) :
    Changes s s' ∨ Effect (.exec built) s s' := by
  unfold sysExec at hrun
  split at hrun
  next => cases hrun
  next i q hcur =>
    split at hrun
    next => cases hrun; exact .inl .refl
    next => cases hrun; exact .inr (.exec hcur)

theorem sysExit_killed {code : ℕ} {cleared : Option ℕ} (hrun : sysExit code s = .ok (s', cleared)) :
    ∃ s₁, Killed s s₁ cleared ∧ s' = { s₁ with shouldSchedule := true } := by
  unfold sysExit at hrun
  split at hrun
  next => cases hrun
  next table c hz =>
    cases hrun
    cases hcur : s.current with
    | none =>
      unfold ProcessTable.markZombie at hz
      rw [System.current] at hcur
      rw [hcur] at hz
      cases hz
    | some r =>
      obtain ⟨i, q⟩ := r
      have hpid : q.pid = s.currentPid := (ProcessTable.find_some hcur).2
      have hz' : (s.put i q).table.markZombie q.pid code = some (table, cleared) := by
        unfold System.put
        rw [ProcessTable.put_self (current_slot hcur), hpid]
        exact hz
      have hkilled : Killed s { s with
          table := table, signalLog := s.signalLog ++ [] ++ [.terminated q.pid] } cleared :=
        .mk hcur (.refl q) hz'
      rw [List.append_nil, hpid] at hkilled
      exact ⟨_, hkilled, rfl⟩

theorem sysExit_effect {code : ℕ} {cleared : Option ℕ} (hrun : sysExit code s = .ok (s', cleared)) :
    Effect (.exit code) s s' := by
  obtain ⟨s₁, hkilled, rfl⟩ := sysExit_killed hrun
  exact .exit hkilled

theorem waitChild_some {requested : ℕ} {child : Process} (h : waitChild requested s = some child) :
    ∃ j, s.table.slots j = some child ∧ child.parentPid = s.currentPid := by
  obtain ⟨j, -, hj⟩ := List.exists_of_findSome?_eq_some h
  obtain ⟨q, hslot, hq⟩ := Option.bind_eq_some_iff.mp hj
  split at hq
  next hmatch =>
    cases hq
    exact ⟨j, hslot, hmatch.1⟩
  next => cases hq

theorem sysWaitpid_cases {requested flags : ℕ} {reaped : Option Process}
    (hrun : sysWaitpid requested flags s = .ok (s', rc, reaped)) :
    Changes s s' ∨ Effect (.waitpid requested flags) s s' := by
  unfold sysWaitpid at hrun
  split at hrun
  next => cases hrun; exact .inl .refl
  next child hchild =>
    obtain ⟨j, hslot, hparent⟩ := waitChild_some hchild
    split at hrun
    next hzombie =>
      split at hrun
      next => cases hrun
      next i q hfind =>
        cases hrun
        exact .inr (.reap hslot hparent hzombie hfind)
    next halive =>
      split at hrun
      next => cases hrun; exact .inl .refl
      split at hrun
      next => cases hrun
      next i q hcur =>
        cases hrun
        exact .inr (.blockWait hcur hslot hparent halive)

theorem sysKill_calm {pid sig : ℕ} (hrun : sysKill pid sig s = .ok (s', rc)) : CalmChanges s s' := by
  unfold sysKill at hrun
  split at hrun
  next => cases hrun; exact .refl
  split at hrun
  next => cases hrun; exact .refl
  split at hrun
  next => cases hrun
  next i q hfind =>
    split at hrun
    next => cases hrun; exact .refl
    next =>
      cases hrun
      have hi := (ProcessTable.find_some hfind).1
      have hraise : CalmChanges s (s.put i (q.raise sig)) :=
        .single ⟨.update hi rfl rfl ⟨rfl, rfl⟩ (raise_pending q sig) rfl, .put hi rfl⟩
      split
      next hblocked =>
        -- the signal is raised, and then the process woken
        have hwake := hraise.tail ⟨.wake ProcessTable.put_same hblocked,
          .put ProcessTable.put_same rfl⟩
        unfold System.put at hwake ⊢
        rwa [put_put] at hwake
      next => exact hraise

theorem sysSigaction_calm {signum : ℕ} {act : Option SigAction}
    (hrun : sysSigaction signum act s = .ok (s', rc)) : CalmChanges s s' := by
  unfold sysSigaction at hrun
  split at hrun
  next => cases hrun; exact .refl
  next hrange =>
  split at hrun
  next => cases hrun; exact .refl
  next hkill =>
  split at hrun
  next => cases hrun
  next i q hcur =>
    split at hrun
    next => cases hrun; exact .refl
    next =>
      cases hrun
      have hne : (9 : Fin 32) ≠ Fin.ofNat 32 signum := by
        simp only [sigKill] at hkill
        simp only [ne_eq, Fin.ext_iff, Fin.ofNat]
        omega
      exact .single ⟨.update (current_slot hcur) rfl rfl ⟨rfl, rfl⟩ (fun _ h => h)
        (Function.update_of_ne hne _ _), .put (current_slot hcur) rfl⟩

theorem setBreak_calm {brk : ℕ} {errno : ℤ} (hrun : setBreak brk errno s = .ok s') :
    CalmChanges s s' := by
  unfold setBreak at hrun
  split at hrun
  next => cases hrun
  next i q hcur =>
    cases hrun
    exact .single ⟨.update (current_slot hcur) rfl rfl ⟨rfl, rfl⟩ (fun _ h => h) rfl,
      .put (current_slot hcur) rfl⟩

theorem sysSigreturn_cases {mask : BitVec 64} (hrun : sysSigreturn mask s = .ok (s', rc)) :
    Changes s s' ∨ Effect (.sigreturn mask) s s' := by
  unfold sysSigreturn at hrun
  split at hrun
  next => cases hrun
  next i q hcur =>
    split at hrun
    next => cases hrun; exact .inl .refl
    next hframe => cases hrun; exact .inr (.sigreturn hcur hframe)

/-- **Every system call** is a number of elementary changes, or has an effect of its own. -/
theorem Call.run_cases {call : Call} (hrun : call.run s = .ok (s', rc)) :
    Changes s s' ∨ Effect call s s' := by
  cases call with
  | openPath resolved openRc flags mode => 
    exact .inl (sysOpen_moves (V := Set.univ) (fun _ _ => trivial) hrun).1.changes
  | close fd => exact .inl (sysClose_moves (V := ∅) hrun).1.changes
  | dup oldFd => exact .inl (sysDup_moves (V := ∅) hrun).1.changes
  | dup2 oldFd newFd => exact .inl (sysDup2_moves (V := ∅) hrun).1.changes
  | pipe blocks pipefd =>
    exact .inl (sysPipe_moves (V := Set.univ) (fun _ _ _ => ⟨trivial, trivial⟩) hrun).1.changes
  | fork memory => exact sysFork_cases hrun
  | exec built => exact sysExec_cases hrun
  | exit code =>
    obtain ⟨⟨s₁, c⟩, hexit, heq⟩ := ok_of_map hrun
    cases heq
    exact .inr (sysExit_effect hexit)
  | waitpid requested flags =>
    obtain ⟨⟨s₁, rc₁, reaped⟩, hwait, heq⟩ := ok_of_map hrun
    cases heq
    exact sysWaitpid_cases hwait
  | kill pid sig => exact .inl (sysKill_calm hrun).changes
  | sigaction signum act => exact .inl (sysSigaction_calm hrun).changes
  | sigreturn mask => exact sysSigreturn_cases hrun
  | ttyRead len input => exact (ttyRead_cases hrun).imp_left CalmChanges.changes
  | transfer idx offset rc =>
    cases hrun
    exact .inl (Refiled.oft _).changes
  | setBreak brk errno rc =>
    obtain ⟨s₁, hset, heq⟩ := ok_of_map hrun
    cases heq
    exact .inl (setBreak_calm hset).changes
  | other rc =>
    cases hrun
    exact .inl .refl

end Calls

end Vibix.Proc
