import Vibix.Proc.Waits

/-! # Who is interrupted by Ctrl-C

`handle_ctrlc` raises `SIGINT` in the process whose PID the terminal remembers, if it is blocked.  It
should be blocked in a read from the terminal then (`InterruptsReader`).  But the terminal goes on to
remember a reader that was woken by a signal, and if that process blocks in `waitpid` next, Ctrl-C
interrupts it there (`ctrlC_interrupts_waiter`).

As long as nobody blocks in `waitpid` while the terminal remembers it (`ReaderForgotten`), Ctrl-C
interrupts a process that is blocked in a read, or nobody (`ctrlC_interrupts_reader`). -/

namespace Vibix.Proc

open Vfs Relation

/-- Ctrl-C changes no process, or it raises `SIGINT` in one that is blocked in a read and wakes it. -/
def InterruptsReader (g : Waits) (s : System) : Prop :=
  (handleCtrlc s).table.slots = s.table.slots ∨
    ∃ i q, s.table.slots i = some q ∧ q.state = .blocked ∧ g i = some .input ∧
      (handleCtrlc s).table.slots =
        Function.update s.table.slots i (some { q.raise sigInt with state := .ready })

/-- The input that an event polls, and the state in which it is processed. -/
inductive Polls (s : System) : Event → List (BitVec 8) → System → Prop
  | irq {rsp : ℕ} {input : List (BitVec 8)} {frames : ℕ → FrameView} :
      Polls s (.irq rsp input frames) input s
  | read {saved : SyscallSavedState} {len : ℕ} {input : List (BitVec 8)} {frames : ℕ → FrameView}
      {s₁ : System} (runs : s.called saved = some s₁) :
      Polls s (.syscall saved (.ttyRead len input) frames) input s₁

/-- Nobody blocks in `waitpid` while the terminal remembers it. -/
def ReaderForgotten (b : Blocking) : Prop := b.wait ≠ .input → b.sys.tty.waitingPid ≠ b.proc.pid

instance : DecidablePred ReaderForgotten :=
  fun b => inferInstanceAs (Decidable (b.wait ≠ .input → b.sys.tty.waitingPid ≠ b.proc.pid))

/-- A blocked process that the terminal remembers is blocked in a read. -/
def ReaderOk (g : Waits) (s : System) : Prop :=
  ∀ i q, s.table.slots i = some q → q.state = .blocked → s.tty.waitingPid = q.pid →
    g i = some .input

section Preserved

variable {g : Waits} {s s' : System} {i : Fin 64} {q q' : Process}

/-- The terminal remembers the same reader as before, or none. -/
theorem Change.waitingPid (h : Change s s') :
    s'.tty.waitingPid = s.tty.waitingPid ∨ s'.tty.waitingPid = 0 := by
  cases h with
  | globals table current stack waiting sched log => exact .inl waiting
  | update | consume | wake => exact .inl rfl
  | wakeReader =>
    unfold System.wakeReader
    split
    next => exact .inl rfl
    dsimp only
    split
    next => exact .inr rfl
    split <;> exact .inr rfl
  | forgetReader => exact .inr rfl

theorem Change.readerOk (h : Change s s') (ht : TableOk s.table) (hs : ReaderOk g s) :
    ReaderOk g s' := by
  have hsteady := h.steady
  intro i q' hq' hb hwait
  obtain ⟨q, hq, hm⟩ := hsteady.backward hq'
  rcases h.waitingPid with hsame | hzero
  · exact hs i q hq (hm.blocked hb) (by rw [← hsame, hwait, hm.pid])
  · have hpos := (hsteady.tableOk ht).positive i q' hq'
    omega

/-- The reader is the same, and who is blocked was blocked before, in the same slot. -/
theorem ReaderOk.mono (hs : ReaderOk g s) (htty : s'.tty.waitingPid = s.tty.waitingPid)
    (hback : ∀ i q', s'.table.slots i = some q' → q'.state = .blocked →
      ∃ q, s.table.slots i = some q ∧ q.state = .blocked ∧ q'.pid = q.pid) : ReaderOk g s' := by
  intro i q' hq' hb hwait
  obtain ⟨q, hq, hblocked, hpid⟩ := hback i q' hq' hb
  exact hs i q hq hblocked (by rw [← htty, hwait, hpid])

/-- A process changes, and is blocked only if it was. -/
theorem ReaderOk.put (hs : ReaderOk g s) (hi : s.table.slots i = some q) (hpid : q'.pid = q.pid)
    (hblocked : q'.state = .blocked → q.state = .blocked) : ReaderOk g (s.put i q') := by
  refine hs.mono rfl fun j r hr hb => ?_
  rcases slots_put_some hr with ⟨rfl, rfl⟩ | ⟨-, hold⟩
  · exact ⟨q, hi, hblocked hb, hpid⟩
  · exact ⟨r, hold, hb, rfl⟩

theorem Killed.readerOk {cleared : Option ℕ} (h : Killed s s' cleared) (ht : TableOk s.table)
    (hs : ReaderOk g s) : ReaderOk g s' := by
  obtain ⟨i, q, z, events, hcur, hb, heq⟩ := h.buried ht
  refine hs.mono (by rw [heq]) fun j r hr hblocked => ?_
  rcases hb.backward hr with ⟨rfl, rfl⟩ | ⟨-, hold⟩ | ⟨-, p, -, -, -, rfl⟩
  · rw [hb.zombie.2] at hblocked
    cases hblocked
  · exact ⟨r, hold, hblocked, rfl⟩
  · cases hblocked

/-- **The effect of a system call** that does not block. -/
theorem Effect.readerOk {call : Call} (h : Effect call s s') (hok : SysOk s)
    (hblock : call.mayBlock = false) (hs : ReaderOk g s) : ReaderOk g s' := by
  cases h with
  | blockRead => cases hblock
  | blockWait => cases hblock
  | reap => cases hblock
  | exit killed => exact killed.readerOk hok.table hs
  | noSlot => exact hs
  | fork current free =>
    refine hs.mono rfl fun j r hr hb => ?_
    rcases slots_put_some hr with ⟨rfl, rfl⟩ | ⟨-, hold⟩
    · cases hb
    · exact ⟨r, hold, hb, rfl⟩
  | exec current =>
    exact ReaderOk.put (hs.mono rfl fun j r hr hb => ⟨r, hr, hb, rfl⟩) (current_slot current) rfl id
  | sigreturn current frame =>
    exact ReaderOk.put (hs.mono rfl fun j r hr hb => ⟨r, hr, hb, rfl⟩) (current_slot current) rfl id

end Preserved

/-- **Steps keep the record right**, if the terminal forgets its reader in time. -/
theorem readerOk_tracking : Tracking ReaderOk ReaderForgotten where
  keeps g :=
    { globals := fun s s' htable htty hs =>
        hs.mono (by rw [htty]) fun i q hq hb => ⟨q, htable ▸ hq, hb, rfl⟩
      change := fun _ _ ht hs hch => hch.readerOk ht hs
      kill := fun _ _ _ ht _ hs hkilled => hkilled.readerOk ht hs
      effect := fun _ _ _ hok _ _ hblock hs heff => heff.readerOk hok hblock hs
      sched := by
        intro s i q rsp st _ hs hi hst _
        refine hs.put hi rfl fun hb => ?_
        have hb' : st = .blocked := hb
        rcases hst with h | h | h
        · rw [h] at hb'
          cases hb'
        · rw [h] at hb'
          cases hb'
        · exact h.symm.trans hb' }
  reap := fun g s i q oft _ hs _ _ =>
    hs.mono rfl fun j r hr hb => ⟨r, (slots_put_none hr).2, hb, rfl⟩
  read := by
    rintro g s s' i q hok hs hcur rfl - j r hr hb hwait
    obtain ⟨hi, hpid⟩ := ProcessTable.find_some hcur
    rcases slots_put_some hr with ⟨rfl, rfl⟩ | ⟨hj, hold⟩
    · exact Function.update_self _ _ _
    · have hsame : r.pid = q.pid := hwait.symm.trans hpid.symm
      exact absurd (hok.table.distinct j i r q hold hi hsame) hj
  wait := by
    rintro g s s' i j q child hok hs hcur hj hparent halive rfl hforgotten k r hr hb hwait
    rcases slots_put_some hr with ⟨rfl, rfl⟩ | ⟨hk, hold⟩
    · exact absurd hwait (hforgotten nofun)
    · rw [Function.update_of_ne hk]
      exact hs k r hold hb hwait

section CtrlC

variable {g : Waits} {s t : System}

theorem pushByte_table_forgotten (b : BitVec 8) (h : s.tty.waitingPid = 0) :
    (pushByte s b).table = s.table := by
  have hwait : (s.tty.store b).waitingPid = 0 := (Tty.store_waitingPid _ b).trans h
  rw [pushByte, System.wakeReader, if_pos hwait]

/-- A byte that reaches the buffer wakes the reader. -/
theorem pushByte_table_blocked {table : ProcessTable} {pid : ℕ} {i : Fin 64} {q : Process}
    (b : BitVec 8) (htable : s.table = table) (hwait : s.tty.waitingPid = pid) (hne : pid ≠ 0)
    (hfind : table.find pid = some (i, q)) (hb : q.state = .blocked) :
    (pushByte s b).table = table.put i (some { q with state := .ready }) := by
  subst htable hwait
  rw [pushByte, System.wakeReader]
  simp only [Tty.store_waitingPid, hne, hfind, hb, ↓reduceIte]
  rfl

/-- **Ctrl-C interrupts the reader**, if the record is right. -/
theorem ReaderOk.interruptsReader (ht : TableOk s.table) (hs : ReaderOk g s) :
    InterruptsReader g s := by
  unfold InterruptsReader handleCtrlc
  dsimp only
  split
  next hzero => exact .inl (congrArg ProcessTable.slots (pushByte_table_forgotten _ hzero))
  next hwait =>
    split
    next => exact .inl (congrArg ProcessTable.slots (pushByte_table_forgotten _ rfl))
    next i q hfind =>
      obtain ⟨hi, hpid⟩ := ProcessTable.find_some hfind
      split
      next hb =>
        refine .inr ⟨i, q, hi, hb, hs i q hi hb hpid.symm, ?_⟩
        have hd : (s.table.put i (some (q.raise sigInt))).Distinct :=
          ht.distinct.congr (ProcessTable.pids_put hi rfl)
        have hfound := hd.find_eq ProcessTable.put_same
        rw [show (q.raise sigInt).pid = s.tty.waitingPid from hpid] at hfound
        have hpush : (pushByte ({ s with tty := { s.tty with line := [] } }.put i (q.raise sigInt))
            0x0a#8).table = _ := pushByte_table_blocked _ rfl rfl hwait hfound hb
        exact (congrArg ProcessTable.slots hpush).trans (Function.update_idem _ _ _)
      next => exact .inl (congrArg ProcessTable.slots (pushByte_table_forgotten _ rfl))

theorem boot_readerOk (b : BootImage) (ttyVnode : Vnode) :
    ReaderOk (fun _ => none) (startScheduler (spawnInit b ttyVnode)) := by
  have hs : ReaderOk (fun _ => none) (spawnInit b ttyVnode) := by
    intro i q hq hb
    rw [(spawnInit_slots hq).1] at hb
    cases hb
  unfold startScheduler
  split
  next => exact hs
  next i q hfind =>
    exact ReaderOk.put (hs.mono rfl fun j r hr hb => ⟨r, hr, hb, rfl⟩)
      (ProcessTable.find_some hfind).1 rfl nofun

/-- **Ctrl-C interrupts a process that is blocked in a read, or nobody**, wherever it is in the input
that an event polls, in every run from boot in which nobody blocks in `waitpid` while the terminal
remembers it. -/
theorem ctrlC_interrupts_reader (b : BootImage) (ttyVnode : Vnode) {es : List Event} {s : Tracked}
    (hrun : Run (TrackedStep ReaderForgotten)
      ⟨startScheduler (spawnInit b ttyVnode), fun _ => none⟩ es s)
    (hpids : es.countP Event.handsOut < 2 ^ 64 - 3) {e : Event} {typed rest : List (BitVec 8)}
    (h : Polls s.sys e (typed ++ 0x03#8 :: rest) t) :
    InterruptsReader s.waits (processInput typed t) := by
  obtain ⟨hboot, hnext₀⟩ := boot_ok b ttyVnode
  obtain ⟨hok, hnext, hs⟩ := readerOk_tracking.run hboot (boot_readerOk b ttyVnode) hrun (by
    change (startScheduler (spawnInit b ttyVnode)).table.nextPid + _ < _
    omega)
  have hin := processInput_changes (s := t) typed
  have hpolled : TableOk t.table ∧ ReaderOk s.waits t := by
    generalize typed ++ 0x03#8 :: rest = input at h
    cases h with
    | irq => exact ⟨hok.table, hs⟩
    | read runs =>
      rename_i saved len frames
      have hch := called_changes runs
      exact ⟨hch.steady.tableOk hok.table, (readerOk_tracking.keeps _).changes
        (s := { s.sys with syscallState := saved }) hok.table hs hch⟩
  exact ReaderOk.interruptsReader (hin.steady.tableOk hpolled.1)
    ((readerOk_tracking.keeps _).changes hpolled.1 hpolled.2 hin)

end CtrlC

/-- Init blocks in a read. -/
def initReads : List Event :=
  [.syscall ⟨0#64, 0#64, 0#64⟩ (.fork (.built 0 0)) fun _ => ⟨true, 0x3000⟩,
    .syscall ⟨0#64, 0#64, 0#64⟩ (.ttyRead 16 []) fun _ => ⟨true, 0x3000⟩]

/-- The child wakes init by a signal, and init waits for it. -/
def waitsNext : List Event :=
  initReads ++
    [.syscall ⟨0#64, 0#64, 0#64⟩ (.kill 1 1) fun _ => ⟨true, 0x3000⟩,
      .irq 0 [] fun _ => ⟨true, 0x3000⟩,
      .syscall ⟨0#64, 0#64, 0#64⟩ (.waitpid (2 ^ 64 - 1) 0) fun _ => ⟨true, 0x3000⟩]

/-- Init is interrupted in its read. -/
theorem ctrlC_interrupts_reader_init :
    ∃ s, Run (TrackedStep ReaderForgotten) ⟨quietBoot, fun _ => none⟩ initReads s ∧
      ((handleCtrlc s.sys).table.slots 0).map Process.sigPending = some (1#64 <<< sigInt) ∧
      InterruptsReader s.waits s.sys := by
  have hseen : ∃ s, Run (TrackedStep ReaderForgotten) ⟨quietBoot, fun _ => none⟩ initReads s ∧
      ((handleCtrlc s.sys).table.slots 0).map Process.sigPending = some (1#64 <<< sigInt) := by
    decide +kernel
  obtain ⟨s, hrun, hsent⟩ := hseen
  have hpolls : Polls s.sys (.irq 0 [0x03#8] fun _ => ⟨true, 0x3000⟩) ([] ++ [0x03#8]) s.sys := .irq
  exact ⟨s, hrun, hsent, ctrlC_interrupts_reader _ _ hrun (by decide) hpolls⟩

/-- **Ctrl-C interrupts a process that waits for its child**: init, woken from a read by a signal,
blocks in `waitpid`. -/
theorem ctrlC_interrupts_waiter :
    ∃ s, Run (TrackedStep fun _ => True) ⟨quietBoot, fun _ => none⟩ waitsNext s ∧
      s.waits 0 = some (.child 3) ∧ (s.sys.table.slots 0).map Process.state = some .blocked ∧
      (s.sys.table.slots 0).map Process.sigPending = some 0#64 ∧
      ((handleCtrlc s.sys).table.slots 0).map Process.sigPending = some (1#64 <<< sigInt) ∧
      ¬ InterruptsReader s.waits s.sys := by
  have hseen : ∃ s, Run (TrackedStep fun _ => True) ⟨quietBoot, fun _ => none⟩ waitsNext s ∧
      s.waits 0 = some (.child 3) ∧ (s.sys.table.slots 0).map Process.state = some .blocked ∧
      (s.sys.table.slots 0).map Process.sigPending = some 0#64 ∧
      ((handleCtrlc s.sys).table.slots 0).map Process.sigPending = some (1#64 <<< sigInt) := by
    decide +kernel
  obtain ⟨s, hrun, hwait, hblocked, hbefore, hafter⟩ := hseen
  refine ⟨s, hrun, hwait, hblocked, hbefore, hafter, ?_⟩
  rintro (hsame | ⟨i, q, hi, hb, hinput, hslots⟩)
  · rw [hsame, hbefore] at hafter
    cases hafter
  · by_cases hzero : i = 0
    · subst hzero
      rw [hwait] at hinput
      cases hinput
    · rw [hslots, Function.update_of_ne (Ne.symm hzero), hbefore] at hafter
      cases hafter

end Vibix.Proc
