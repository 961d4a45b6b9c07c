import Vibix.Proc.StepRule

/-! # Wake-ups

A process blocks in two places: in `waitpid`, until a child terminates, and in a read from the
terminal, until input arrives.  `System.HasWaker` says that something will wake it: the child it waits
for is alive, or it is the process that the terminal remembers.

The terminal remembers one process only.  A process that blocks in a read while another one is
blocked in a read takes its place, and the other one is never woken (`second_reader_loses_first`).
As long as that does not happen (`Event.readsAlone`), every blocked process has a waker, in every
state (`blocked_has_waker`). -/

namespace Vibix.Proc

open Vfs Relation

/-- The child that process `q` waits for is there and alive. -/
def System.ChildAlive (s : System) (q : Process) : Prop :=
  ∃ j child, s.table.slots j = some child ∧ child.pid = q.waitForPid ∧ child.parentPid = q.pid ∧
    child.state ≠ .zombie

/-- Something will wake process `q`. -/
def System.HasWaker (s : System) (q : Process) : Prop :=
  s.ChildAlive q ∨ s.tty.waitingPid = q.pid

/-- Every blocked process has a waker. -/
def System.WakersOk (s : System) : Prop :=
  ∀ i q, s.table.slots i = some q → q.state = .blocked → s.HasWaker q

instance (s : System) (q : Process) : Decidable (s.ChildAlive q) :=
  inferInstanceAs (Decidable (∃ j, ∃ child ∈ s.table.slots j, child.pid = q.waitForPid ∧
    child.parentPid = q.pid ∧ child.state ≠ .zombie))

instance (s : System) (q : Process) : Decidable (s.HasWaker q) :=
  inferInstanceAs (Decidable (_ ∨ _))

instance (s : System) : Decidable s.WakersOk :=
  inferInstanceAs (Decidable (∀ i, ∀ q ∈ s.table.slots i, q.state = .blocked → s.HasWaker q))

section Preserved

variable {s s' : System} {i : Fin 64} {q q' : Process}

theorem Steady.childAlive (h : Steady s s') (hm : q.Moved q') (hc : s.ChildAlive q) :
    s'.ChildAlive q' := by
  obtain ⟨j, c, hj, hpid, hparent, halive⟩ := hc
  obtain ⟨c', hc', hcm⟩ := h.forward hj
  refine ⟨j, c', hc', ?_, ?_, fun hz => halive (hcm.zombie_iff.mp hz)⟩
  · rw [hcm.pid, hm.waitForPid, hpid]
  · rw [hcm.parentPid, hm.pid, hparent]

theorem Steady.wakers (h : Steady s s') (hw : s'.tty.waitingPid = s.tty.waitingPid)
    (hs : s.WakersOk) : s'.WakersOk := by
  intro i q' hq' hb
  obtain ⟨q, hq, hm⟩ := h.backward hq'
  refine (hs i q hq (hm.blocked hb)).imp (h.childAlive hm) fun hwait => ?_
  rw [hw, hwait, hm.pid]

/-- A step that makes the terminal forget its reader, if the reader does not stay blocked. -/
theorem Steady.wakers_forget (h : Steady s s')
    (hready : ∀ i q', s'.table.slots i = some q' → s.tty.waitingPid = q'.pid → q'.state ≠ .blocked)
    (hs : s.WakersOk) : s'.WakersOk := by
  intro i q' hq' hb
  obtain ⟨q, hq, hm⟩ := h.backward hq'
  rcases hs i q hq (hm.blocked hb) with hc | hwait
  · exact .inl (h.childAlive hm hc)
  · exact absurd hb (hready i q' hq' (by rw [hwait, hm.pid]))

theorem wakeReader_wakers (ht : TableOk s.table) (hs : s.WakersOk) : s.wakeReader.WakersOk := by
  have hsteady := wakeReader_steady (s := s)
  by_cases hzero : s.tty.waitingPid = 0
  · have hsame : s.wakeReader = s := by
      unfold System.wakeReader
      rw [if_pos hzero]
    rw [hsame]
    exact hs
  · refine hsteady.wakers_forget (fun i q' hq' hwait hb => ?_) hs
    obtain ⟨q, hq, hm⟩ := hsteady.backward hq'
    have hfind : s.table.find s.tty.waitingPid = some (i, q) := by
      rw [hwait, hm.pid]
      exact ht.find_eq hq
    have hslot : s.wakeReader.table.slots i = some { q with state := .ready } := by
      simp only [System.wakeReader, hzero, hfind, hm.blocked hb, ↓reduceIte]
      exact ProcessTable.put_same
    rw [hq'] at hslot
    cases hslot
    cases hb

theorem Change.wakers (h : Change s s') (ht : TableOk s.table) (hs : s.WakersOk) : s'.WakersOk := by
  have hsteady := h.steady
  cases h with
  | globals table current stack waiting sched log => exact hsteady.wakers waiting hs
  | update | consume | wake => exact hsteady.wakers rfl hs
  | wakeReader => exact wakeReader_wakers ht hs
  | forgetReader idle =>
    refine hsteady.wakers_forget (fun i q hq hwait => idle i q ?_) hs
    rw [hwait]
    exact ht.find_eq hq

theorem Changes.wakers (h : Changes s s') (ht : TableOk s.table) (hs : s.WakersOk) :
    s'.WakersOk := by
  induction h with
  | refl => exact hs
  | tail hch hlast ih => exact hlast.wakers (Changes.steady hch |>.tableOk ht) ih

/-- A process changes, but is not blocked by it, and not a zombie by it. -/
theorem System.WakersOk.put (hs : s.WakersOk) (hi : s.table.slots i = some q)
    (hpid : q'.pid = q.pid) (hparent : q'.parentPid = q.parentPid)
    (hzombie : q'.state = .zombie → q.state = .zombie)
    (hblocked : q'.state = .blocked → (s.put i q').HasWaker q') : (s.put i q').WakersOk := by
  intro j r hr hb
  rcases slots_put_some hr with ⟨rfl, rfl⟩ | ⟨hj, hold⟩
  · exact hblocked hb
  · refine (hs j r hold hb).imp (fun hc => ?_) id
    obtain ⟨k, c, hk, hcpid, hcparent, halive⟩ := hc
    by_cases hki : k = i
    · subst hki
      rw [hi] at hk
      cases hk
      exact ⟨k, q', ProcessTable.put_same, hpid.trans hcpid, hparent.trans hcparent,
        fun hz => halive (hzombie hz)⟩
    · exact ⟨k, c, (ProcessTable.put_ne hki).trans hk, hcpid, hcparent, halive⟩

/-- A process that stays blocked in the same place keeps its waker. -/
theorem System.HasWaker.put (hi : s.table.slots i = some q) (hpid : q'.pid = q.pid)
    (hparent : q'.parentPid = q.parentPid) (hwait : q'.waitForPid = q.waitForPid)
    (hzombie : q'.state = .zombie → q.state = .zombie) (h : s.HasWaker q) :
    (s.put i q').HasWaker q' := by
  refine h.imp (fun hc => ?_) fun h => h.trans hpid.symm
  obtain ⟨k, c, hk, hcpid, hcparent, halive⟩ := hc
  by_cases hki : k = i
  · subst hki
    rw [hi] at hk
    cases hk
    exact ⟨k, q', ProcessTable.put_same, by rw [hpid, hcpid, hwait], by rw [hparent, hcparent, hpid],
      fun hz => halive (hzombie hz)⟩
  · exact ⟨k, c, (ProcessTable.put_ne hki).trans hk, by rw [hcpid, hwait], by rw [hcparent, hpid],
      halive⟩

/-- **Termination** wakes the parent that waits for the process. -/
theorem Killed.wakers {cleared : Option ℕ} (h : Killed s s' cleared) (ht : TableOk s.table)
    (hs : s.WakersOk) : s'.WakersOk := by
  obtain ⟨i, q, z, events, hcur, hb, heq⟩ := h.buried ht
  have hwaiting : s'.tty.waitingPid = s.tty.waitingPid := by rw [heq]
  intro j r hr hblocked
  rcases hb.backward hr with ⟨rfl, rfl⟩ | ⟨hj, hold⟩ | ⟨-, p, -, -, -, rfl⟩
  · rw [hb.zombie.2] at hblocked
    cases hblocked
  · refine (hs j r hold hblocked).imp (fun hc => ?_) fun h => hwaiting.trans h
    obtain ⟨k, c, hk, hcpid, hcparent, halive⟩ := hc
    by_cases hki : k = i
    · -- the child that `r` waits for is the process that terminates: `r` would be ready
      subst hki
      rw [hb.slot] at hk
      cases hk
      have hwoken := hb.parent j r hold hcparent.symm hblocked hcpid.symm hj
      rw [hr] at hwoken
      have hready : r.state = .ready := (congrArg Process.state (Option.some.inj hwoken) :)
      rw [hblocked] at hready
      cases hready
    · rcases hb.others k hki with hsame | ⟨p, hp, -, -, hwoken⟩
      · exact ⟨k, c, hsame.trans hk, hcpid, hcparent, halive⟩
      · rw [hk] at hp
        cases hp
        exact ⟨k, _, hwoken, hcpid, hcparent, nofun⟩
  · cases hblocked

end Preserved

section Effects

variable {s s' : System} {call : Call}

/-- The process that the terminal remembers is not blocked, or waits for a child besides. -/
def System.ReaderSafe (s : System) : Prop :=
  ∀ i q, s.table.slots i = some q → q.state = .blocked → s.tty.waitingPid = q.pid → s.ChildAlive q

instance (s : System) : Decidable s.ReaderSafe :=
  inferInstanceAs (Decidable (∀ i, ∀ q ∈ s.table.slots i, q.state = .blocked →
    s.tty.waitingPid = q.pid → s.ChildAlive q))

/-- Blocking in a read does not take the place of a reader that nothing else will wake. -/
def Call.readsAlone (s : System) : Call → Prop
  | .ttyRead _ input =>
    (processInput input s).tty.tail = (processInput input s).tty.head →
      (processInput input s).ReaderSafe
  | _ => True

instance (s : System) (call : Call) : Decidable (call.readsAlone s) := by
  unfold Call.readsAlone
  split <;> infer_instance

/-- **The effect of a system call.** -/
theorem Effect.wakers (h : Effect call s s') (hok : SysOk s) (hs : s.WakersOk)
    (halone : call.readsAlone s) : s'.WakersOk := by
  cases h with
  | blockRead empty current =>
    rename_i len input i q
    have hin := processInput_changes (s := s) input
    have hok₁ := hin.steady.ok hok
    have hs₁ := hin.wakers hok.table hs
    obtain ⟨hi, hpid⟩ := ProcessTable.find_some current
    intro j r hr hb
    rcases slots_put_some hr with ⟨rfl, rfl⟩ | ⟨hj, hold⟩
    · exact .inr hpid.symm
    · -- another blocked process: it waits for a child, whose state may now be `blocked`
      have hc : (processInput input s).ChildAlive r := by
        rcases hs₁ j r hold hb with hc | hwait
        · exact hc
        · exact halone empty j r hold hb hwait
      obtain ⟨k, c, hk, hcpid, hcparent, halive⟩ := hc
      by_cases hki : k = i
      · subst hki
        rw [hi] at hk
        cases hk
        exact .inl ⟨k, _, ProcessTable.put_same, hcpid, hcparent, nofun⟩
      · exact .inl ⟨k, c, (ProcessTable.put_ne hki).trans hk, hcpid, hcparent, halive⟩
  | blockWait current slot parent alive =>
    rename_i requested flags i j q child
    obtain ⟨hi, hpid⟩ := ProcessTable.find_some current
    refine System.WakersOk.put hs hi rfl rfl nofun fun _ => .inl ?_
    by_cases hji : j = i
    · subst hji
      rw [hi] at slot
      cases slot
      exact ⟨j, _, ProcessTable.put_same, rfl, parent.trans hpid.symm, nofun⟩
    · exact ⟨j, child, (ProcessTable.put_ne hji).trans slot, rfl, parent.trans hpid.symm, alive⟩
  | reap slot parent zombie found =>
    rename_i requested flags i j child reaped oft
    rw [hok.table.find_eq slot] at found
    cases found
    intro a r hr hb
    have ha : a ≠ i := by
      rintro rfl
      have hnone : (s.table.put a none).slots a = some r := hr
      rw [ProcessTable.put_same] at hnone
      cases hnone
    refine (hs a r ((ProcessTable.put_ne ha).symm.trans hr) hb).imp (fun hc => ?_) id
    obtain ⟨k, c, hk, hcpid, hcparent, halive⟩ := hc
    have hki : k ≠ i := by
      rintro rfl
      rw [slot] at hk
      cases hk
      exact halive zombie
    exact ⟨k, c, (ProcessTable.put_ne hki).trans hk, hcpid, hcparent, halive⟩
  | exit killed => exact killed.wakers hok.table hs
  | noSlot => exact hs
  | fork current free =>
    rename_i i j parent base root oft
    intro a r hr hb
    rcases slots_put_some hr with ⟨rfl, rfl⟩ | ⟨-, hold⟩
    · cases hb
    · refine (hs a r hold hb).imp (fun hc => ?_) id
      obtain ⟨k, c, hk, hrest⟩ := hc
      have hki : k ≠ i := by
        rintro rfl
        rw [free] at hk
        cases hk
      exact ⟨k, c, (ProcessTable.put_ne hki).trans hk, hrest⟩
  | exec current =>
    rename_i i q image oft saved
    refine System.WakersOk.put hs (current_slot current) rfl rfl id fun hb => ?_
    have hblocked : q.state = .blocked := hb
    rw [hok.running current] at hblocked
    cases hblocked
  | sigreturn current frame =>
    rename_i mask i q
    refine System.WakersOk.put hs (current_slot current) rfl rfl id fun hb => ?_
    have hblocked : q.state = .blocked := hb
    rw [hok.running current] at hblocked
    cases hblocked

end Effects

section Steps

variable {s s' : System}

/-- **Steps keep the wakers**, if a read takes no reader's place. -/
theorem wakers_invariant : Invariant System.WakersOk fun s call => call.readsAlone s where
  globals s s' htable htty hs := by
    intro i q hq hb
    rw [htable] at hq
    rcases hs i q hq hb with ⟨j, child, hj, hrest⟩ | hwait
    · exact .inl ⟨j, child, htable ▸ hj, hrest⟩
    · exact .inr (by rw [htty, hwait])
  change _ _ ht hs hch := hch.wakers ht hs
  kill _ _ _ ht _ hs hkilled := hkilled.wakers ht hs
  effect _ _ _ hok _ _ halone hs heff := heff.wakers hok hs halone
  sched s i q rsp st ht hs hi hst _ := by
    have hkeep : ∀ {r : ProcessState}, r ≠ .ready → r ≠ .running → st = r → q.state = r := by
      rintro r hready hrunning rfl
      rcases hst with h | h | h
      · exact absurd h hready
      · exact absurd h hrunning
      · exact h.symm
    exact hs.put hi rfl rfl (hkeep nofun nofun) fun hb =>
      .put hi rfl rfl rfl (hkeep nofun nofun) (hs i q hi (hkeep nofun nofun hb))

/-- The condition on the events of a run: see `Call.readsAlone`. -/
def Event.readsAlone (s : System) : Event → Prop
  | .syscall saved call _ => ∀ s₁ ∈ s.called saved, call.readsAlone s₁
  | .irq .. => True

instance (s : System) : (e : Event) → Decidable (e.readsAlone s)
  | .syscall saved call _ => inferInstanceAs (Decidable (∀ s₁ ∈ s.called saved, call.readsAlone s₁))
  | .irq .. => isTrue trivial

theorem boot_wakers (b : BootImage) (ttyVnode : Vnode) :
    (startScheduler (spawnInit b ttyVnode)).WakersOk := by
  have hs : (spawnInit b ttyVnode).WakersOk := by
    intro i q hq hb
    rw [(spawnInit_slots hq).1] at hb
    cases hb
  unfold startScheduler
  split
  next => exact hs
  next i q hfind =>
    have hi := (ProcessTable.find_some hfind).1
    exact System.WakersOk.put (s := { spawnInit b ttyVnode with .. }) hs hi rfl rfl nofun nofun

/-- **No wake-up is lost**, in every state reached from boot by steps in which no read takes the
place of a reader that nothing else will wake (and fewer than `2 ^ 64 - 3` PIDs are handed out): every
blocked process waits for a child that is there and not a zombie, or is the process that the terminal
remembers. -/
theorem blocked_has_waker (b : BootImage) (ttyVnode : Vnode) {es : List Event}
    (hrun : Run (fun s e s' => Step s e s' ∧ e.readsAlone s)
      (startScheduler (spawnInit b ttyVnode)) es s)
    (hpids : es.countP Event.handsOut < 2 ^ 64 - 3) :
    ∀ i q, s.table.slots i = some q → q.state = .blocked →
      (∃ j child, s.table.slots j = some child ∧ child.pid = q.waitForPid ∧
        child.parentPid = q.pid ∧ child.state ≠ .zombie) ∨ s.tty.waitingPid = q.pid := by
  obtain ⟨hok, hnext⟩ := boot_ok b ttyVnode
  refine wakers_invariant.run hok (boot_wakers b ttyVnode) (hrun.mono ?_) (by omega)
  rintro t e u ⟨hstep, halone⟩
  refine ⟨hstep, ?_⟩
  rintro saved call frames rfl
  exact halone

/-- The state after events that meet the condition. -/
def System.nextAlone (s : System) (e : Event) : Option System :=
  if e.readsAlone s then s.next e else none

theorem nextAlone_step {e : Event} (h : s.nextAlone e = some s') : Step s e s' ∧ e.readsAlone s := by
  unfold System.nextAlone at h
  split at h
  next halone => exact ⟨h, halone⟩
  next => cases h

/-- Init blocks in a read, and its child gets to run. -/
theorem blocked_has_waker_read :
    ∃ s, Run (fun s e s' => Step s e s' ∧ e.readsAlone s)
        (startScheduler (spawnInit ⟨⟨0, 0, 0x3000, 0⟩, 0, 0, 0, 0⟩ ⟨0, none, true⟩))
        [.syscall ⟨0#64, 0#64, 0#64⟩ (.fork (.built 0 0)) fun _ => ⟨true, 0x3000⟩,
          .syscall ⟨0#64, 0#64, 0#64⟩ (.ttyRead 16 []) fun _ => ⟨true, 0x3000⟩,
          .syscall ⟨0#64, 0#64, 0#64⟩ (.setBreak 0x5001000 0 0) fun _ => ⟨true, 0x3000⟩] s ∧
      (s.currentPid = 3 ∧ (s.table.slots 0).map Process.state = some .blocked) ∧
      ∀ i q, s.table.slots i = some q → q.state = .blocked →
        (∃ j child, s.table.slots j = some child ∧ child.pid = q.waitForPid ∧
          child.parentPid = q.pid ∧ child.state ≠ .zombie) ∨ s.tty.waitingPid = q.pid := by
  refine Exists.imp (fun s h => ⟨h.1.mono fun _ _ _ => nextAlone_step, h.2,
      blocked_has_waker _ _ (h.1.mono fun _ _ _ => nextAlone_step) (by decide)⟩)
    (?_ : ∃ s, Run (fun s e s' => s.nextAlone e = some s') _ _ s ∧ s.currentPid = 3 ∧
      (s.table.slots 0).map Process.state = some .blocked)
  decide +kernel

/-- **A second reader takes the place of the first**: init blocks in a read from the terminal, and
then its child does.  Init is blocked, and nothing will wake it. -/
theorem second_reader_loses_first :
    ∃ s, Run Step (startScheduler (spawnInit ⟨⟨0, 0, 0x3000, 0⟩, 0, 0, 0, 0⟩ ⟨0, none, true⟩))
        [.syscall ⟨0#64, 0#64, 0#64⟩ (.fork (.built 0 0)) fun _ => ⟨true, 0x3000⟩,
          .syscall ⟨0#64, 0#64, 0#64⟩ (.ttyRead 16 []) fun _ => ⟨true, 0x3000⟩,
          .syscall ⟨0#64, 0#64, 0#64⟩ (.ttyRead 16 []) fun _ => ⟨true, 0x3000⟩] s ∧
      s.tty.waitingPid = 3 ∧ (s.table.slots 0).map Process.state = some .blocked ∧
      ¬ ∀ i q, s.table.slots i = some q → q.state = .blocked →
        (∃ j child, s.table.slots j = some child ∧ child.pid = q.waitForPid ∧
          child.parentPid = q.pid ∧ child.state ≠ .zombie) ∨ s.tty.waitingPid = q.pid := by
  change ∃ s, _ ∧ _ ∧ _ ∧ ¬ System.WakersOk s
  decide +kernel

end Steps

end Vibix.Proc
