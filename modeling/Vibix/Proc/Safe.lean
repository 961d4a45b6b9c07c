import Vibix.Lib.Run
import Vibix.Proc.TableOk

/-! # The scheduler is safe

A system call may leave the current process blocked or terminated, and then asks for a switch
(`Effect.handled`).  The scheduler, from a table in which nobody runs, always finds a process that is
ready, because the idle process is; each round that kills the selected process leaves one process
less that is not a zombie, so the loop ends (`schedule_ok`).  Hence a step from a good state leads to
a good state (`Step.ok`), and none of the panics and halt loops of the scheduler is reached
(`scheduler_safe`), as long as `next_pid` does not wrap around. -/

namespace Vibix.Proc

open Vfs Relation

/-! ### System calls -/

/-- A PID is used up. -/
def Call.handsOut : Call → Bool
  | .fork (.built _ _) => true
  | _ => false

section Effects

variable {s s' : System} {i : Fin 64} {q q' : Process} {call : Call}

theorem TableOk.skip {t : ProcessTable} (h : TableOk t) :
    TableOk { t with nextPid := t.nextPid + 1 } :=
  ⟨h.distinct, h.positive, fun j r hr => Nat.lt_succ_of_lt (h.below j r hr), h.count, h.idle,
    h.idleState⟩

theorem SysOk.handled (h : SysOk s) (hne : s.currentPid ≠ 2) : Handled s :=
  ⟨h.table, h.runs.present, h.only, hne, fun _ => h.runs⟩

/-- A zombie is removed. -/
theorem SysOk.remove (h : SysOk s) (hi : s.table.slots i = some q) (hz : q.state = .zombie)
    (oft : OpenFileTable) : SysOk { s with
      table := { s.table.put i none with count := s.table.count - 1 }, oft := oft } := by
  obtain ⟨k, r, hk, hpid, hrun⟩ := h.runs
  have hki : k ≠ i := by
    rintro rfl
    rw [hi] at hk
    cases hk
    rw [hz] at hrun
    cases hrun
  refine ⟨h.table.remove hi hz, ⟨k, r, (ProcessTable.put_ne hki).trans hk, hpid, hrun⟩, ?_⟩
  intro a p hp hpr
  exact h.only a p (slots_put_none hp).2 hpr

/-- The current process changes, and a switch is asked for if it does not run on. -/
theorem Handled.put (ht : TableOk s.table) (ho : s.Only s.currentPid) (hne : s.currentPid ≠ 2)
    (hcur : s.current = some (i, q)) (hpid : q'.pid = q.pid)
    (hrun : s.shouldSchedule = false → q'.state = .running) : Handled (s.put i q') := by
  obtain ⟨hi, hq⟩ := ProcessTable.find_some hcur
  have hslot : (s.put i q').table.slots i = some q' := ProcessTable.put_same
  exact ⟨ht.put hi hpid fun h2 => absurd (hq.symm.trans h2) hne, ⟨i, q', hslot, hpid.trans hq⟩,
    ho.put fun _ => hpid.trans hq, hne, fun hs => ⟨i, q', hslot, hpid.trans hq, hrun hs⟩⟩

/-- The current process is terminated. -/
theorem Killed.handled {cleared : Option ℕ} (h : Killed s s' cleared) (hs : SysOk s)
    (hne : s.currentPid ≠ 2) : Handled { s' with shouldSchedule := true } := by
  obtain ⟨i, q, z, events, hcur, hb, heq⟩ := h.buried hs.table
  obtain ⟨hi, hpid⟩ := ProcessTable.find_some hcur
  have hcurrent : s'.currentPid = s.currentPid := by rw [heq]
  refine ⟨hb.tableOk hs.table (hpid ▸ hne), ⟨i, z, hb.zombie.1, ?_⟩, fun j r hr hrun => ?_, ?_,
    nofun⟩
  · exact (hb.pid.trans hpid).trans hcurrent.symm
  · exact (hs.only j r (hb.running hr hrun) hrun).trans hcurrent.symm
  · exact hcurrent ▸ hne

/-- **The effect of a system call.** -/
theorem Effect.handled (h : Effect call s s') (hs : SysOk s) (hne : s.currentPid ≠ 2)
    (hwrap : call.handsOut = true → s.table.nextPid + 1 < 2 ^ 64) : Handled s' := by
  cases h with
  | blockRead empty current =>
    rename_i len input i q
    have hin : SysOk (processInput input s) := (processInput_changes input).steady.ok hs
    have hcur : (processInput input s).currentPid = s.currentPid :=
      (processInput_changes input).steady.currentPid
    refine Handled.put hin.table hin.only ?_ current rfl ?_
    · change (processInput input s).currentPid ≠ 2
      rw [hcur]
      exact hne
    · nofun
  | blockWait current slot parent alive =>
    refine Handled.put hs.table hs.only hne current rfl ?_
    nofun
  | reap slot parent zombie found =>
    rename_i requested flags i j child reaped oft
    rw [hs.table.find_eq slot] at found
    cases found
    exact (hs.remove slot zombie oft).handled hne
  | exit killed => exact killed.handled hs hne
  | noSlot =>
    rw [Nat.mod_eq_of_lt (hwrap rfl)]
    exact ⟨hs.table.skip, hs.runs.present, hs.only, hne, fun _ => hs.runs⟩
  | fork current free =>
    rename_i i j parent base root oft
    rw [Nat.mod_eq_of_lt (hwrap rfl)]
    obtain ⟨k, q, hk, hpid, hrun⟩ := hs.runs
    have hki : k ≠ i := by
      rintro rfl
      rw [free] at hk
      cases hk
    have hkeep : (s.table.put i (some (forkChild s parent base root))).slots k = some q :=
      (ProcessTable.put_ne hki).trans hk
    refine ⟨hs.table.add free rfl, ⟨k, q, hkeep, hpid⟩, fun a r hr hrr => ?_, hne,
      fun _ => ⟨k, q, hkeep, hpid, hrun⟩⟩
    rcases slots_put_some hr with ⟨rfl, rfl⟩ | ⟨-, hold⟩
    · cases hrr
    · exact hs.only a r hold hrr
  | exec current =>
    have hrun := hs.running current
    exact Handled.put hs.table hs.only hne current rfl fun _ => hrun
  | sigreturn current frame =>
    refine Handled.put hs.table hs.only hne current rfl ?_
    nofun

/-- What the signal check does before a call is run. -/
theorem called_changes {saved : SyscallSavedState} (h : s' ∈ s.called saved) :
    Changes { s with syscallState := saved } s' := by
  unfold System.called at h
  split at h
  next s₁ cleared hcheck =>
    cases h
    rcases checkSignals_cases hcheck with ⟨-, hch, -, -⟩ | ⟨hres, -⟩
    · exact hch
    · cases hres
  next => cases h

/-- The handler of a system call leaves the kernel ready for a switch, or the caller running. -/
theorem syscallHandler_handled {rc : ℤ} (hs : SysOk s) (hne : s.currentPid ≠ 2)
    (hwrap : call.handsOut = true → s.table.nextPid + 1 < 2 ^ 64)
    (hrun : syscallHandler call s = .ok (s', rc)) : Handled s' := by
  unfold syscallHandler at hrun
  split at hrun
  next => cases hrun
  next s₁ cleared hcheck =>
    rcases checkSignals_cases hcheck with ⟨-, hch, -, -⟩ | ⟨hres, -⟩
    · have h₁ := hch.steady.ok hs
      have hne₁ : s₁.currentPid ≠ 2 := hch.steady.currentPid ▸ hne
      rcases call.run_cases hrun with hch' | heff
      · exact (hch'.steady.ok h₁).handled (hch'.steady.currentPid ▸ hne₁)
      · exact heff.handled h₁ hne₁ (hch.steady.nextPid ▸ hwrap)
    · cases hres
  next s₁ res cleared hres hcheck =>
    cases hrun
    rcases checkSignals_cases hcheck with ⟨-, hch, -, -⟩ | ⟨-, hkilled⟩
    · have h₁ := hch.steady.ok hs
      exact ⟨h₁.table, h₁.runs.present, h₁.only, hch.steady.currentPid ▸ hne, nofun⟩
    · exact hkilled.handled hs hne

end Effects

/-! ### The scheduler -/

section Scheduler

variable {s s' : System}

theorem exists_of_slotPid {t : ProcessTable} {p : Process → Bool} {i : Fin 64} {pid : ℕ}
    (h : slotPid t p i = some pid) : ∃ q, t.slots i = some q ∧ p q = true ∧ q.pid = pid := by
  obtain ⟨q, hq, hp⟩ := Option.bind_eq_some_iff.mp h
  split at hp
  next hpq =>
    cases hp
    exact ⟨q, hq, hpq, rfl⟩
  next => cases hp

/-- **`sched_next` selects a process that is ready**, when nobody runs. -/
theorem schedNext_ready (ht : TableOk s.table) (hstill : s.Still) :
    ∃ i q, s.table.slots i = some q ∧ q.pid = schedNext s ∧ q.state = .ready := by
  unfold schedNext
  split
  next pid hfound =>
    obtain ⟨i, -, hi⟩ := List.exists_of_findSome?_eq_some hfound
    obtain ⟨q, hq, hp, hpid⟩ := exists_of_slotPid hi
    exact ⟨i, q, hq, hpid, (of_decide_eq_true hp).1⟩
  next =>
    obtain ⟨i, q, hi, h2⟩ := ht.idle
    have hready : q.state = .ready := (ht.idleState i q hi h2).resolve_right (hstill i q hi)
    split
    next => exact ⟨i, q, hi, h2, hready⟩
    next hnone =>
      -- the idle process is found if nobody else is
      have hi' := List.findSome?_eq_none_iff.mp hnone i (List.mem_finRange i)
      rw [slotPid, hi, Option.bind_some, if_pos (by simp [hready, h2])] at hi'
      cases hi'

theorem terminate_ok {i : Fin 64} {q q' : Process} (ht : TableOk s.table)
    (hi : s.table.slots i = some q) (hq' : q.SignalsOnly q') (events : List SignalEvent) (code : ℕ) :
    ∃ s' cleared, (s.log events).terminate i q' code = .ok (s', cleared) := by
  unfold System.terminate
  split
  next hnone =>
    have hfind : (s.table.put i (some q')).find q'.pid = some (i, q') :=
      (ht.put_role hi hq'.pid_eq (congrArg Process.state hq'.role_eq :)).find_eq
        ProcessTable.put_same
    have hnot : (s.table.put i (some q')).find q'.pid = none := markZombie_none hnone
    rw [hfind] at hnot
    cases hnot
  next table cleared hz => exact ⟨_, _, rfl⟩

/-- `deliver_pending_signals` does not panic. -/
theorem deliver_ok (ht : TableOk s.table) (hp : s.Present) (frame : FrameView) :
    ∃ s' d, deliverPendingSignals s.currentPid frame s = .ok (s', d) := by
  obtain ⟨i, q, hcur, hi, hpid⟩ := ht.current hp
  unfold deliverPendingSignals
  split
  next => exact ⟨_, _, rfl⟩
  have hfind : s.table.find s.currentPid = some (i, q) := hcur
  rw [hfind]
  dsimp only
  split
  next => exact ⟨_, _, rfl⟩
  split
  next =>
    split
    next =>
      obtain ⟨s₁, c, hterm⟩ := terminate_ok ht hi (clearSignal_only sigKill) [] (128 + sigKill)
      rw [log_nil] at hterm
      rw [hterm]
      exact ⟨_, _, rfl⟩
    next => exact ⟨_, _, rfl⟩
  split
  next => exact ⟨_, _, rfl⟩
  split
  next code hout =>
    obtain ⟨s₁, c, hterm⟩ := terminate_ok ht hi (scan_only signals) _ code
    rw [hterm]
    exact ⟨_, _, rfl⟩
  next => exact ⟨_, _, rfl⟩
  next => exact ⟨_, _, rfl⟩

/-- The number of processes that are not zombies. -/
def ProcessTable.alive (t : ProcessTable) : ℕ :=
  (Finset.univ.filter fun i => (t.slots i).any (·.state ≠ .zombie)).card

theorem ProcessTable.alive_lt (t : ProcessTable) : t.alive < schedRounds := by
  have hle := Finset.card_filter_le (Finset.univ : Finset (Fin 64))
    fun i => ((t.slots i).any (·.state ≠ .zombie)) = true
  rw [Finset.card_univ, Fintype.card_fin] at hle
  unfold alive schedRounds
  omega

theorem Buried.alive_lt {t t' : ProcessTable} {i : Fin 64} {q z : Process} (h : Buried t t' i q z)
    (hq : q.state ≠ .zombie) : t'.alive < t.alive := by
  have hsub : (Finset.univ.filter fun j => (t'.slots j).any (·.state ≠ .zombie)) ⊆
      Finset.univ.filter fun j => (t.slots j).any (·.state ≠ .zombie) := by
    intro j hj
    rw [Finset.mem_filter] at hj ⊢
    refine ⟨hj.1, ?_⟩
    cases hr : t'.slots j with
    | none => simp [hr] at hj
    | some r =>
      rcases h.backward hr with ⟨rfl, rfl⟩ | ⟨-, hold⟩ | ⟨-, p, hold, hblocked, -, -⟩
      · simp [hr, h.zombie.2] at hj
      · rw [hr] at hj
        rw [hold]
        exact hj.2
      · simp [hold, hblocked]
  refine Finset.card_lt_card ((Finset.ssubset_iff_of_subset hsub).mpr ⟨i, ?_, ?_⟩)
  · simp [h.slot, hq]
  · simp [h.zombie]

theorem schedRound_eq {i : Fin 64} {q : Process} (hd : s.table.Distinct)
    (hi : s.table.slots i = some q) (hpid : q.pid = schedNext s) (hready : q.state = .ready)
    (frame : FrameView) :
    schedRound frame s = deliverPendingSignals (schedNext s) frame
      { s with currentPid := schedNext s, kernelStack := q.kernelStackTop } := by
  have hfind := hd.find_eq hi
  rw [hpid] at hfind
  simp only [schedRound, hfind, hready, ne_eq, not_true_eq_false, ↓reduceIte]

/-- A round delivers the signals of a process that was selected. -/
theorem schedRound_cases {P Q : System → Prop}
    (hselect : ∀ s i q, P s → s.table.slots i = some q → q.pid = schedNext s → q.state = .ready →
      Q { s with currentPid := schedNext s, kernelStack := q.kernelStackTop })
    {frame : FrameView} {d : Delivery} (hs : P s) (hrun : schedRound frame s = .ok (s', d)) :
    ∃ s₀, Q s₀ ∧ deliverPendingSignals s₀.currentPid frame s₀ = .ok (s', d) := by
  unfold schedRound at hrun
  split at hrun
  next => cases hrun
  next i q hfind =>
    split at hrun
    next => cases hrun
    next hready =>
      obtain ⟨hi, hpid⟩ := ProcessTable.find_some hfind
      exact ⟨_, hselect s i q hs hi hpid (not_not.mp hready), hrun⟩

/-- **The induction rule for the loop of the scheduler**: from what holds before each round (`P`)
follows what holds once a process is selected (`Q`), and from that what holds before the next round
if it is terminated, and what holds at the end (`R`) if it is resumed. -/
theorem schedule_induct {P Q R : System → Prop}
    (hselect : ∀ s i q, P s → s.table.slots i = some q → q.pid = schedNext s → q.state = .ready →
      Q { s with currentPid := schedNext s, kernelStack := q.kernelStackTop })
    (hkill : ∀ s s' cleared, Q s → s.currentPid ≠ 2 → Killed s s' cleared → P s')
    (hresume : ∀ s s' i q, Q s → Changes s s' → s'.current = some (i, q) →
      R (s'.put i { q with state := .running }))
    {frames : ℕ → FrameView} {n : ℕ} (hrun : schedule frames n s = .ok s') (hs : P s) : R s' := by
  induction n generalizing s with
  | zero => cases hrun
  | succ n ih =>
    unfold schedule at hrun
    split at hrun
    next => cases hrun
    next s₁ cleared hround =>
      obtain ⟨s₀, hs₀, hdeliver⟩ := schedRound_cases hselect hs hround
      rcases deliver_cases hdeliver with ⟨hnot, -, -⟩ | ⟨c, -, hne, hkilled⟩
      · exact absurd rfl (hnot cleared)
      · exact ih hrun (hkill _ _ _ hs₀ hne hkilled)
    next s₁ d hnot hround =>
      obtain ⟨s₀, hs₀, hdeliver⟩ := schedRound_cases hselect hs hround
      rcases deliver_cases hdeliver with ⟨-, hch, -⟩ | ⟨c, rfl, -, -⟩
      · unfold System.resume at hrun
        split at hrun
        next => cases hrun
        next i q hcur =>
          cases hrun
          exact hresume _ _ _ _ hs₀ hch hcur
      · exact absurd rfl (hnot c)

theorem resume_ok (ht : TableOk s.table) (hstill : s.Still) (hp : s.Present) :
    ∃ s', s.resume = .ok s' ∧ SysOk s' ∧ s'.table.nextPid = s.table.nextPid := by
  obtain ⟨i, q, hcur, hi, hpid⟩ := ht.current hp
  have hslot : (s.put i { q with state := .running }).table.slots i =
      some { q with state := .running } := ProcessTable.put_same
  refine ⟨s.put i { q with state := .running }, ?_, ⟨?_, ⟨i, _, hslot, hpid, rfl⟩, ?_⟩, rfl⟩
  · unfold System.resume
    rw [hcur]
  · exact ht.put hi rfl fun _ => .inr rfl
  · exact System.Only.put (fun j r hr hrun => absurd hrun (hstill j r hr)) fun _ => hpid

/-- **The loop of the scheduler ends**, with one process running: the current one. -/
theorem schedule_ok (frames : ℕ → FrameView) {n : ℕ} (ht : TableOk s.table) (hstill : s.Still)
    (hn : s.table.alive < n) :
    ∃ s', schedule frames n s = .ok s' ∧ SysOk s' ∧ s'.table.nextPid = s.table.nextPid := by
  induction n generalizing s with
  | zero => omega
  | succ n ih =>
    obtain ⟨i, q, hi, hpid, hready⟩ := schedNext_ready ht hstill
    unfold schedule
    rw [schedRound_eq ht.distinct hi hpid hready]
    obtain ⟨s₁, hs₁⟩ : ∃ s₁ : System, s₁ =
      { s with currentPid := schedNext s, kernelStack := q.kernelStackTop } := ⟨_, rfl⟩
    have htable : s₁.table = s.table := by rw [hs₁]
    have hcur : schedNext s = s₁.currentPid := by rw [hs₁]
    rw [← hs₁, hcur]
    have ht₁ : TableOk s₁.table := htable ▸ ht
    have hstill₁ : s₁.Still := fun j r hr => hstill j r (htable ▸ hr)
    have hp₁ : s₁.Present := ⟨i, q, htable ▸ hi, hpid.trans hcur⟩
    obtain ⟨s₂, d, hd⟩ := deliver_ok ht₁ hp₁ (frames n)
    rw [hd]
    rcases deliver_cases hd with ⟨hnot, hch, -⟩ | ⟨cleared, rfl, hne, hkilled⟩
    · have hsteady := hch.steady
      obtain ⟨s', hres, hok, hnext⟩ :=
        resume_ok (hsteady.tableOk ht₁) (hsteady.still hstill₁) (hsteady.present hp₁)
      refine ⟨s', ?_, hok, by rw [hnext, hsteady.nextPid, htable]⟩
      cases d with
      | killed c => exact absurd rfl (hnot c)
      | unchanged => exact hres
      | entered => exact hres
    · obtain ⟨k, r, z, events, hcurrent, hb, heq⟩ := hkilled.buried ht₁
      obtain ⟨hk, hrpid⟩ := ProcessTable.find_some hcurrent
      obtain ⟨rfl, rfl⟩ := ht₁.eq_of_pid hk (htable ▸ hi) (hrpid.trans (hcur.symm.trans hpid.symm))
      have hlt := hb.alive_lt (by rw [hready]; nofun)
      have hstill₂ : s₂.Still := fun j p hp hrun => hstill₁ j p (hb.running hp hrun) hrun
      obtain ⟨s', hrun, hok, hnext⟩ := ih (hb.tableOk ht₁ (hrpid ▸ hne)) hstill₂
        (by rw [htable] at hlt; omega)
      exact ⟨s', hrun, hok, by rw [hnext, hb.nextPid, htable]⟩

theorem put_still {i : Fin 64} {q q' : Process} (ht : TableOk s.table) (ho : s.Only q.pid)
    (hi : s.table.slots i = some q) (hq' : q'.state ≠ .running) : (s.put i q').Still := by
  intro j r hr hrun
  rcases slots_put_some hr with ⟨rfl, rfl⟩ | ⟨hj, hold⟩
  · exact hq' hrun
  · exact hj (ht.distinct j i r q hold hi (ho j r hold hrun))

/-- **`scheduler_tick`** neither panics nor halts. -/
theorem schedulerTick_ok (hs : SysOk s) (rsp : ℕ) (input : List (BitVec 8))
    (frames : ℕ → FrameView) :
    ∃ s', schedulerTick rsp input frames s = .ok s' ∧ SysOk s' ∧
      s'.table.nextPid = s.table.nextPid := by
  have hin := (processInput_changes (s := s) input).steady
  have h₁ := hin.ok hs
  obtain ⟨i, q, hcur, hi, hpid, hrun⟩ := h₁.current
  have hne : (processInput input s).currentPid ≠ 0 := by
    have hpos := h₁.table.positive i q hi
    omega
  simp only [schedulerTick, hne, ↓reduceIte, hcur]
  obtain ⟨q', hq'⟩ : ∃ q' : Process, q' = { q with kernelRsp := rsp, state := .ready } := ⟨_, rfl⟩
  have hsame : q'.pid = q.pid := by rw [hq']
  have hready : q'.state = .ready := by rw [hq']
  rw [← hq']
  obtain ⟨s', hsched, hok, hnext⟩ := schedule_ok frames (h₁.table.put hi hsame fun _ => .inl hready)
    (put_still h₁.table (hpid ▸ h₁.only) hi (by rw [hready]; nofun)) (ProcessTable.alive_lt _)
  exact ⟨s', hsched, hok, hnext.trans hin.nextPid⟩

/-- **`scheduler_switch_exit`** neither panics nor halts. -/
theorem schedulerSwitchExit_ok (ht : TableOk s.table) (hp : s.Present) (ho : s.Only s.currentPid)
    (hne : s.currentPid ≠ 2) (rsp : ℕ) (frames : ℕ → FrameView) :
    ∃ s', schedulerSwitchExit rsp frames s = .ok s' ∧ SysOk s' ∧
      s'.table.nextPid = s.table.nextPid := by
  obtain ⟨i, q, hcur, hi, hpid⟩ := ht.current hp
  simp only [schedulerSwitchExit, hcur]
  refine schedule_ok frames (ht.put hi ?_ fun h2 => ?_) (put_still ht ?_ hi ?_)
    (ProcessTable.alive_lt _)
  · rfl
  · exact absurd (hpid.symm.trans h2) hne
  · exact hpid ▸ ho
  · dsimp only
    split
    · nofun
    · assumption

end Scheduler

/-! ### Steps and runs -/

/-- A PID is used up. -/
def Event.handsOut : Event → Bool
  | .syscall _ call _ => call.handsOut
  | .irq .. => false

section Runs

variable {s s' : System}

theorem Effect.nextPid_le {call : Call} (h : Effect call s s') (hs : SysOk s) :
    s'.table.nextPid ≤ s.table.nextPid + if call.handsOut then 1 else 0 := by
  cases h with
  | blockRead empty current =>
    rename_i len input i q
    have hnext : (processInput input s).table.nextPid = s.table.nextPid :=
      (processInput_changes input).steady.nextPid
    exact hnext.le
  | blockWait | reap | exec | sigreturn => exact le_rfl
  | exit killed =>
    obtain ⟨i, q, z, events, -, hb, -⟩ := killed.buried hs.table
    exact hb.nextPid.le
  | noSlot => exact Nat.mod_le _ _
  | fork current free => exact Nat.mod_le _ _

theorem syscallHandler_nextPid {call : Call} {rc : ℤ} (hs : SysOk s)
    (hrun : syscallHandler call s = .ok (s', rc)) :
    s'.table.nextPid ≤ s.table.nextPid + if call.handsOut then 1 else 0 := by
  unfold syscallHandler at hrun
  split at hrun
  next => cases hrun
  next s₁ cleared hcheck =>
    rcases checkSignals_cases hcheck with ⟨-, hch, -, -⟩ | ⟨hres, -⟩
    · rcases call.run_cases hrun with hch' | heff
      · rw [hch'.steady.nextPid, hch.steady.nextPid]
        exact Nat.le_add_right _ _
      · have hle := heff.nextPid_le (hch.steady.ok hs)
        rwa [hch.steady.nextPid] at hle
    · cases hres
  next s₁ res cleared hres hcheck =>
    cases hrun
    rcases checkSignals_cases hcheck with ⟨-, hch, -, -⟩ | ⟨-, hkilled⟩
    · exact hch.steady.nextPid.le.trans (Nat.le_add_right _ _)
    · obtain ⟨i, q, z, events, -, hb, -⟩ := hkilled.buried hs.table
      exact hb.nextPid.le.trans (Nat.le_add_right _ _)

/-- **A step keeps the invariant**, unless `next_pid` wraps around. -/
theorem Step.ok {e : Event} (hs : SysOk s) (hstep : Step s e s')
    (hwrap : e.handsOut = true → s.table.nextPid + 1 < 2 ^ 64) :
    SysOk s' ∧ s'.table.nextPid ≤ s.table.nextPid + if e.handsOut then 1 else 0 := by
  obtain ⟨hallowed, hhandle⟩ := hstep.handle_eq
  cases e with
  | irq rsp input frames =>
    obtain ⟨s₁, htick, hok, hnext⟩ := schedulerTick_ok hs rsp input frames
    rw [System.handle, htick] at hhandle
    cases hhandle
    exact ⟨hok, hnext.le.trans (Nat.le_add_right _ _)⟩
  | syscall saved call frames =>
    have hs₀ : SysOk { s with syscallState := saved } := ⟨hs.table, hs.runs, hs.only⟩
    rw [System.handle, syscallEntry] at hhandle
    split at hhandle
    next => cases hhandle
    next s₁ rc hrun =>
      have hhandled := syscallHandler_handled hs₀ hallowed hwrap hrun
      have hle := syscallHandler_nextPid hs₀ hrun
      split at hhandle
      next =>
        obtain ⟨s₂, hswitch, hok, hnext⟩ := schedulerSwitchExit_ok
          (s := { s₁ with shouldSchedule := false }) hhandled.table hhandled.present
          hhandled.only hhandled.notIdle (s₁.kernelStack - 176) frames
        rw [hswitch] at hhandle
        cases hhandle
        exact ⟨hok, hnext.le.trans hle⟩
      next hsched =>
        cases hhandle
        exact ⟨⟨hhandled.table, hhandled.sched (by simpa using hsched), hhandled.only⟩, hle⟩

/-- The table that `spawn_init` makes. -/
theorem spawnInit_slots {b : BootImage} {ttyVnode : Vnode} {i : Fin 64} {q : Process}
    (h : (spawnInit b ttyVnode).table.slots i = some q) :
    q.state = .ready ∧ (i = 0 ∧ q.pid = 1 ∨ i = 1 ∧ q.pid = 2) := by
  rcases slots_put_some h with ⟨rfl, rfl⟩ | ⟨-, h⟩
  · exact ⟨rfl, .inr ⟨rfl, rfl⟩⟩
  · rcases slots_put_some h with ⟨rfl, rfl⟩ | ⟨-, h⟩
    · exact ⟨rfl, .inl ⟨rfl, rfl⟩⟩
    · cases h

theorem spawnInit_tableOk (b : BootImage) (ttyVnode : Vnode) :
    TableOk (spawnInit b ttyVnode).table := by
  constructor
  case distinct =>
    intro i j q q' hq hq' hpid
    rcases spawnInit_slots hq with ⟨-, ⟨rfl, h⟩ | ⟨rfl, h⟩⟩ <;>
      rcases spawnInit_slots hq' with ⟨-, ⟨rfl, h'⟩ | ⟨rfl, h'⟩⟩ <;>
      first
      | rfl
      | omega
  case positive =>
    intro i q hq
    rcases spawnInit_slots hq with ⟨-, ⟨-, h⟩ | ⟨-, h⟩⟩ <;> omega
  case below =>
    intro i q hq
    change q.pid < 3
    rcases spawnInit_slots hq with ⟨-, ⟨-, h⟩ | ⟨-, h⟩⟩ <;> omega
  case count => rfl
  case idle => exact ⟨1, _, rfl, rfl⟩
  case idleState => exact fun i q hq _ => .inl (spawnInit_slots hq).1

/-- **The kernel boots** into a good state. -/
theorem boot_ok (b : BootImage) (ttyVnode : Vnode) :
    SysOk (startScheduler (spawnInit b ttyVnode)) ∧
      (startScheduler (spawnInit b ttyVnode)).table.nextPid = 3 := by
  have ht := spawnInit_tableOk b ttyVnode
  obtain ⟨init, hinit, hpid⟩ :
      ∃ q, (spawnInit b ttyVnode).table.slots 0 = some q ∧ q.pid = 1 := ⟨_, rfl, rfl⟩
  have hfind := ht.find_eq hinit
  rw [hpid] at hfind
  unfold startScheduler
  rw [hfind]
  refine ⟨⟨ht.put hinit rfl fun _ => .inr rfl, ⟨0, _, ProcessTable.put_same, hpid, rfl⟩, ?_⟩, rfl⟩
  refine System.Only.put (fun i q hq hrun => ?_) fun _ => hpid
  rw [(spawnInit_slots hq).1] at hrun
  cases hrun

theorem run_ok (hs : SysOk s) {es : List Event} (hrun : Run Step s es s')
    (hpids : s.table.nextPid + es.countP Event.handsOut < 2 ^ 64) :
    SysOk s' ∧ s'.table.nextPid ≤ s.table.nextPid + es.countP Event.handsOut := by
  induction hrun with
  | nil => exact ⟨hs, le_rfl⟩
  | snoc _ hlast ih =>
    rename_i t u es e _
    rw [List.countP_append, List.countP_singleton] at hpids ⊢
    obtain ⟨hok, hnext⟩ := ih (by omega)
    obtain ⟨hok', hnext'⟩ := Step.ok hok hlast fun he => by
      rw [if_pos he] at hpids
      omega
    exact ⟨hok', by omega⟩

theorem boot_run_ok (b : BootImage) (ttyVnode : Vnode) {es : List Event}
    (hrun : Run Step (startScheduler (spawnInit b ttyVnode)) es s)
    (hpids : es.countP Event.handsOut < 2 ^ 64 - 3) :
    SysOk s ∧ s.table.nextPid ≤ 3 + es.countP Event.handsOut := by
  obtain ⟨hok, hnext⟩ := boot_ok b ttyVnode
  rw [← hnext]
  exact run_ok hok hrun (by omega)

/-- What should hold of the process table between steps. -/
structure System.Coherent (s : System) : Prop where
  distinct : ∀ i j q r, s.table.slots i = some q → s.table.slots j = some r → q.pid = r.pid → i = j
  below : ∀ i q, s.table.slots i = some q → q.pid < s.table.nextPid
  count : s.table.count = (Finset.univ.filter fun i => (s.table.slots i).isSome).card
  current : ∃ i q, s.table.slots i = some q ∧ q.pid = s.currentPid ∧ q.state = .running ∧
    ∀ j r, s.table.slots j = some r → r.state = .running → j = i
  idle : ∃ i q, s.table.slots i = some q ∧ q.pid = 2 ∧ (q.state = .ready ∨ q.state = .running) ∧
    (q.state = .running ↔ s.currentPid = 2)

theorem SysOk.coherent (h : SysOk s) : s.Coherent := by
  obtain ⟨i, q, -, hi, hpid, hrun⟩ := h.current
  obtain ⟨k, r, hk, h2⟩ := h.table.idle
  refine ⟨h.table.distinct, h.table.below, h.table.count, ⟨i, q, hi, hpid, hrun, ?_⟩,
    ⟨k, r, hk, h2, h.table.idleState k r hk h2, fun hr => ?_, fun hc => ?_⟩⟩
  · intro j p hj hp
    exact h.table.distinct j i p q hj hi ((h.only j p hj hp).trans hpid.symm)
  · exact (h.only k r hk hr).symm.trans h2
  · obtain ⟨rfl, rfl⟩ := h.table.eq_of_pid hi hk (hpid.trans (hc.trans h2.symm))
    exact hrun

end Runs

end Vibix.Proc
