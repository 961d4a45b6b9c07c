import Vibix.Proc.StepRule
import Vibix.Proc.Skipped
import Vibix.Proc.Wrap

/-! # Exit status

A process becomes a zombie when it exits or when a signal terminates it, with the code that its
parent is to get (`Death`).  From then on its entry in the process table does not change until
`waitpid` removes it and reports the code (`System.report`).  `Ledger` says this of the parts of a
step, and `Step.ledger` of a whole step.

PIDs are not reused before they run out (`System.Gone`), so a PID is reported once
(`exit_status_once`). -/

namespace Vibix.Proc

open Vfs Relation

/-! ### Codes -/

/-- A signal can terminate the process with this code; `userRsp` is the stack pointer on the path of
the scheduler. -/
def Process.DiesOf (q : Process) (userRsp : Option ℕ) (code : ℕ) : Prop :=
  (∃ sig : Fin 32, q.FatalPending sig ∧ code = 128 + sig) ∨
  (q.inSignal = true ∧ q.sigPending.getLsbD sigKill = true ∧ code = 128 + sigKill) ∨
  -- there is no room for a signal frame
  ∃ sig : Fin 32, ∃ rsp ∈ userRsp, q.CustomPending sig ∧
    rsp < (q.stackLow + sigframeSize) % 2 ^ 64 ∧ code = 128 + sigKill

section Codes

variable {s s' : System} {q : Process} {userRsp : Option ℕ} {code : ℕ} {cleared : Option ℕ}

theorem pending_of_clearSignal {sig b : ℕ} (h : (q.clearSignal sig).sigPending.getLsbD b = true) :
    q.sigPending.getLsbD b = true := by
  simp only [Process.clearSignal, BitVec.getLsbD_and, Bool.and_eq_true] at h
  exact h.1

theorem Process.DiesOf.of_clearSignal {sig : ℕ} (h : (q.clearSignal sig).DiesOf userRsp code) :
    q.DiesOf userRsp code := by
  rcases h with ⟨sig', ⟨hp, hrest⟩, hcode⟩ | ⟨hin, hp, hcode⟩ | ⟨sig', rsp, hrsp, ⟨hp, hrest⟩, hroom⟩
  · exact .inl ⟨sig', ⟨pending_of_clearSignal hp, hrest⟩, hcode⟩
  · exact .inr (.inl ⟨hin, pending_of_clearSignal hp, hcode⟩)
  · exact .inr (.inr ⟨sig', rsp, hrsp, ⟨pending_of_clearSignal hp, hrest⟩, hroom⟩)

/-- **The code of a process that a signal terminates**. -/
theorem scan_fatal {ignored : List (Fin 32)} {result : Outcome} (hresult : ∀ c, result ≠ .fatal c)
    (l : List (Fin 32)) (h : (scan userRsp q ignored result l).outcome = .fatal code) :
    q.DiesOf userRsp code := by
  induction l generalizing q ignored result with
  | nil => exact absurd h (hresult code)
  | cons sig l ih =>
    unfold scan at h
    split_ifs at h with hpend hign hdfl hfatal
    · exact ih hresult h
    · exact (ih hresult h).of_clearSignal
    · cases h
      exact .inl ⟨sig, ⟨by simpa using hpend, hdfl, hfatal⟩, rfl⟩
    · exact (ih hresult h).of_clearSignal
    · split at h
      next => exact ih (fun _ hc => by cases hc) h
      next rsp =>
        split_ifs at h with hroom
        cases h
        exact .inr (.inr ⟨sig, rsp, rfl, ⟨by simpa using hpend, hign, hdfl⟩, hroom, rfl⟩)

/-- The current process of `s` is terminated with this code. -/
def Terminated (userRsp : Option ℕ) (s s' : System) : Prop :=
  ∃ i q q' code cleared, s.current = some (i, q) ∧ q.SignalsOnly q' ∧ q.DiesOf userRsp code ∧
    (s.put i q').table.markZombie q.pid code = some (s'.table, cleared)

theorem terminate_terminated {i : Fin 64} {q' : Process} {events : List SignalEvent}
    (hcur : s.current = some (i, q)) (hq' : q.SignalsOnly q') (hdies : q.DiesOf userRsp code)
    (hrun : (s.log events).terminate i q' code = .ok (s', cleared)) : Terminated userRsp s s' := by
  unfold System.terminate at hrun
  split at hrun
  next => cases hrun
  next table c hz =>
    cases hrun
    rw [hq'.pid_eq] at hz
    exact ⟨i, q, q', code, cleared, hcur, hq', hdies, hz⟩

theorem checkSignals_terminated
    (hrun : checkSignalsSyscall s = .ok (s', .terminated, cleared)) : Terminated none s s' := by
  unfold checkSignalsSyscall at hrun
  split at hrun
  next => cases hrun
  split at hrun
  next => cases hrun
  next i q hcur =>
    split at hrun
    next => cases hrun
    split at hrun
    next hin =>
      split at hrun
      next hkill =>
        split at hrun
        next => cases hrun
        next s₁ c hterm =>
          cases hrun
          rw [← log_nil (s := s)] at hterm
          exact terminate_terminated hcur (clearSignal_only sigKill) (.inr (.inl ⟨hin, hkill, rfl⟩))
            hterm
      next => cases hrun
    next =>
      dsimp only at hrun
      split at hrun
      next c hout =>
        split at hrun
        next => cases hrun
        next s₁ cl hterm =>
          cases hrun
          exact terminate_terminated hcur (scan_only signals)
            (scan_fatal (fun _ hc => by cases hc) signals hout) hterm
      next => cases hrun
      next => cases hrun

theorem deliver_terminated {frame : FrameView}
    (hrun : deliverPendingSignals s.currentPid frame s = .ok (s', .killed cleared)) :
    Terminated (some frame.userRsp) s s' := by
  unfold deliverPendingSignals at hrun
  split at hrun
  next => cases hrun
  split at hrun
  next => cases hrun
  next i q hcur =>
    split at hrun
    next => cases hrun
    split at hrun
    next hin =>
      split at hrun
      next hkill =>
        split at hrun
        next => cases hrun
        next s₁ c hterm =>
          cases hrun
          rw [← log_nil (s := s)] at hterm
          exact terminate_terminated hcur (clearSignal_only sigKill) (.inr (.inl ⟨hin, hkill, rfl⟩))
            hterm
      next => cases hrun
    split at hrun
    next => cases hrun
    next =>
      dsimp only at hrun
      split at hrun
      next c hout =>
        split at hrun
        next => cases hrun
        next s₁ cl hterm =>
          cases hrun
          exact terminate_terminated hcur (scan_only signals)
            (scan_fatal (fun _ hc => by cases hc) signals hout) hterm
      next => cases hrun
      next => cases hrun

end Codes

/-! ### Zombies -/

/-- The zombie `z` is `q`, with the same code for the same parent. -/
structure Process.SameZombie (z q : Process) : Prop where
  before : q.state = .zombie
  after : z.state = .zombie
  pid : z.pid = q.pid
  parentPid : z.parentPid = q.parentPid
  exitCode : z.exitCode = q.exitCode

theorem Process.SameZombie.trans {z' z q : Process} (h' : z'.SameZombie z) (h : z.SameZombie q) :
    z'.SameZombie q :=
  ⟨h.before, h'.after, h'.pid.trans h.pid, h'.parentPid.trans h.parentPid,
    h'.exitCode.trans h.exitCode⟩

/-- Zombies stay as they are, except those that are reaped (`R`, of PID, parent and code), and new
zombies are due to a death (`D`, of PID and code). -/
structure Ledger (D : ℕ → ℕ → Prop) (R : ℕ → ℕ → ℕ → Prop) (s s' : System) : Prop where
  kept : ∀ i q, s.table.slots i = some q → q.state = .zombie →
    (∃ z, s'.table.slots i = some z ∧ z.SameZombie q) ∨ R q.pid q.parentPid q.exitCode
  fresh : ∀ i z, s'.table.slots i = some z → z.state = .zombie →
    (∃ q, s.table.slots i = some q ∧ z.SameZombie q) ∨ D z.pid z.exitCode

section Ledger

variable {s s' s'' : System} {D : ℕ → ℕ → Prop} {R : ℕ → ℕ → ℕ → Prop} {i : Fin 64}
  {q q' : Process}

theorem Ledger.of_slots (h : s'.table.slots = s.table.slots) : Ledger D R s s' := by
  constructor
  · intro i q hq hz
    exact .inl ⟨q, h ▸ hq, hz, hz, rfl, rfl, rfl⟩
  · intro i z hz hzombie
    exact .inl ⟨z, h ▸ hz, hzombie, hzombie, rfl, rfl, rfl⟩

theorem Ledger.trans (h : Ledger D R s s') (h' : Ledger D R s' s'') : Ledger D R s s'' := by
  constructor
  · intro i q hq hz
    rcases h.kept i q hq hz with ⟨z, hz', hsame⟩ | hreaped
    · rcases h'.kept i z hz' hsame.after with ⟨z', hz'', hsame'⟩ | hreaped
      · exact .inl ⟨z', hz'', hsame'.trans hsame⟩
      · rw [hsame.pid, hsame.parentPid, hsame.exitCode] at hreaped
        exact .inr hreaped
    · exact .inr hreaped
  · intro i z hz hzombie
    rcases h'.fresh i z hz hzombie with ⟨q', hq', hsame'⟩ | hdeath
    · rcases h.fresh i q' hq' hsame'.before with ⟨q, hq, hsame⟩ | hdeath
      · exact .inl ⟨q, hq, hsame'.trans hsame⟩
      · rw [← hsame'.pid, ← hsame'.exitCode] at hdeath
        exact .inr hdeath
    · exact .inr hdeath

/-- A process is replaced by one that is a zombie only if it was, with the same code. -/
theorem Ledger.put (htable : s'.table.slots = (s.table.put i (some q')).slots)
    (hi : s.table.slots i = some q) (hzombie : q'.state = .zombie ↔ q.state = .zombie)
    (hpid : q'.pid = q.pid) (hparent : q'.parentPid = q.parentPid)
    (hcode : q'.exitCode = q.exitCode) : Ledger D R s s' := by
  constructor <;> rw [htable]
  · intro j r hr hz
    by_cases hj : j = i
    · subst hj
      rw [hi] at hr
      cases hr
      exact .inl ⟨q', ProcessTable.put_same, hz, hzombie.mpr hz, hpid, hparent, hcode⟩
    · exact .inl ⟨r, (ProcessTable.put_ne hj).trans hr, hz, hz, rfl, rfl, rfl⟩
  · intro j z hz hzom
    rcases slots_put_some hz with ⟨rfl, rfl⟩ | ⟨-, hz⟩
    · exact .inl ⟨q, hi, hzombie.mp hzom, hzom, hpid, hparent, hcode⟩
    · exact .inl ⟨z, hz, hzom, hzom, rfl, rfl, rfl⟩

theorem wakeReader_ledger : Ledger D R s s.wakeReader := by
  unfold System.wakeReader
  split
  next => exact .of_slots rfl
  dsimp only
  split
  next => exact .of_slots rfl
  next i q hfind =>
    split
    next hb =>
      exact .put rfl (ProcessTable.find_some hfind).1 (by simp [hb]) rfl rfl rfl
    next => exact .of_slots rfl

theorem Change.ledger (h : Change s s') : Ledger D R s s' := by
  cases h with
  | globals table => exact .of_slots (by rw [table])
  | update slot role code handler pending kill =>
    rename_i i q q'
    have hstate : q'.state = q.state := (congrArg Process.state role :)
    exact .put rfl slot (by rw [hstate]) (congrArg Process.pid role :)
      (congrArg Process.parentPid role :) code
  | consume current idle signals pending =>
    rename_i i q q' events
    have hrole := signals.role_eq
    have hstate : q'.state = q.state := (congrArg Process.state hrole :)
    exact .put rfl (current_slot current) (by rw [hstate]) signals.pid_eq
      (congrArg Process.parentPid hrole :) (congrArg Process.exitCode signals :)
  | wake slot blocked => exact .put rfl slot (by simp [blocked]) rfl rfl rfl
  | wakeReader => exact wakeReader_ledger
  | forgetReader => exact .of_slots rfl

theorem Changes.ledger (h : Changes s s') : Ledger D R s s' := by
  induction h with
  | refl => exact .of_slots rfl
  | tail _ hlast ih => exact ih.trans hlast.ledger

/-- A termination adds the process to the zombies. -/
theorem markZombie_ledger {code : ℕ} {cleared : Option ℕ} (ht : TableOk s.table)
    (hi : s.table.slots i = some q) (halive : q.state ≠ .zombie) (hsignals : q.SignalsOnly q')
    (hmark : (s.put i q').table.markZombie q.pid code = some (s'.table, cleared))
    (hdeath : D q.pid code) : Ledger D R s s' := by
  have ht' : TableOk (s.put i q').table :=
    ht.put_role hi hsignals.pid_eq (congrArg Process.state hsignals.role_eq :)
  obtain ⟨k, r, hfind, hb⟩ := markZombie_buried ht'.distinct ht'.positive hmark
  have hself := ht'.find_eq (show (s.put i q').table.slots i = some q' from ProcessTable.put_same)
  rw [hsignals.pid_eq, hfind] at hself
  cases hself
  constructor
  · intro j p hp hz
    have hji : j ≠ i := by
      rintro rfl
      rw [hi] at hp
      cases hp
      exact halive hz
    have hp' : (s.put i q').table.slots j = some p := (ProcessTable.put_ne hji).trans hp
    rcases hb.others j hji with hother | ⟨p', hp'', hblocked, -, -⟩
    · exact .inl ⟨p, hother.trans hp', hz, hz, rfl, rfl, rfl⟩
    · rw [hp'] at hp''
      cases hp''
      rw [hz] at hblocked
      cases hblocked
  · intro j z hz hzombie
    rcases hb.backward hz with ⟨rfl, rfl⟩ | ⟨hji, hz⟩ | ⟨-, p, -, -, -, rfl⟩
    · rw [show ({ q' with state := .zombie, exitCode := code } : Process).pid = q.pid from
        hsignals.pid_eq]
      exact .inr hdeath
    · exact .inl ⟨z, (ProcessTable.put_ne hji).symm.trans hz, hzombie, hzombie, rfl, rfl, rfl⟩
    · cases hzombie

end Ledger

/-! ### The parts of a step -/

/-- The loop of the scheduler, from `s` with a number of rounds left, delivers signals in another
state; the view is what it sees of the frame there. -/
inductive Delivers (frames : ℕ → FrameView) : ℕ → System → FrameView → System → Prop
  | here {n : ℕ} {s : System} {i : Fin 64} {q : Process}
      (found : s.table.find (schedNext s) = some (i, q)) (ready : q.state = .ready) :
      Delivers frames (n + 1) s (frames n)
        { s with currentPid := schedNext s, kernelStack := q.kernelStackTop }
  | next {n : ℕ} {s s₁ t : System} {cleared : Option ℕ} {view : FrameView}
      (killed : schedRound (frames n) s = .ok (s₁, .killed cleared))
      (later : Delivers frames n s₁ view t) : Delivers frames (n + 1) s view t

/-- What `waitpid` reports: the PID that it returns, and the code that it stores. -/
structure Report where
  pid : ℕ
  status : ℕ
deriving DecidableEq

/-- What an event reports, if it is a `waitpid` that reaps a process. -/
def System.report (s : System) : Event → Option Report
  | .syscall saved (.waitpid requested flags) _ =>
    match s.called saved with
    | none => none
    | some s₁ =>
      match sysWaitpid requested flags s₁ with
      | .ok (_, rc, some reaped) => some ⟨rc.toNat, reaped.exitCode⟩
      | _ => none
  | _ => none

section Parts

variable {s s' : System} {D : ℕ → ℕ → Prop} {R : ℕ → ℕ → ℕ → Prop} {frames : ℕ → FrameView}

/-- The loop of the scheduler terminates processes only. -/
theorem schedule_ledger {n : ℕ} (ht : TableOk s.table) (hrun : schedule frames n s = .ok s')
    (hdeath : ∀ view t i q code, Delivers frames n s view t → t.current = some (i, q) →
      q.DiesOf (some view.userRsp) code → D q.pid code) : Ledger D R s s' := by
  induction n generalizing s with
  | zero => cases hrun
  | succ n ih =>
    unfold schedule at hrun
    cases hfind : s.table.find (schedNext s) with
    | none =>
      rw [schedRound, hfind] at hrun
      cases hrun
    | some r =>
      obtain ⟨i, q⟩ := r
      by_cases hready : q.state = .ready
      · have hround := schedRound_eq ht.distinct (ProcessTable.find_some hfind).1
          (ProcessTable.find_some hfind).2 hready (frames n)
        have hhere : Delivers frames (n + 1) s (frames n) _ := .here hfind hready
        obtain ⟨s₀, hs₀⟩ : ∃ s₀ : System, s₀ =
          { s with currentPid := schedNext s, kernelStack := q.kernelStackTop } := ⟨_, rfl⟩
        have hcur₀ : s₀.current = some (i, q) := by
          rw [hs₀]
          exact hfind
        have hpid₀ : s₀.currentPid = schedNext s := by rw [hs₀]
        have htable : s₀.table = s.table := by rw [hs₀]
        have ht₀ : TableOk s₀.table := htable ▸ ht
        have hl₀ : Ledger D R s s₀ := .of_slots (by rw [htable])
        rw [← hs₀, ← hpid₀] at hround
        rw [← hs₀] at hhere
        split at hrun
        next => cases hrun
        next s₁ cleared hkill =>
          have hdeliver := hround.symm.trans hkill
          obtain ⟨k, r, r', code, cl, hcur, hsignals, hdies, hmark⟩ :=
            deliver_terminated hdeliver
          rw [hcur₀] at hcur
          cases hcur
          have hl₁ : Ledger D R s₀ s₁ := markZombie_ledger ht₀ (current_slot hcur₀)
            (by simp [hready]) hsignals hmark (hdeath _ _ _ _ _ hhere hcur₀ hdies)
          rcases deliver_cases hdeliver with ⟨hnot, -, -⟩ | ⟨c, -, hne, hkilled⟩
          · exact absurd rfl (hnot cleared)
          · obtain ⟨k, r, z, events, hcur, hb, -⟩ := hkilled.buried ht₀
            rw [hcur₀] at hcur
            cases hcur
            have ht₁ := hb.tableOk ht₀ ((ProcessTable.find_some hcur₀).2 ▸ hne)
            refine (hl₀.trans hl₁).trans (ih ht₁ hrun fun view t j p c hlater => ?_)
            exact hdeath view t j p c (.next hkill hlater)
        next s₁ d hnot hresume =>
          have hdeliver := hround.symm.trans hresume
          rcases deliver_cases hdeliver with ⟨-, hch, -⟩ | ⟨c, rfl, -, -⟩
          · unfold System.resume at hrun
            split at hrun
            next => cases hrun
            next j p hcur =>
              cases hrun
              have hstate : p.state = .ready := by
                have hr : s₀.Ready := ⟨i, q, current_slot hcur₀,
                  (ProcessTable.find_some hcur₀).2, hready⟩
                exact (hch.steady.ready hr).state_eq (hch.steady.tableOk ht₀) hcur
              exact (hl₀.trans hch.ledger).trans
                (.put rfl (current_slot hcur) (by simp [hstate]) rfl rfl rfl)
          · exact absurd rfl (hnot c)
      · rw [schedRound, hfind] at hrun
        simp only [ne_eq, hready, not_false_eq_true, ↓reduceIte] at hrun
        cases hrun

/-- The scheduler sets the state of the current process, and selects. -/
theorem switch_ledger {n : ℕ} {t : System} {i : Fin 64} {q : Process} {rsp : ℕ} {st : ProcessState}
    (hs : TableOk s.table) (hi : s.table.slots i = some q)
    (htable : t.table = s.table.put i (some { q with kernelRsp := rsp, state := st }))
    (hzombie : st = .zombie ↔ q.state = .zombie)
    (hidle : q.pid = 2 → st = .ready ∨ st = .running) (hrun : schedule frames n t = .ok s')
    (hdeath : ∀ view u j p code, Delivers frames n t view u → u.current = some (j, p) →
      p.DiesOf (some view.userRsp) code → D p.pid code) : Ledger D R s s' := by
  have ht : TableOk t.table := by
    rw [htable]
    exact hs.put hi rfl hidle
  have hput : Ledger D R s t :=
    .put (congrArg ProcessTable.slots htable) hi hzombie rfl rfl rfl
  exact hput.trans (schedule_ledger ht hrun hdeath)

theorem sysExit_ledger {code : ℕ} {cleared : Option ℕ} (hs : SysOk s)
    (hrun : sysExit code s = .ok (s', cleared)) (hdeath : D s.currentPid code) :
    Ledger D R s s' := by
  obtain ⟨i, q, hcur, hi, hpid⟩ := hs.table.current hs.runs.present
  have halive : q.state ≠ .zombie := by
    rw [hs.running hcur]
    nofun
  unfold sysExit at hrun
  split at hrun
  next => cases hrun
  next table c hmark =>
    cases hrun
    have hmark' : (s.put i q).table.markZombie q.pid code = some (table, cleared) := by
      unfold System.put
      rw [ProcessTable.put_self hi, hpid]
      exact hmark
    exact markZombie_ledger hs.table hi halive (.refl q) hmark' (by rwa [hpid])

theorem sysWaitpid_ledger {requested flags : ℕ} {rc : ℤ} {reaped : Option Process} (hs : SysOk s)
    (hrun : sysWaitpid requested flags s = .ok (s', rc, reaped))
    (hreap : ∀ q, reaped = some q → q.parentPid = s.currentPid → R q.pid q.parentPid q.exitCode) :
    Ledger D R s s' := by
  unfold sysWaitpid at hrun
  split at hrun
  next => cases hrun; exact .of_slots rfl
  next child hchild =>
    obtain ⟨j, hslot, hparent⟩ := waitChild_some hchild
    split at hrun
    next hzombie =>
      rw [hs.table.find_eq hslot] at hrun
      cases hrun
      constructor
      · intro i q hq hz
        by_cases hij : i = j
        · subst hij
          rw [hslot] at hq
          cases hq
          exact .inr (hreap child rfl hparent)
        · exact .inl ⟨q, (ProcessTable.put_ne hij).trans hq, hz, hz, rfl, rfl, rfl⟩
      · intro i z hz hzom
        exact .inl ⟨z, (slots_put_none hz).2, hzom, hzom, rfl, rfl, rfl⟩
    next =>
      split at hrun
      next => cases hrun; exact .of_slots rfl
      split at hrun
      next => cases hrun
      next i q hcur =>
        cases hrun
        exact .put rfl (current_slot hcur) (by simp [hs.running hcur]) rfl rfl rfl

/-- The other calls leave the zombies alone. -/
theorem Effect.ledger {call : Call} (h : Effect call s s') (hs : SysOk s)
    (hexit : ∀ code, call ≠ .exit code) (hwait : ∀ r f, call ≠ .waitpid r f) : Ledger D R s s' := by
  cases h with
  | blockRead empty current =>
    rename_i len input i q
    have hin := processInput_changes (s := s) input
    have hrunning := (hin.steady.ok hs).running current
    exact hin.ledger.trans (.put rfl (current_slot current) (by simp [hrunning]) rfl rfl rfl)
  | blockWait => exact absurd rfl (hwait _ _)
  | reap => exact absurd rfl (hwait _ _)
  | exit => exact absurd rfl (hexit _)
  | noSlot => exact .of_slots rfl
  | fork current free =>
    rename_i i j parent base root oft
    constructor
    · intro k q hq hz
      have hki : k ≠ i := by
        rintro rfl
        rw [free] at hq
        cases hq
      exact .inl ⟨q, (ProcessTable.put_ne hki).trans hq, hz, hz, rfl, rfl, rfl⟩
    · intro k z hz hzom
      rcases slots_put_some hz with ⟨rfl, rfl⟩ | ⟨-, hz⟩
      · cases hzom
      · exact .inl ⟨z, hz, hzom, hzom, rfl, rfl, rfl⟩
  | exec current => exact .put rfl (current_slot current) .rfl rfl rfl rfl
  | sigreturn current frame => exact .put rfl (current_slot current) .rfl rfl rfl rfl

end Parts

/-! ### Steps -/

/-- The state in which the scheduler starts to select. -/
def System.scheduling (s : System) : Event → Option System
  | .irq rsp input _ =>
    (processInput input s).current.map fun r =>
      (processInput input s).put r.1 { r.2 with kernelRsp := rsp, state := .ready }
  | .syscall saved call _ =>
    match syscallHandler call { s with syscallState := saved } with
    | .error _ => none
    | .ok (s, _) =>
      s.current.map fun r => { s with shouldSchedule := false }.put r.1
        { r.2 with
          kernelRsp := s.kernelStack - 176
          state := if r.2.state = ProcessState.running then ProcessState.ready else r.2.state }

/-- What the scheduler sees of the frames. -/
def Event.frames : Event → ℕ → FrameView
  | .irq _ _ frames => frames
  | .syscall _ _ frames => frames

/-- **How a process dies** in a step from `s`: it calls `exit`, or a signal terminates it, when it
enters a system call or when the scheduler delivers its signals. -/
inductive Death (s : System) (e : Event) (pid code : ℕ) : Prop
  | exit {saved : SyscallSavedState} {frames : ℕ → FrameView}
      (event : e = .syscall saved (.exit code) frames) (runs : s.called saved ≠ none)
      (current : s.currentPid = pid)
  | entry {saved : SyscallSavedState} {call : Call} {frames : ℕ → FrameView} {i : Fin 64}
      {q : Process} (event : e = .syscall saved call frames) (current : s.current = some (i, q))
      (named : q.pid = pid) (dies : q.DiesOf none code)
  | delivery {t u : System} {view : FrameView} {i : Fin 64} {q : Process}
      (starts : s.scheduling e = some t) (delivers : Delivers e.frames schedRounds t view u)
      (current : u.current = some (i, q)) (named : q.pid = pid)
      (dies : q.DiesOf (some view.userRsp) code)

/-- A process with this PID, parent and code is reaped. -/
def Reaped (s : System) (e : Event) (pid parent code : ℕ) : Prop :=
  s.report e = some ⟨pid, code⟩ ∧ parent = s.currentPid

section Steps

variable {s s' : System} {e : Event}

/-- What `waitpid` returns is the PID of the process that it reaps. -/
theorem sysWaitpid_reaped {requested flags : ℕ} {rc : ℤ} {q : Process}
    (hrun : sysWaitpid requested flags s = .ok (s', rc, some q)) : rc = q.pid := by
  unfold sysWaitpid at hrun
  split at hrun
  next => cases hrun
  next child _ =>
    split at hrun
    next =>
      split at hrun
      next => cases hrun
      next i r hfind =>
        cases hrun
        rw [(ProcessTable.find_some hfind).2]
    next =>
      split at hrun
      next => cases hrun
      split at hrun <;> cases hrun

/-- The handler of a system call keeps the ledger. -/
theorem syscallHandler_ledger {saved : SyscallSavedState} {call : Call} {frames : ℕ → FrameView}
    {rc : ℤ} (hok : SysOk s)
    (hrun : syscallHandler call { s with syscallState := saved } = .ok (s', rc)) :
    Ledger (Death s (.syscall saved call frames)) (Reaped s (.syscall saved call frames)) s s' := by
  have hok₀ : SysOk { s with syscallState := saved } := ⟨hok.table, hok.runs, hok.only⟩
  have hl₀ : Ledger (Death s (.syscall saved call frames)) (Reaped s (.syscall saved call frames))
      s { s with syscallState := saved } := .of_slots rfl
  unfold syscallHandler at hrun
  split at hrun
  next => cases hrun
  next s₁ cleared hcheck =>
    have hcalled : s.called saved = some s₁ := by rw [System.called, hcheck]
    have hch := called_changes hcalled
    have hok₁ := hch.steady.ok hok₀
    refine (hl₀.trans hch.ledger).trans ?_
    by_cases hexit : ∃ code, call = .exit code
    · obtain ⟨code, rfl⟩ := hexit
      obtain ⟨⟨s₂, c⟩, hexit, heq⟩ := ok_of_map hrun
      cases heq
      refine sysExit_ledger hok₁ hexit (.exit rfl (by simp [hcalled]) ?_)
      exact hch.steady.currentPid.symm
    by_cases hwait : ∃ requested flags, call = .waitpid requested flags
    · obtain ⟨requested, flags, rfl⟩ := hwait
      obtain ⟨⟨s₂, rc₂, reaped⟩, hwait, heq⟩ := ok_of_map hrun
      cases heq
      refine sysWaitpid_ledger hok₁ hwait fun q hq hparent => ⟨?_, ?_⟩
      · subst hq
        have hrc := sysWaitpid_reaped hwait
        simp only [System.report, hcalled, hwait, hrc, Int.toNat_natCast]
      · exact hparent.trans hch.steady.currentPid
    · push Not at hexit hwait
      rcases call.run_cases hrun with hch' | heff
      · exact hch'.ledger
      · exact heff.ledger hok₁ hexit hwait
  next s₁ res cleared hres hcheck =>
    cases hrun
    have hlast : Ledger (Death s (.syscall saved call frames))
        (Reaped s (.syscall saved call frames)) s₁ { s₁ with shouldSchedule := true } := .of_slots rfl
    refine (hl₀.trans ?_).trans hlast
    cases res with
    | none => exact absurd rfl hres
    | customPending =>
      rcases checkSignals_cases hcheck with ⟨-, hch, -, -⟩ | ⟨hres, -⟩
      · exact hch.ledger
      · cases hres
    | terminated =>
      obtain ⟨i, q, q', code, cl, hcur, hsignals, hdies, hmark⟩ := checkSignals_terminated hcheck
      exact markZombie_ledger hok₀.table (current_slot hcur) (by simp [hok₀.running hcur])
        hsignals hmark (.entry rfl hcur rfl hdies)

/-- **A step keeps the ledger**: zombies stay as they are until they are reaped and reported, and
processes become zombies by dying. -/
theorem Step.ledger (hok : SysOk s) (hwrap : e.handsOut = true → s.table.nextPid + 1 < 2 ^ 64)
    (hstep : Step s e s') : Ledger (Death s e) (Reaped s e) s s' := by
  obtain ⟨hallowed, hhandle⟩ := hstep.handle_eq
  cases e with
  | irq rsp input frames =>
    have hin := processInput_changes (s := s) input
    have hok₁ := hin.steady.ok hok
    obtain ⟨i, q, hcur, hi, hpid⟩ := hok₁.table.current hok₁.runs.present
    have hrunning := hok₁.running hcur
    rw [System.handle, schedulerTick] at hhandle
    split at hhandle
    next =>
      cases hhandle
      exact hin.ledger
    rw [hcur] at hhandle
    refine hin.ledger.trans (switch_ledger hok₁.table hi rfl (by simp [hrunning])
      (fun _ => .inl rfl) hhandle ?_)
    intro view t j p code hdelivers hcurrent hdies
    exact .delivery (by simp only [System.scheduling, hcur, Option.map_some]) hdelivers hcurrent rfl
      hdies
  | syscall saved call frames =>
    have hok₀ : SysOk { s with syscallState := saved } := ⟨hok.table, hok.runs, hok.only⟩
    rw [System.handle, syscallEntry] at hhandle
    split at hhandle
    next => cases hhandle
    next s₁ rc hrun =>
      have hhandled := syscallHandler_handled hok₀ hallowed hwrap hrun
      have hl₁ : Ledger (Death s (.syscall saved call frames))
          (Reaped s (.syscall saved call frames)) s s₁ := syscallHandler_ledger hok hrun
      split at hhandle
      next =>
        unfold schedulerSwitchExit at hhandle
        split at hhandle
        next => cases hhandle
        next i q hcur =>
          obtain ⟨hi, hpid⟩ := ProcessTable.find_some hcur
          refine hl₁.trans (switch_ledger hhandled.table hi rfl ?_ (fun h2 => ?_) hhandle ?_)
          · by_cases hr : q.state = .running <;> simp [hr]
          · exact absurd (hpid.symm.trans h2) hhandled.notIdle
          · intro view t j p code hdelivers hcurrent hdies
            have hcur₁ : s₁.current = some (i, q) := hcur
            exact .delivery (by simp only [System.scheduling, hrun, hcur₁, Option.map_some])
              hdelivers hcurrent rfl hdies
      next =>
        cases hhandle
        exact hl₁

end Steps

/-! ### PIDs that are gone -/

/-- No process has this PID any more. -/
def System.Gone (pid : ℕ) (s : System) : Prop :=
  pid < s.table.nextPid ∧ ∀ i q, s.table.slots i = some q → q.pid ≠ pid

section Gone

variable {s s' : System} {pid : ℕ} {e : Event}

theorem System.Gone.put {i : Fin 64} {q q' : Process} (hs : s.Gone pid)
    (hi : s.table.slots i = some q) (hpid : q'.pid = q.pid) : (s.put i q').Gone pid := by
  refine ⟨hs.1, fun j r hr => ?_⟩
  rcases slots_put_some hr with ⟨rfl, rfl⟩ | ⟨-, hr⟩
  · rw [hpid]
    exact hs.2 j q hi
  · exact hs.2 j r hr

theorem Steady.gone (h : Steady s s') (hs : s.Gone pid) : s'.Gone pid := by
  refine ⟨h.nextPid ▸ hs.1, fun i q' hq' => ?_⟩
  obtain ⟨q, hq, hm⟩ := h.backward hq'
  rw [hm.pid]
  exact hs.2 i q hq

theorem Killed.gone {cleared : Option ℕ} (h : Killed s s' cleared) (ht : TableOk s.table)
    (hs : s.Gone pid) : s'.Gone pid := by
  obtain ⟨i, q, z, events, -, hb, -⟩ := h.buried ht
  refine ⟨hb.nextPid ▸ hs.1, fun j r hr => ?_⟩
  obtain ⟨r', hr', hpid⟩ := ProcessTable.exists_of_pids hb.pids hr
  rw [hpid]
  exact hs.2 j r' hr'

theorem Effect.gone {call : Call} (h : Effect call s s') (hok : SysOk s)
    (hwrap : call.handsOut = true → s.table.nextPid + 1 < 2 ^ 64) (hs : s.Gone pid) :
    s'.Gone pid := by
  have hnext : s.table.nextPid + 1 < 2 ^ 64 → pid < (s.table.nextPid + 1) % 2 ^ 64 := by
    intro hlt
    rw [Nat.mod_eq_of_lt hlt]
    exact Nat.lt_succ_of_lt hs.1
  cases h with
  | blockRead empty current =>
    rename_i len input i q
    have hs' := (processInput_changes input).steady.gone hs
    exact System.Gone.put (s := { processInput input s with .. }) hs' (current_slot current) rfl
  | blockWait current => exact System.Gone.put (s := { s with .. }) hs (current_slot current) rfl
  | reap => exact ⟨hs.1, fun j r hr => hs.2 j r (slots_put_none hr).2⟩
  | exit killed => exact killed.gone hok.table hs
  | noSlot => exact ⟨hnext (hwrap rfl), hs.2⟩
  | fork current free =>
    refine ⟨hnext (hwrap rfl), fun j r hr => ?_⟩
    rcases slots_put_some hr with ⟨rfl, rfl⟩ | ⟨-, hr⟩
    · exact hs.1.ne'
    · exact hs.2 j r hr
  | exec current => exact System.Gone.put (s := { s with .. }) hs (current_slot current) rfl
  | sigreturn current => exact System.Gone.put (s := { s with .. }) hs (current_slot current) rfl

/-- **A PID that is gone does not come back.** -/
theorem gone_invariant (pid : ℕ) : Invariant (System.Gone pid) fun _ _ => True where
  globals _ _ htable _ hs := ⟨htable ▸ hs.1, fun i q hq => hs.2 i q (htable ▸ hq)⟩
  change _ _ _ hs hch := hch.steady.gone hs
  kill _ _ _ ht _ hs hkilled := hkilled.gone ht hs
  effect _ _ _ hok _ hwrap _ hs heff := heff.gone hok hwrap hs
  sched _ _ _ _ _ _ hs hi _ _ := hs.put hi rfl

/-- What reaps a process. -/
theorem report_some {r : Report} (h : s.report e = some r) :
    ∃ saved requested flags frames s₁ s₂ q, e = .syscall saved (.waitpid requested flags) frames ∧
      s.called saved = some s₁ ∧ sysWaitpid requested flags s₁ = .ok (s₂, (q.pid : ℤ), some q) ∧
      r = ⟨q.pid, q.exitCode⟩ := by
  unfold System.report at h
  split at h
  next saved requested flags frames =>
    split at h
    next => cases h
    next s₁ hcalled =>
      split at h
      next s₂ rc q hwait =>
        cases h
        have hrc := sysWaitpid_reaped hwait
        subst hrc
        exact ⟨saved, requested, flags, frames, s₁, s₂, q, rfl, hcalled, hwait, by simp⟩
      next => cases h
  next => cases h

/-- The process that is reaped, and what remains. -/
theorem sysWaitpid_some {requested flags : ℕ} {rc : ℤ} {q : Process} (hs : SysOk s)
    (hrun : sysWaitpid requested flags s = .ok (s', rc, some q)) :
    ∃ j, s.table.slots j = some q ∧ q.parentPid = s.currentPid ∧ q.state = .zombie ∧
      s'.Gone q.pid := by
  unfold sysWaitpid at hrun
  split at hrun
  next => cases hrun
  next child hchild =>
    obtain ⟨j, hslot, hparent⟩ := waitChild_some hchild
    split at hrun
    next hzombie =>
      rw [hs.table.find_eq hslot] at hrun
      cases hrun
      refine ⟨j, hslot, hparent, hzombie, hs.table.below j q hslot, fun k r hr hpid => ?_⟩
      obtain ⟨hkj, hr⟩ := slots_put_none hr
      exact hkj (hs.table.eq_of_pid hr hslot hpid).1
    next =>
      split at hrun
      next => cases hrun
      split at hrun <;> cases hrun

/-- **A report** is made to the parent, about a zombie, which is gone then. -/
theorem Step.report {r : Report} (hok : SysOk s) (hstep : Step s e s') (h : s.report e = some r) :
    (∃ i q, s.table.slots i = some q ∧ q.state = .zombie ∧ q.pid = r.pid ∧
      q.parentPid = s.currentPid ∧ q.exitCode = r.status) ∧ s'.Gone r.pid := by
  obtain ⟨saved, requested, flags, frames, s₁, s₂, q, rfl, hcalled, hwait, rfl⟩ := report_some h
  have hok₀ : SysOk { s with syscallState := saved } := ⟨hok.table, hok.runs, hok.only⟩
  have hch := called_changes hcalled
  have hok₁ := hch.steady.ok hok₀
  obtain ⟨j, hslot, hparent, hzombie, hgone⟩ := sysWaitpid_some hok₁ hwait
  constructor
  · have hl : Ledger (fun _ _ => False) (fun _ _ _ => False) _ s₁ := hch.ledger
    rcases hl.fresh j q hslot hzombie with ⟨q₀, hq₀, hsame⟩ | hfalse
    · refine ⟨j, q₀, hq₀, hsame.before, hsame.pid.symm, ?_, hsame.exitCode.symm⟩
      rw [← hsame.parentPid, hparent]
      exact hch.steady.currentPid
    · exact hfalse.elim
  · obtain ⟨hallowed, hhandle⟩ := hstep.handle_eq
    have hrun : syscallHandler (.waitpid requested flags) { s with syscallState := saved } =
        .ok (s₂, (q.pid : ℤ)) := by
      unfold System.called at hcalled
      split at hcalled
      next hcheck =>
        cases hcalled
        simp only [syscallHandler, hcheck, Call.run, hwait]
        rfl
      next => cases hcalled
    have hhandled := syscallHandler_handled hok₀ hallowed (fun hout => by cases hout) hrun
    rw [System.handle, syscallEntry, hrun] at hhandle
    dsimp only at hhandle
    split at hhandle
    next =>
      exact (gone_invariant q.pid).switchExit (s := { s₂ with shouldSchedule := false })
        hhandled.table hhandled.notIdle hgone hhandle
    next =>
      cases hhandle
      exact hgone

end Gone

/-! ### Runs -/

/-- A run, with the reports that are made along it. -/
inductive Reports (s₀ : System) : List Event → System → List Report → Prop
  | nil : Reports s₀ [] s₀ []
  | snoc {es : List Event} {e : Event} {t u : System} {rs : List Report} :
      Reports s₀ es t rs → Step t e u → Reports s₀ (es ++ [e]) u (rs ++ (t.report e).toList)

section Runs

variable {s₀ s t t' : System} {es : List Event} {e : Event} {rs : List Report}

theorem Reports.run (h : Reports s₀ es s rs) : Run Step s₀ es s := by
  induction h with
  | nil => exact .nil _
  | snoc _ hlast ih => exact ih.snoc hlast

theorem Reports.append (h : Reports s₀ es t rs) {es' : List Event} (hrun : Run Step t es' t') :
    ∃ rs', Reports s₀ (es ++ es') t' (rs ++ rs') := by
  induction hrun with
  | nil => exact ⟨[], by simpa using h⟩
  | snoc _ hlast ih =>
    rename_i u v es' e _
    obtain ⟨rs', hrs'⟩ := ih
    refine ⟨rs' ++ (u.report e).toList, ?_⟩
    rw [← List.append_assoc, ← List.append_assoc]
    exact hrs'.snoc hlast

/-- Processes that have been reported are gone. -/
theorem Reports.gone (hok : SysOk s₀) (h : Reports s₀ es s rs)
    (hpids : s₀.table.nextPid + es.countP Event.handsOut < 2 ^ 64) {r : Report} (hr : r ∈ rs) :
    s.Gone r.pid := by
  induction h with
  | nil => cases hr
  | snoc hinit hlast ih =>
    rename_i es e t u rs
    rw [List.countP_append, List.countP_singleton] at hpids
    obtain ⟨hok', hnext⟩ := run_ok hok hinit.run (by omega)
    rcases List.mem_append.mp hr with hr | hr
    · refine (gone_invariant r.pid).step hok' (ih (by omega) hr) hlast (fun he => ?_)
        fun _ _ _ _ _ _ => trivial
      rw [if_pos he] at hpids
      omega
    · exact (Step.report hok' hlast (Option.mem_toList.mp hr)).2

/-- A zombie has died earlier in the run, with its code. -/
theorem Reports.died (hok : SysOk s₀) (hnone : ∀ i q, s₀.table.slots i = some q → q.state ≠ .zombie)
    (h : Reports s₀ es s rs) (hpids : s₀.table.nextPid + es.countP Event.handsOut < 2 ^ 64)
    {i : Fin 64} {q : Process} (hq : s.table.slots i = some q) (hzombie : q.state = .zombie) :
    ∃ es₁ d es₂ u, es = es₁ ++ d :: es₂ ∧ Run Step s₀ es₁ u ∧ Death u d q.pid q.exitCode := by
  induction h generalizing i q with
  | nil => exact absurd hzombie (hnone i q hq)
  | snoc hinit hlast ih =>
    rename_i es e t u rs
    rw [List.countP_append, List.countP_singleton] at hpids
    obtain ⟨hok', hnext⟩ := run_ok hok hinit.run (by omega)
    have hledger := Step.ledger hok' (fun he => by rw [if_pos he] at hpids; omega) hlast
    rcases hledger.fresh i q hq hzombie with ⟨q₀, hq₀, hsame⟩ | hdeath
    · obtain ⟨es₁, d, es₂, v, rfl, hrun, hdeath⟩ := ih (by omega) hq₀ hsame.before
      rw [← hsame.pid, ← hsame.exitCode] at hdeath
      exact ⟨es₁, d, es₂ ++ [e], v, by simp, hrun, hdeath⟩
    · exact ⟨es, e, [], t, rfl, hinit.run, hdeath⟩

theorem boot_alive (b : BootImage) (ttyVnode : Vnode) {i : Fin 64} {q : Process}
    (hq : (startScheduler (spawnInit b ttyVnode)).table.slots i = some q) : q.state ≠ .zombie := by
  unfold startScheduler at hq
  split at hq
  next =>
    rw [(spawnInit_slots hq).1]
    nofun
  next =>
    rcases slots_put_some hq with ⟨rfl, rfl⟩ | ⟨-, hq⟩
    · nofun
    · rw [(spawnInit_slots hq).1]
      nofun

end Runs

/-- Init forks, and the child exits with code 7. -/
def exitEvents : List Event :=
  [.syscall ⟨0#64, 0#64, 0#64⟩ (.fork (.built 0 0)) anyFrame, .irq 0 [] anyFrame,
    .syscall ⟨0#64, 0#64, 0#64⟩ (.exit 7) anyFrame]

/-- A child exits, and the interrupts that follow bring back init, behind 61 other children. -/
def againEvents : List Event := childEvents ++ List.replicate 61 (.irq 0 [] anyFrame)

end Vibix.Proc
