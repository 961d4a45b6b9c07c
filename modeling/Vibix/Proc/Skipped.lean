import Vibix.Proc.Safe

/-! # Skipped system calls

`syscall_handler` checks the signals of the process before it looks at the call.  If the check
terminates the process there is nobody left to report to; if it leaves a handler to the scheduler,
the call is skipped and the process gets 0, as if the call had succeeded.  `skipped_reported_iff`
says that this is exactly when a skipped call is reported as a success, and when `fork` returns 0 to
its caller. -/

namespace Vibix.Proc

open Vfs

section Scan

variable {q : Process} {sig : Fin 32} {l : List (Fin 32)}

/-- The signal is pending, and terminates the process. -/
def Process.FatalPending (q : Process) (sig : Fin 32) : Prop :=
  q.sigPending.getLsbD sig = true ∧ (q.sigactions sig).handler = sigDfl ∧ fatalByDefault sig = true

/-- The signal is pending, and the process has a handler for it. -/
def Process.CustomPending (q : Process) (sig : Fin 32) : Prop :=
  q.sigPending.getLsbD sig = true ∧ (q.sigactions sig).handler ≠ sigIgn ∧
    (q.sigactions sig).handler ≠ sigDfl

instance (q : Process) (sig : Fin 32) : Decidable (q.FatalPending sig) :=
  inferInstanceAs (Decidable (_ ∧ _))

instance (q : Process) (sig : Fin 32) : Decidable (q.CustomPending sig) :=
  inferInstanceAs (Decidable (_ ∧ _))

theorem clearSignal_pending {sig' : Fin 32} (h : sig' ≠ sig) :
    (q.clearSignal sig).sigPending.getLsbD sig' = q.sigPending.getLsbD sig' := by
  cases hp : q.sigPending.getLsbD sig' with
  | true => exact clearSignal_keeps hp fun heq => h (Fin.ext heq)
  | false => simp [Process.clearSignal, hp]

theorem forall_fatalPending_clear (h : sig ∉ l) :
    (∀ sig' ∈ l, ¬ (q.clearSignal sig).FatalPending sig') ↔ ∀ sig' ∈ l, ¬ q.FatalPending sig' := by
  refine forall₂_congr fun sig' hmem => ?_
  rw [Process.FatalPending, clearSignal_pending (ne_of_mem_of_not_mem hmem h)]
  rfl

theorem exists_customPending_clear (h : sig ∉ l) :
    (∃ sig' ∈ l, (q.clearSignal sig).CustomPending sig') ↔ ∃ sig' ∈ l, q.CustomPending sig' := by
  refine exists_congr fun sig' => and_congr_right fun hmem => ?_
  rw [Process.CustomPending, clearSignal_pending (ne_of_mem_of_not_mem hmem h)]
  rfl

/-- **When a handler is left to the scheduler**: if there is one to enter, and no signal terminates
the process. -/
theorem scan_none_custom_iff {ignored : List (Fin 32)} {result : Outcome} (hl : l.Nodup) :
    (scan none q ignored result l).outcome = .custom ↔
      (∀ sig ∈ l, ¬ q.FatalPending sig) ∧ (result = .custom ∨ ∃ sig ∈ l, q.CustomPending sig) := by
  induction l generalizing q ignored result with
  | nil => simp [scan]
  | cons sig l ih =>
    obtain ⟨hsig, hl⟩ := List.nodup_cons.mp hl
    unfold scan
    rw [List.forall_mem_cons, List.exists_mem_cons_iff]
    by_cases hpend : q.sigPending.getLsbD sig = false
    · rw [if_pos hpend, ih hl]
      simp [Process.FatalPending, Process.CustomPending, hpend]
    · rw [if_neg hpend]
      rw [Bool.not_eq_false] at hpend
      by_cases hign : (q.sigactions sig).handler = sigIgn
      · have hdfl : sigIgn ≠ sigDfl := by decide
        rw [if_pos hign, ih hl, forall_fatalPending_clear hsig, exists_customPending_clear hsig]
        simp [Process.FatalPending, Process.CustomPending, hign, hdfl]
      rw [if_neg hign]
      by_cases hdfl : (q.sigactions sig).handler = sigDfl
      · rw [if_pos hdfl]
        by_cases hfatal : fatalByDefault sig = true
        · rw [if_pos hfatal]
          simp [Process.FatalPending, hpend, hdfl, hfatal]
        · rw [if_neg hfatal, ih hl, forall_fatalPending_clear hsig,
            exists_customPending_clear hsig]
          simp [Process.FatalPending, Process.CustomPending, hdfl, hfatal]
      · rw [if_neg hdfl]
        dsimp only
        rw [ih hl]
        simp [Process.FatalPending, Process.CustomPending, hpend, hign, hdfl]

end Scan

/-- A handler of the process is to be entered, and nothing terminates the process before. -/
def Process.HandlerDue (q : Process) : Prop :=
  q.inSignal = false ∧ (∀ sig ∈ signals, ¬ q.FatalPending sig) ∧ ∃ sig ∈ signals, q.CustomPending sig

instance (q : Process) : Decidable q.HandlerDue := inferInstanceAs (Decidable (_ ∧ _ ∧ _))

/-- The current process has a handler to enter. -/
def System.HandlerDue (s : System) : Prop :=
  s.currentPid ≠ 0 ∧ s.currentPid ≠ 2 ∧
    ∃ i q, s.current = some (i, q) ∧ q.state ≠ .zombie ∧ q.HandlerDue

/-- The current process of `s` is a zombie in `s'`. -/
def CallerZombie (s s' : System) : Prop :=
  ∃ i q q', s.current = some (i, q) ∧ s'.table.slots i = some q' ∧ q'.state = .zombie

section Check

variable {s s' : System} {saved : SyscallSavedState} {call : Call} {rc : ℤ} {cleared : Option ℕ}

theorem signals_nodup : signals.Nodup := by decide

/-- Replacing the process that is found by another with the same PID. -/
theorem ProcessTable.find_put {t : ProcessTable} {pid : ℕ} {i : Fin 64} {q q' : Process}
    (h : t.find pid = some (i, q)) (hpid : q'.pid = pid) :
    (t.put i (some q')).find pid = some (i, q') := by
  unfold ProcessTable.find at h ⊢
  rw [List.findSome?_eq_some_iff] at h ⊢
  obtain ⟨l₁, a, l₂, hl, ha, hbefore⟩ := h
  obtain ⟨r, hr, heq⟩ := Option.bind_eq_some_iff.mp ha
  have hai : a = i := by
    split at heq <;> cases heq
    rfl
  subst hai
  refine ⟨l₁, a, l₂, hl, by simp [hpid], fun x hx => ?_⟩
  have hne : x ≠ a := by
    have hnodup := List.nodup_finRange 64
    rw [hl, List.nodup_append] at hnodup
    exact hnodup.2.2 x hx a (by simp)
  rw [ProcessTable.put_ne hne]
  exact hbefore x hx

/-- The process that `mark_zombie` finds is a zombie. -/
theorem markZombie_slot {t t' : ProcessTable} {pid code : ℕ} {i : Fin 64} {q : Process}
    (hfind : t.find pid = some (i, q)) (h : t.markZombie pid code = some (t', cleared)) :
    t'.slots i = some { q with state := .zombie, exitCode := code } := by
  obtain ⟨k, r, hk, hcases⟩ := markZombie_cases h
  rw [hfind] at hk
  cases hk
  rcases hcases with ⟨rfl, -, -⟩ | ⟨j, p, hp, hb, -, rfl, -⟩
  · exact ProcessTable.put_same
  · have hji : i ≠ j := by
      rintro rfl
      have hslot := (ProcessTable.find_some hp).1
      rw [ProcessTable.put_same] at hslot
      cases hslot
      cases hb
    rw [ProcessTable.put_ne hji, ProcessTable.put_same]

/-- A process that is terminated is a zombie. -/
theorem Killed.callerZombie (h : Killed s s' cleared) : CallerZombie s s' := by
  cases h with
  | mk current signals zombie =>
    rename_i i q q' events code table
    have hfind : (s.put i q').table.find q.pid = some (i, q') := by
      refine ProcessTable.find_put (q := q) ?_ signals.pid_eq
      rw [(ProcessTable.find_some current).2]
      exact current
    exact ⟨i, q, _, current, markZombie_slot hfind zombie, rfl⟩

/-- **When the signal check leaves a handler to the scheduler**. -/
theorem checkSignals_custom_iff :
    (∃ s' cleared, checkSignalsSyscall s = .ok (s', .customPending, cleared)) ↔
      s.currentPid ≠ 0 ∧ s.currentPid ≠ 2 ∧ ∃ i q, s.current = some (i, q) ∧ q.HandlerDue := by
  constructor
  · rintro ⟨s', cleared, hrun⟩
    unfold checkSignalsSyscall at hrun
    split at hrun
    next => cases hrun
    next hidle =>
      rw [not_or] at hidle
      refine ⟨hidle.1, hidle.2, ?_⟩
      split at hrun
      next => cases hrun
      next i q hcur =>
        refine ⟨i, q, hcur, ?_⟩
        split at hrun
        next => cases hrun
        split at hrun
        next =>
          split at hrun
          · split at hrun <;> cases hrun
          · cases hrun
        next hin =>
          dsimp only at hrun
          split at hrun
          next => split at hrun <;> cases hrun
          next hout =>
            obtain ⟨hfatal, hcustom⟩ := (scan_none_custom_iff signals_nodup).mp hout
            exact ⟨by simpa using hin, hfatal, hcustom.resolve_left nofun⟩
          next => cases hrun
  · rintro ⟨hzero, htwo, i, q, hcur, hin, hfatal, hcustom⟩
    have hout : (scan none q [] .pass signals).outcome = .custom :=
      (scan_none_custom_iff signals_nodup).mpr ⟨hfatal, .inr hcustom⟩
    have hpend : q.sigPending ≠ 0#64 := by
      obtain ⟨sig, -, hsig, -⟩ := hcustom
      rintro hnone
      simp [hnone] at hsig
    refine ⟨(s.log (ignoredEvents q.pid (scan none q [] .pass signals).ignored)).put i
      (scan none q [] .pass signals).proc, none, ?_⟩
    unfold checkSignalsSyscall
    rw [if_neg (by simp [hzero, htwo]), hcur]
    dsimp only
    rw [if_neg hpend, hin, hout]
    rfl

/-- A process keeps being a zombie, or not, when it is not terminated. -/
theorem Steady.callerZombie_iff {i : Fin 64} {q : Process} (h : Steady s s')
    (hcur : s.current = some (i, q)) : CallerZombie s s' ↔ q.state = .zombie := by
  obtain ⟨q', hq', hmoved⟩ := h.forward (current_slot hcur)
  constructor
  · rintro ⟨j, r, r', hr, hr', hz⟩
    rw [hcur] at hr
    cases hr
    rw [hq'] at hr'
    cases hr'
    exact hmoved.zombie_iff.mp hz
  · intro hz
    exact ⟨i, q, q', hcur, hq', hmoved.zombie_iff.mpr hz⟩

/-- **The outcomes of `syscall_handler`**: the call is run, or it is skipped and the result is 0; then
the process is a zombie, or it has a handler to enter. -/
theorem syscallHandler_cases
    (hrun : syscallHandler call { s with syscallState := saved } = .ok (s', rc)) :
    (∃ s₁, s.called saved = some s₁ ∧ call.run s₁ = .ok (s', rc)) ∨
      (s.called saved = none ∧ rc = 0 ∧ (CallerZombie s s' ∨ s.HandlerDue)) := by
  unfold syscallHandler at hrun
  unfold System.called
  split at hrun
  next => cases hrun
  next s₁ cleared hcheck => exact .inl ⟨s₁, by rw [hcheck], hrun⟩
  next s₁ res cleared hres hcheck =>
    cases hrun
    refine .inr ⟨?_, rfl, ?_⟩
    · rw [hcheck]
      cases res with
      | none => exact absurd rfl hres
      | terminated => rfl
      | customPending => rfl
    · rcases checkSignals_cases hcheck with ⟨hne, hch, -, -⟩ | ⟨-, hkilled⟩
      · obtain rfl : res = .customPending := by
          cases res with
          | none => exact absurd rfl hres
          | terminated => exact absurd rfl hne
          | customPending => rfl
        obtain ⟨hzero, htwo, i, q, hcur, hdue⟩ := checkSignals_custom_iff.mp ⟨_, _, hcheck⟩
        by_cases hz : q.state = .zombie
        · exact .inl ((hch.steady.callerZombie_iff hcur).mpr hz)
        · exact .inr ⟨hzero, htwo, i, q, hcur, hz, hdue⟩
      · exact .inl hkilled.callerZombie

/-- With a handler to enter, every call is skipped, and its result is 0. -/
theorem System.HandlerDue.skips (h : s.HandlerDue) (saved : SyscallSavedState) (call : Call) :
    ∃ s', syscallHandler call { s with syscallState := saved } = .ok (s', 0) ∧
      s.called saved = none ∧ ¬ CallerZombie s s' := by
  obtain ⟨hzero, htwo, i, q, hcur, halive, hdue⟩ := h
  obtain ⟨s₁, cleared, hcheck⟩ := checkSignals_custom_iff (s := { s with syscallState := saved }).mpr
    ⟨hzero, htwo, i, q, hcur, hdue⟩
  refine ⟨{ s₁ with shouldSchedule := true }, ?_, ?_, fun hz => halive ?_⟩
  · rw [syscallHandler, hcheck]
  · rw [System.called, hcheck]
  · rcases checkSignals_cases hcheck with ⟨-, hch, -, -⟩ | ⟨hres, -⟩
    · exact (hch.steady.callerZombie_iff hcur).mp hz
    · cases hres

/-- The result of a `fork` that is run: an error, or the PID of the child. -/
theorem sysFork_result {memory : ForkMemory} (hrun : sysFork memory s = .ok (s', rc)) :
    rc < 0 ∨ rc = s.table.nextPid := by
  unfold sysFork at hrun
  split at hrun
  next => cases hrun; exact .inl (by decide)
  next => cases hrun; exact .inl (by decide)
  next base root =>
    unfold addChild at hrun
    split at hrun
    next => cases hrun
    next s₁ pid hadd =>
      cases hrun
      split at hadd
      next => cases hadd
      next =>
        dsimp only at hadd
        split at hadd <;> cases hadd
        exact .inr rfl
    next => cases hrun; exact .inl (by decide)

end Check

/-- **A skipped call is reported as a success** exactly if the process has a handler to enter: in any
state, for any call.  In the states that are reached, this is also exactly when `fork` returns 0 to
its caller. -/
theorem skipped_reported_iff (s : System) (saved : SyscallSavedState) :
    (∀ call : Call,
      (∀ s' rc, syscallHandler call { s with syscallState := saved } = .ok (s', rc) →
        s.called saved = none → ¬ CallerZombie s s' → rc < 0) ↔ ¬ s.HandlerDue) ∧
    ∀ (b : BootImage) (ttyVnode : Vnode) (es : List Event),
      Run Step (startScheduler (spawnInit b ttyVnode)) es s →
      es.countP Event.handsOut < 2 ^ 64 - 3 →
      ∀ memory : ForkMemory,
        (∀ s' rc, syscallHandler (.fork memory) { s with syscallState := saved } = .ok (s', rc) →
          ¬ CallerZombie s s' → rc ≠ 0) ↔ ¬ s.HandlerDue := by
  constructor
  · intro call
    constructor
    · intro hreported hdue
      obtain ⟨s', hrun, hcalled, halive⟩ := hdue.skips saved call
      exact lt_irrefl _ (hreported s' 0 hrun hcalled halive)
    · intro hdue s' rc hrun hcalled halive
      rcases syscallHandler_cases hrun with ⟨s₁, hs₁, -⟩ | ⟨-, -, hcause⟩
      · rw [hcalled] at hs₁
        cases hs₁
      · exact absurd hcause (not_or.mpr ⟨halive, hdue⟩)
  · intro b ttyVnode es hreach hpids memory
    obtain ⟨hok, -⟩ := boot_run_ok b ttyVnode hreach hpids
    constructor
    · intro hnonzero hdue
      obtain ⟨s', hrun, -, halive⟩ := hdue.skips saved (.fork memory)
      exact hnonzero s' 0 hrun halive rfl
    · intro hdue s' rc hrun halive
      rcases syscallHandler_cases hrun with ⟨s₁, hs₁, hfork⟩ | ⟨-, -, hcause⟩
      · have hnext : s₁.table.nextPid = s.table.nextPid := (called_changes hs₁).steady.nextPid
        have hpos : 0 < s.table.nextPid := by
          obtain ⟨i, q, hq, hpid⟩ := hok.table.idle
          have := hok.table.below i q hq
          omega
        rcases sysFork_result hfork with hneg | heq <;> omega
      · exact absurd hcause (not_or.mpr ⟨halive, hdue⟩)

/-- The state after boot that the following runs start in. -/
def quietBoot : System :=
  startScheduler (spawnInit ⟨⟨0, 0, 0x3000, 0⟩, 0, 0, 0, 0⟩ ⟨0, none, true⟩)

/-- The first `fork` of init returns a PID. -/
theorem skipped_reported_iff_boot :
    (∃ s', syscallHandler (.fork (.built 0 0)) { quietBoot with syscallState := ⟨0#64, 0#64, 0#64⟩ } =
      .ok (s', 3)) ∧
    ∀ s' rc, syscallHandler (.fork (.built 0 0))
        { quietBoot with syscallState := ⟨0#64, 0#64, 0#64⟩ } = .ok (s', rc) →
      ¬ CallerZombie quietBoot s' → rc ≠ 0 := by
  have hquiet : ∃ r, quietBoot.current = some r ∧ ¬ r.2.HandlerDue := by decide +kernel
  have hfork : ∃ r, syscallHandler (.fork (.built 0 0))
      { quietBoot with syscallState := ⟨0#64, 0#64, 0#64⟩ } = .ok r ∧ r.2 = 3 := by
    decide +kernel
  obtain ⟨⟨s', rc⟩, hfork, hrc⟩ := hfork
  obtain rfl : rc = 3 := hrc
  refine ⟨⟨s', hfork⟩,
    ((skipped_reported_iff quietBoot _).2 _ _ [] (.nil _) (by decide) (.built 0 0)).mpr ?_⟩
  rintro ⟨-, -, i, q, hcur, -, hdue⟩
  obtain ⟨r, hr, hnot⟩ := hquiet
  rw [hcur] at hr
  cases hr
  exact hnot hdue

/-- Init handles `SIGUSR1`, and sends itself that signal; it is not scheduled in between. -/
def pendingEvents : List Event :=
  [.syscall ⟨0#64, 0#64, 0#64⟩ (.sigaction 10 (some ⟨0x400000#64, 0#64, 0#64⟩)) fun _ => ⟨true, 0x3000⟩,
    .syscall ⟨0#64, 0#64, 0#64⟩ (.kill 1 10) fun _ => ⟨true, 0x3000⟩]

/-- **`fork` returns 0 to its caller**: init then calls `fork`.  No process is created, and init takes
itself for the child. -/
theorem fork_skipped_returns_zero :
    ∃ s s', Run Step quietBoot pendingEvents s ∧ s.currentPid = 1 ∧
      syscallHandler (.fork (.built 0 0)) { s with syscallState := ⟨0#64, 0#64, 0#64⟩ } =
        .ok (s', 0) ∧
      s'.table.count = s.table.count ∧ s'.table.nextPid = s.table.nextPid ∧
      (s'.table.slots 0).map (fun q => (q.pid, q.state)) = some (1, .running) := by
  simp only [exists_and_left]
  decide +kernel

end Vibix.Proc
