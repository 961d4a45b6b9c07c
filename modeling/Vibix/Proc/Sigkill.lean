import Vibix.Proc.Skipped
import Vibix.Proc.StepRule

/-! # SIGKILL

`sys_sigaction` refuses `SIGKILL`, so no process ever has a handler for it (`killDefault_run`).  At
the check on entry to a system call a pending `SIGKILL` always terminates the process: handlers are
only noted there, and the search goes on to the end (`scan_none_fatal`).

The scheduler path goes through the pending signals in the same order, but enters the first handler
it meets.  A signal with a smaller number and a handler is therefore delivered before `SIGKILL` is
looked at (`scan_some_fatal_iff`), and the process runs on in that handler.  `sigkill_obeyed_iff` is
the exact condition under which `SIGKILL` is not outrun. -/

namespace Vibix.Proc

open Vfs

/-! ### No handler for SIGKILL -/

/-- No process has a handler for `SIGKILL`. -/
def System.KillDefault (s : System) : Prop :=
  ∀ i q, s.table.slots i = some q → (q.sigactions 9).handler = sigDfl

section KillDefault

variable {s s' : System} {i : Fin 64} {q q' : Process}

theorem ProcessTable.killDefault_add {t : ProcessTable}
    (h : ∀ j r, t.slots j = some r → (r.sigactions 9).handler = sigDfl)
    (hq : (q.sigactions 9).handler = sigDfl) :
    ∀ j r, (t.put i (some q)).slots j = some r → (r.sigactions 9).handler = sigDfl := by
  intro j r hr
  by_cases hji : j = i
  · subst hji
    rw [ProcessTable.put_same] at hr
    cases hr
    exact hq
  · rw [ProcessTable.put_ne hji] at hr
    exact h j r hr

/-- A process that does to `SIGKILL` what another one does. -/
theorem ProcessTable.killDefault_put {t : ProcessTable} {k : Fin 64}
    (h : ∀ j r, t.slots j = some r → (r.sigactions 9).handler = sigDfl)
    (hk : t.slots k = some q) (heq : q'.sigactions 9 = q.sigactions 9) :
    ∀ j r, (t.put i (some q')).slots j = some r → (r.sigactions 9).handler = sigDfl :=
  killDefault_add h (by rw [heq]; exact h k q hk)

theorem System.KillDefault.put {k : Fin 64} (h : s.KillDefault) (hk : s.table.slots k = some q)
    (heq : q'.sigactions 9 = q.sigactions 9) : (s.put i q').KillDefault :=
  ProcessTable.killDefault_put h hk heq

theorem Process.SignalsOnly.kill_eq (h : q.SignalsOnly q') : q'.sigactions 9 = q.sigactions 9 := by
  rw [h]

theorem Change.killDefault (hch : Change s s') (h : s.KillDefault) : s'.KillDefault := by
  cases hch with
  | globals table =>
    unfold System.KillDefault
    rw [table]
    exact h
  | update slot role code handler pending kill => exact h.put slot kill
  | consume current idle signals pending =>
    exact System.KillDefault.put (s := s.log _) h (current_slot current) signals.kill_eq
  | wake slot blocked => exact h.put slot rfl
  | wakeReader =>
    unfold System.wakeReader
    split
    next => exact h
    dsimp only
    split
    next => exact h
    next i q hfind =>
      split
      next =>
        exact System.KillDefault.put (s := { s with .. }) h (ProcessTable.find_some hfind).1 rfl
      next => exact h
  | forgetReader idle => exact h

theorem Changes.killDefault (hch : Changes s s') (h : s.KillDefault) : s'.KillDefault := by
  induction hch with
  | refl => exact h
  | tail _ hlast ih => exact hlast.killDefault ih

theorem Killed.killDefault {cleared : Option ℕ} (hk : Killed s s' cleared) (h : s.KillDefault) :
    s'.KillDefault := by
  cases hk with
  | @mk i q q' events code table cleared current signals zombie =>
    have hput : (s.put i q').KillDefault := h.put (current_slot current) signals.kill_eq
    obtain ⟨k, r, hk, hcases⟩ := markZombie_cases zombie
    have hdead := ProcessTable.killDefault_put (i := k) hput (ProcessTable.find_some hk).1
      (show ({ r with state := .zombie, exitCode := code } : Process).sigactions 9 = _ from rfl)
    rcases hcases with ⟨rfl, -, -⟩ | ⟨j, p, hp, -, -, rfl, -⟩
    · exact hdead
    · exact ProcessTable.killDefault_put hdead (ProcessTable.find_some hp).1 rfl

theorem Effect.killDefault {call : Call} (heff : Effect call s s') (h : s.KillDefault) :
    s'.KillDefault := by
  cases heff with
  | @blockRead _ len input i q empty current =>
    have hin : (processInput input s).KillDefault := (processInput_changes input).killDefault h
    exact System.KillDefault.put (s := { processInput input s with .. }) hin (current_slot current)
      rfl
  | blockWait current =>
    exact System.KillDefault.put (s := { s with .. }) h (current_slot current) rfl
  | @reap _ requested flags i j child reaped oft slot parent zombie found =>
    intro k r hr
    refine h k r ?_
    have hslots : (s.table.put i none).slots k = some r := hr
    by_cases hki : k = i
    · subst hki
      rw [ProcessTable.put_same] at hslots
      cases hslots
    · rwa [ProcessTable.put_ne hki] at hslots
  | exit killed => exact killed.killDefault h
  | noSlot => exact h
  | fork current free =>
    exact ProcessTable.killDefault_put h (current_slot current) rfl
  | exec current => exact ProcessTable.killDefault_add h rfl
  | sigreturn current frame =>
    exact System.KillDefault.put (s := { s with .. }) h (current_slot current) rfl

/-- Steps give no process a handler for `SIGKILL`. -/
theorem killDefault_invariant : Invariant System.KillDefault fun _ _ => True where
  globals s s' htable _ hs := by
    unfold System.KillDefault
    rw [htable]
    exact hs
  change _ _ _ hs hch := hch.killDefault hs
  kill _ _ _ _ _ hs hkilled := hkilled.killDefault hs
  effect _ _ _ _ _ _ _ hs heff := heff.killDefault hs
  sched s i q rsp st _ hs hi _ _ := hs.put hi rfl

theorem boot_killDefault (b : BootImage) (ttyVnode : Vnode) :
    (startScheduler (spawnInit b ttyVnode)).KillDefault := by
  have hs : (spawnInit b ttyVnode).KillDefault := by
    refine ProcessTable.killDefault_add (ProcessTable.killDefault_add ?_ rfl) rfl
    intro j r hr
    cases hr
  unfold startScheduler
  split
  next => exact hs
  next i q hfind =>
    exact System.KillDefault.put (s := { spawnInit b ttyVnode with .. }) hs
      (ProcessTable.find_some hfind).1 rfl

/-- **No process ever has a handler for SIGKILL.** -/
theorem killDefault_run (b : BootImage) (ttyVnode : Vnode) {es : List Event}
    (hrun : Run Step (startScheduler (spawnInit b ttyVnode)) es s)
    (hpids : es.countP Event.handsOut < 2 ^ 64 - 3) : s.KillDefault := by
  obtain ⟨hok, hnext⟩ := boot_ok b ttyVnode
  exact killDefault_invariant.run hok (boot_killDefault b ttyVnode)
    (hrun.mono fun _ _ _ hstep => ⟨hstep, fun _ _ _ _ _ _ => trivial⟩) (by omega)

end KillDefault

/-! ### Going through the pending signals -/

/-- The process is to be terminated. -/
def Outcome.isFatal : Outcome → Bool
  | .fatal _ => true
  | _ => false

section Scan

variable {q : Process} {sig : Fin 32} {l : List (Fin 32)} {ignored : List (Fin 32)}
  {result : Outcome}

theorem FatalPending.clear {sig' : Fin 32} (h : sig' ≠ sig) :
    (q.clearSignal sig).FatalPending sig' ↔ q.FatalPending sig' := by
  rw [Process.FatalPending, clearSignal_pending h]
  rfl

theorem CustomPending.clear {sig' : Fin 32} (h : sig' ≠ sig) :
    (q.clearSignal sig).CustomPending sig' ↔ q.CustomPending sig' := by
  rw [Process.CustomPending, clearSignal_pending h]
  rfl

/-- On entry to a system call a fatal signal is found, whatever comes before it. -/
theorem scan_none_fatal (hl : l.Nodup) (h : ∃ sig ∈ l, q.FatalPending sig) :
    (scan none q ignored result l).outcome.isFatal = true := by
  induction l generalizing q ignored result with
  | nil => simp at h
  | cons sig l ih =>
    obtain ⟨hsig, hl⟩ := List.nodup_cons.mp hl
    obtain ⟨sig', hmem, hfatal⟩ := h
    unfold scan
    by_cases hself : sig' = sig
    · subst hself
      obtain ⟨hpend, hdfl, hdies⟩ := hfatal
      have hign : sigDfl ≠ sigIgn := by decide
      rw [if_neg (by simp [hpend]), hdfl, if_neg hign, if_pos rfl, if_pos hdies]
      rfl
    · have hrest := (List.mem_cons.mp hmem).resolve_left hself
      have hclear := (FatalPending.clear (q := q) hself).mpr hfatal
      split_ifs
      · exact ih hl ⟨sig', hrest, hfatal⟩
      · exact ih hl ⟨sig', hrest, hclear⟩
      · rfl
      · exact ih hl ⟨sig', hrest, hclear⟩
      · exact ih hl ⟨sig', hrest, hfatal⟩

/-- Every handler among `l` comes behind a fatal signal. -/
def Process.FatalFirst (q : Process) (l : List (Fin 32)) : Prop :=
  ∀ sig ∈ l, q.CustomPending sig → ∃ sig' ∈ l, sig' < sig ∧ q.FatalPending sig'

instance (q : Process) (l : List (Fin 32)) : Decidable (q.FatalFirst l) :=
  inferInstanceAs (Decidable (∀ sig ∈ l, _ → _))

/-- A signal that neither terminates the process nor has a handler makes no difference. -/
theorem fatalFirst_cons_iff {q' : Process} (hf : ¬ q.FatalPending sig) (hc : ¬ q.CustomPending sig)
    (hfl : ∀ sig' ∈ l, q'.FatalPending sig' ↔ q.FatalPending sig')
    (hcl : ∀ sig' ∈ l, q'.CustomPending sig' ↔ q.CustomPending sig') :
    q'.FatalFirst l ↔ q.FatalFirst (sig :: l) := by
  constructor
  · intro h a ha hcust
    rcases List.mem_cons.mp ha with rfl | ha
    · exact absurd hcust hc
    · obtain ⟨b, hb, hlt, hfb⟩ := h a ha ((hcl a ha).mpr hcust)
      exact ⟨b, List.mem_cons_of_mem _ hb, hlt, (hfl b hb).mp hfb⟩
  · intro h a ha hcust
    obtain ⟨b, hb, hlt, hfb⟩ := h a (List.mem_cons_of_mem _ ha) ((hcl a ha).mp hcust)
    rcases List.mem_cons.mp hb with rfl | hb
    · exact absurd hfb hf
    · exact ⟨b, hb, hlt, (hfl b hb).mpr hfb⟩

/-- **On the scheduler path** a fatal signal takes effect unless a handler comes before it and there
is room for its frame. -/
theorem scan_some_fatal_iff {rsp : ℕ} (hl : l.Pairwise (· < ·))
    (h : ∃ sig ∈ l, q.FatalPending sig) :
    (scan (some rsp) q ignored result l).outcome.isFatal = true ↔
      rsp < (q.stackLow + sigframeSize) % 2 ^ 64 ∨ q.FatalFirst l := by
  induction l generalizing q ignored result with
  | nil => simp at h
  | cons sig l ih =>
    obtain ⟨hfirst, hl⟩ := List.pairwise_cons.mp hl
    have hne : ∀ sig' ∈ l, sig' ≠ sig := fun sig' hmem => (ne_of_lt (hfirst sig' hmem)).symm
    -- one more signal that is skipped, with or without clearing it
    have hskip : ∀ q' ignored', q'.stackLow = q.stackLow → ¬ q.FatalPending sig →
        ¬ q.CustomPending sig →
        (∀ sig' ∈ l, q'.FatalPending sig' ↔ q.FatalPending sig') →
        (∀ sig' ∈ l, q'.CustomPending sig' ↔ q.CustomPending sig') →
        ((scan (some rsp) q' ignored' result l).outcome.isFatal = true ↔
          rsp < (q.stackLow + sigframeSize) % 2 ^ 64 ∨ q.FatalFirst (sig :: l)) := by
      intro q' ignored' hlow hf hc hfl hcl
      obtain ⟨b, hb, hfb⟩ := h
      have hb' := (List.mem_cons.mp hb).resolve_left fun heq => hf (heq ▸ hfb)
      rw [ih hl ⟨b, hb', (hfl b hb').mpr hfb⟩, hlow, fatalFirst_cons_iff hf hc hfl hcl]
    unfold scan
    by_cases hpend : q.sigPending.getLsbD sig = false
    · rw [if_pos hpend]
      exact hskip q ignored rfl (by simp [Process.FatalPending, hpend])
        (by simp [Process.CustomPending, hpend]) (fun _ _ => Iff.rfl) fun _ _ => Iff.rfl
    rw [if_neg hpend]
    rw [Bool.not_eq_false] at hpend
    have hclear := hskip (q.clearSignal sig) (ignored ++ [sig]) rfl
    by_cases hign : (q.sigactions sig).handler = sigIgn
    · have hdfl : sigIgn ≠ sigDfl := by decide
      rw [if_pos hign]
      exact hclear (by simp [Process.FatalPending, hign, hdfl])
        (by simp [Process.CustomPending, hign]) (fun _ hm => FatalPending.clear (hne _ hm))
        fun _ hm => CustomPending.clear (hne _ hm)
    rw [if_neg hign]
    by_cases hdfl : (q.sigactions sig).handler = sigDfl
    · rw [if_pos hdfl]
      by_cases hfatal : fatalByDefault sig = true
      · rw [if_pos hfatal]
        refine iff_of_true rfl (.inr fun a ha hcust => ?_)
        rcases List.mem_cons.mp ha with rfl | ha
        · exact absurd hdfl hcust.2.2
        · exact ⟨sig, List.mem_cons_self, hfirst a ha, hpend, hdfl, hfatal⟩
      · rw [if_neg hfatal]
        exact hclear (by simp [Process.FatalPending, hfatal])
          (by simp [Process.CustomPending, hdfl]) (fun _ hm => FatalPending.clear (hne _ hm))
          fun _ hm => CustomPending.clear (hne _ hm)
    · rw [if_neg hdfl]
      dsimp only
      have hnot : ¬ q.FatalFirst (sig :: l) := by
        intro hff
        obtain ⟨b, hb, hlt, -⟩ := hff sig List.mem_cons_self ⟨hpend, hign, hdfl⟩
        rcases List.mem_cons.mp hb with rfl | hb
        · exact lt_irrefl _ hlt
        · exact lt_asymm hlt (hfirst b hb)
      split
      next hroom => exact iff_of_true rfl (.inl hroom)
      next hroom => exact iff_of_false (by simp [Outcome.isFatal]) (not_or.mpr ⟨hroom, hnot⟩)

end Scan

/-! ### The two delivery points -/

/-- The process `pid` is a zombie. -/
def System.IsZombie (s : System) (pid : ℕ) : Prop :=
  ∃ i q, s.table.slots i = some q ∧ q.pid = pid ∧ q.state = .zombie

/-- Both delivery points make the process `pid` a zombie: the scheduler path, with the frame to be
restored, and the check on entry to a system call of the process. -/
structure System.ObeysSigkill (s : System) (pid : ℕ) (frame : FrameView) : Prop where
  deliver : ∃ s' cleared, deliverPendingSignals pid frame s = .ok (s', .killed cleared) ∧
    s'.IsZombie pid
  check : s.currentPid = pid →
    ∃ s' cleared, checkSignalsSyscall s = .ok (s', .terminated, cleared) ∧ s'.IsZombie pid

section Deliver

variable {s : System} {pid : ℕ} {i : Fin 64} {q : Process} {frame : FrameView}

theorem terminate_zombie (q' : Process) (code : ℕ) (hfind : s.table.find pid = some (i, q))
    (hpid : q'.pid = pid) :
    ∃ s' cleared, s.terminate i q' code = .ok (s', cleared) ∧ s'.IsZombie pid := by
  have hput : (s.put i q').table.find q'.pid = some (i, q') := by
    rw [hpid]
    exact ProcessTable.find_put hfind hpid
  unfold System.terminate
  cases hz : (s.put i q').table.markZombie q'.pid code with
  | none =>
    unfold ProcessTable.markZombie at hz
    rw [hput] at hz
    dsimp only at hz
    split_ifs at hz
    split at hz
    · cases hz
    · split_ifs at hz
  | some r =>
    obtain ⟨table, cleared⟩ := r
    exact ⟨_, cleared, rfl, i, _, markZombie_slot hput hz, hpid, rfl⟩

theorem Outcome.eq_fatal {o : Outcome} (h : o.isFatal = true) : ∃ code, o = .fatal code := by
  cases o with
  | fatal code => exact ⟨code, rfl⟩
  | pass | custom | enter => cases h

theorem signals_sorted : signals.Pairwise (· < ·) := by decide

theorem Process.FatalPending.pending_ne {sig : Fin 32} (h : q.FatalPending sig) :
    q.sigPending ≠ 0#64 := by
  intro h0
  have hbit := h.1
  rw [h0] at hbit
  simp at hbit

/-- **The scheduler path.** -/
theorem deliver_killed_iff (hidle : ¬ (pid = 0 ∨ pid = 2)) (hfind : s.table.find pid = some (i, q))
    (hkill : q.FatalPending 9) (huser : frame.userMode = true) :
    (∃ s' cleared, deliverPendingSignals pid frame s = .ok (s', .killed cleared) ∧
        s'.IsZombie pid) ↔
      q.inSignal = true ∨ frame.userRsp < (q.stackLow + sigframeSize) % 2 ^ 64 ∨
        q.FatalFirst signals := by
  have hqpid := (ProcessTable.find_some hfind).2
  have hpend := hkill.pending_ne
  unfold deliverPendingSignals
  rw [if_neg hidle, hfind]
  dsimp only
  rw [if_neg hpend]
  by_cases hin : q.inSignal = true
  · have hbit : q.sigPending.getLsbD sigKill = true := hkill.1
    rw [if_pos hin, if_pos hbit]
    obtain ⟨s', cleared, hterm, hz⟩ := terminate_zombie (q.clearSignal sigKill)
      (128 + sigKill) hfind hqpid
    rw [hterm]
    exact iff_of_true ⟨s', cleared, rfl, hz⟩ (.inl hin)
  · have hscan : (scan (some frame.userRsp) q [] .pass signals).outcome.isFatal = true ↔ _ :=
      scan_some_fatal_iff signals_sorted ⟨9, by decide, hkill⟩
    rw [if_neg hin, if_neg (by simp [huser]), or_iff_right hin, ← hscan]
    constructor
    · rintro ⟨s', cleared, hrun, -⟩
      split at hrun
      next code hout => simp [hout, Outcome.isFatal]
      next => cases hrun
      next => cases hrun
    · intro hfatal
      obtain ⟨code, hout⟩ := Outcome.eq_fatal hfatal
      have hproc : (scan (some frame.userRsp) q [] .pass signals).proc.pid = pid :=
        (scan_only signals).pid_eq.trans hqpid
      obtain ⟨s', cleared, hterm, hz⟩ := terminate_zombie
        (s := s.log (ignoredEvents q.pid (scan (some frame.userRsp) q [] .pass signals).ignored))
        _ code hfind hproc
      rw [hout]
      dsimp only
      rw [hterm]
      exact ⟨s', cleared, rfl, hz⟩

/-- **The check on entry to a system call** always obeys. -/
theorem check_terminated (hidle : ¬ (pid = 0 ∨ pid = 2)) (hfind : s.table.find pid = some (i, q))
    (hkill : q.FatalPending 9) (hcur : s.currentPid = pid) :
    ∃ s' cleared, checkSignalsSyscall s = .ok (s', .terminated, cleared) ∧ s'.IsZombie pid := by
  have hqpid := (ProcessTable.find_some hfind).2
  have hcurrent : s.current = some (i, q) := by
    unfold System.current
    rw [hcur, hfind]
  have hpend := hkill.pending_ne
  unfold checkSignalsSyscall
  rw [hcur, if_neg hidle, hcurrent]
  dsimp only
  rw [if_neg hpend]
  by_cases hin : q.inSignal = true
  · have hbit : q.sigPending.getLsbD sigKill = true := hkill.1
    rw [if_pos hin, if_pos hbit]
    obtain ⟨s', cleared, hterm, hz⟩ := terminate_zombie (q.clearSignal sigKill)
      (128 + sigKill) hfind hqpid
    rw [hterm]
    exact ⟨s', cleared, rfl, hz⟩
  · rw [if_neg hin]
    have hfatal : (scan none q [] .pass signals).outcome.isFatal = true :=
      scan_none_fatal signals_nodup ⟨9, by decide, hkill⟩
    obtain ⟨code, hout⟩ := Outcome.eq_fatal hfatal
    have hproc : (scan none q [] .pass signals).proc.pid = pid :=
      (scan_only signals).pid_eq.trans hqpid
    obtain ⟨s', cleared, hterm, hz⟩ := terminate_zombie
      (s := s.log (ignoredEvents q.pid (scan none q [] .pass signals).ignored)) _ code hfind hproc
    rw [hout]
    dsimp only
    rw [hterm]
    exact ⟨s', cleared, rfl, hz⟩

/-- **When SIGKILL is not outrun**: a process, not the idle one, with `SIGKILL` pending is made a
zombie at both delivery points exactly if it is in a handler already, or its stack has no room for a
signal frame, or every pending signal for which it has a handler comes behind one that terminates
it. -/
theorem sigkill_obeyed_iff (s : System) (pid : ℕ) (frame : FrameView) (i : Fin 64) (q : Process)
    (hidle : pid ≠ 0 ∧ pid ≠ 2) (hdefault : s.KillDefault) (hfind : s.table.find pid = some (i, q))
    (hkill : q.sigPending.getLsbD sigKill = true) (huser : frame.userMode = true) :
    s.ObeysSigkill pid frame ↔
      q.inSignal = true ∨ frame.userRsp < (q.stackLow + sigframeSize) % 2 ^ 64 ∨
        q.FatalFirst signals := by
  have hne : ¬ (pid = 0 ∨ pid = 2) := not_or.mpr hidle
  have hfatal : q.FatalPending 9 :=
    ⟨hkill, hdefault i q (ProcessTable.find_some hfind).1, by decide⟩
  rw [← deliver_killed_iff hne hfind hfatal huser]
  exact ⟨fun h => h.deliver, fun h => ⟨h, check_terminated hne hfind hfatal⟩⟩

end Deliver

/-! ### A handler that outruns SIGKILL -/

/-- Init handles `SIGINT` and forks; its child sends it `SIGINT` and `SIGKILL`. -/
def outrunEvents : List Event :=
  [.syscall ⟨0#64, 0#64, 0#64⟩ (.sigaction 2 (some ⟨0x400000#64, 0#64, 0#64⟩)) fun _ => ⟨true, 0x3000⟩,
    .syscall ⟨0#64, 0#64, 0#64⟩ (.fork (.built 0 0)) fun _ => ⟨true, 0x3000⟩,
    .irq 0 [] fun _ => ⟨true, 0x3000⟩,
    .syscall ⟨0#64, 0#64, 0#64⟩ (.kill 1 2) fun _ => ⟨true, 0x3000⟩,
    .syscall ⟨0#64, 0#64, 0#64⟩ (.kill 1 9) fun _ => ⟨true, 0x3000⟩]

/-- The process in which a run ends. -/
theorem outrun_state : ∃ s i q, Run Step quietBoot outrunEvents s ∧
    s.table.find 1 = some (i, q) ∧ q.sigPending.getLsbD sigKill = true ∧
    ∃ s' rsp mask, deliverPendingSignals 1 ⟨true, 0x3000⟩ s =
      .ok (s', .entered 2 0x400000#64 rsp mask) := by
  have hseen : ∃ s, Run Step quietBoot outrunEvents s ∧
      (∃ r, s.table.find 1 = some r ∧ r.2.sigPending.getLsbD sigKill = true) ∧
      ∃ r, deliverPendingSignals 1 ⟨true, 0x3000⟩ s = .ok r ∧
        (match r.2 with
          | .entered sig handler _ _ => decide (sig = 2 ∧ handler = 0x400000#64)
          | _ => false) = true := by
    decide +kernel
  obtain ⟨s, hrun, ⟨⟨i, q⟩, hfind, hpend⟩, ⟨s', d⟩, hd, hent⟩ := hseen
  refine ⟨s, i, q, hrun, hfind, hpend, s', ?_⟩
  cases d with
  | unchanged => cases hent
  | killed cleared => cases hent
  | entered sig handler rsp mask =>
    obtain ⟨rfl, rfl⟩ := of_decide_eq_true hent
    exact ⟨rsp, mask, hd⟩

theorem sigkill_obeyed_iff_outrun : ∃ s i q, Run Step quietBoot outrunEvents s ∧
    s.table.find 1 = some (i, q) ∧ q.sigPending.getLsbD sigKill = true ∧
    (s.ObeysSigkill 1 ⟨true, 0x3000⟩ ↔
      q.inSignal = true ∨ 0x3000 < (q.stackLow + sigframeSize) % 2 ^ 64 ∨ q.FatalFirst signals) := by
  obtain ⟨s, i, q, hrun, hfind, hpend, -⟩ := outrun_state
  exact ⟨s, i, q, hrun, hfind, hpend, sigkill_obeyed_iff s 1 ⟨true, 0x3000⟩ i q (by decide)
    (killDefault_run _ _ hrun (by decide)) hfind hpend rfl⟩

/-- `SIGKILL` is pending, and the handler of `SIGINT` is entered. -/
theorem sigkill_outrun : ∃ s i q, Run Step quietBoot outrunEvents s ∧
    s.table.find 1 = some (i, q) ∧ q.sigPending.getLsbD sigKill = true ∧
    ¬ s.ObeysSigkill 1 ⟨true, 0x3000⟩ := by
  obtain ⟨s, i, q, hrun, hfind, hpend, s', rsp, mask, hent⟩ := outrun_state
  refine ⟨s, i, q, hrun, hfind, hpend, fun hobeys => ?_⟩
  obtain ⟨s'', cleared, hkilled, -⟩ := hobeys.deliver
  rw [hent] at hkilled
  cases hkilled

end Vibix.Proc
