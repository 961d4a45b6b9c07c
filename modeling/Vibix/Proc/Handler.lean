import Vibix.Proc.StepRule
import Vibix.Proc.Frame

/-! # Signal handlers

From the moment when `deliver_pending_signals` enters a handler until the handler calls
`sys_sigreturn`, the process is in its handler (`System.InHandler`): no step makes it forget where its
signal frame is, whoever runs.  So `sys_sigreturn` reads the words that `deliver_pending_signals`
wrote, and by the layouts of the frames the process continues where it was interrupted
(`sigreturn_restores`).

A signal frame at address 0 would be taken for none.  Stacks do not reach down to 0
(`System.StacksPlaced`), and the scheduler delivers signals in good states only (`run_selected`). -/

namespace Vibix.Proc

open Vfs

/-! ### Stacks -/

/-- A stack with this low end has its signal frames above 0, and at addresses that do not wrap. -/
def StackPlaced (low : ℕ) : Prop := 0 < low ∧ low + sigframeSize < 2 ^ 64

instance (low : ℕ) : Decidable (StackPlaced low) := inferInstanceAs (Decidable (_ ∧ _))

/-- The stacks of all processes but the idle process are placed so. -/
def System.StacksPlaced (s : System) : Prop :=
  ∀ i q, s.table.slots i = some q → q.pid ≠ 2 → StackPlaced q.stackLow

/-- The images that are executed have their stacks placed so. -/
def Call.stackPlaced : Call → Prop
  | .exec (.ok image) => StackPlaced image.stackLow
  | _ => True

/-- The condition on events: see `Call.stackPlaced`. -/
def Event.stackPlaced : Event → Prop
  | .syscall _ call _ => call.stackPlaced
  | .irq .. => True

section Stacks

variable {s s' : System} {i : Fin 64} {q q' : Process}

theorem Process.Moved.stackLow (h : q.Moved q') : q'.stackLow = q.stackLow :=
  (congrArg Process.stackLow h.1 :)

theorem System.StacksPlaced.put (hs : s.StacksPlaced) (hi : s.table.slots i = some q)
    (hpid : q'.pid = q.pid) (hlow : q'.stackLow = q.stackLow) : (s.put i q').StacksPlaced := by
  intro j r hr hne
  rcases slots_put_some hr with ⟨rfl, rfl⟩ | ⟨-, hr⟩
  · rw [hlow]
    exact hs j q hi (hpid ▸ hne)
  · exact hs j r hr hne

theorem Steady.placed (h : Steady s s') (hs : s.StacksPlaced) : s'.StacksPlaced := by
  intro i q' hq' hne
  obtain ⟨q, hq, hm⟩ := h.backward hq'
  rw [hm.stackLow]
  exact hs i q hq (hm.pid ▸ hne)

theorem Killed.placed {cleared : Option ℕ} (h : Killed s s' cleared) (ht : TableOk s.table)
    (hs : s.StacksPlaced) : s'.StacksPlaced := by
  obtain ⟨i, q, z, events, -, hb, -⟩ := h.buried ht
  intro j r hr hne
  rcases hb.backward hr with ⟨rfl, rfl⟩ | ⟨-, hr⟩ | ⟨-, p, hp, -, -, rfl⟩
  · have hlow : r.stackLow = q.stackLow := (congrArg Process.stackLow hb.role :)
    rw [hlow]
    exact hs j q hb.slot (hb.pid ▸ hne)
  · exact hs j r hr hne
  · exact hs j p hp hne

theorem Effect.placed {call : Call} (h : Effect call s s') (hok : SysOk s) (hne : s.currentPid ≠ 2)
    (hcall : call.stackPlaced) (hs : s.StacksPlaced) : s'.StacksPlaced := by
  cases h with
  | blockRead empty current =>
    rename_i len input i q
    have hs' := (processInput_changes input).steady.placed hs
    exact System.StacksPlaced.put (s := { processInput input s with .. }) hs' (current_slot current)
      rfl rfl
  | blockWait current slot parent alive =>
    exact System.StacksPlaced.put (s := { s with .. }) hs (current_slot current) rfl rfl
  | reap slot parent zombie found => exact fun j r hr => hs j r (slots_put_none hr).2
  | exit killed => exact killed.placed hok.table hs
  | noSlot => exact hs
  | fork current free =>
    rename_i i k parent base root oft
    intro j r hr hne'
    rcases slots_put_some hr with ⟨rfl, rfl⟩ | ⟨-, hr⟩
    · obtain ⟨hk, hpid⟩ := ProcessTable.find_some current
      exact hs k parent hk (hpid ▸ hne)
    · exact hs j r hr hne'
  | exec current =>
    intro j r hr hne'
    rcases slots_put_some hr with ⟨rfl, rfl⟩ | ⟨-, hr⟩
    · exact hcall
    · exact hs j r hr hne'
  | sigreturn current frame =>
    exact System.StacksPlaced.put (s := { s with .. }) hs (current_slot current) rfl rfl

/-- **Steps keep the stacks placed.** -/
theorem stacks_invariant : Invariant System.StacksPlaced fun _ call => call.stackPlaced where
  globals _ _ htable _ hs i q hq := hs i q (htable ▸ hq)
  change _ _ _ hs hch := hch.steady.placed hs
  kill _ _ _ ht _ hs hkilled := hkilled.placed ht hs
  effect _ _ _ hok hne _ hcall hs heff := heff.placed hok hne hcall hs
  sched _ _ _ _ _ _ hs hi _ _ := hs.put hi rfl rfl

theorem boot_stacks {b : BootImage} (hb : StackPlaced (b.init.userRsp - 0x1000)) (ttyVnode : Vnode) :
    (startScheduler (spawnInit b ttyVnode)).StacksPlaced := by
  have hs : (spawnInit b ttyVnode).StacksPlaced := by
    intro i q hq hne
    rcases slots_put_some hq with ⟨rfl, rfl⟩ | ⟨-, hq⟩
    · exact absurd rfl hne
    · rcases slots_put_some hq with ⟨rfl, rfl⟩ | ⟨-, hq⟩
      · exact hb
      · cases hq
  unfold startScheduler
  split
  next => exact hs
  next i q hfind =>
    exact System.StacksPlaced.put (s := { spawnInit b ttyVnode with .. }) hs
      (ProcessTable.find_some hfind).1 rfl rfl

end Stacks

/-! ### Processes in a handler -/

/-- Process `pid` is in a handler, with its signal frame at `rsp`, unless it was terminated. -/
def System.InHandler (pid rsp : ℕ) (s : System) : Prop :=
  pid < s.table.nextPid ∧ ∀ i q, s.table.slots i = some q → q.pid = pid →
    q.state = .zombie ∨ q.inSignal = true ∧ q.sigframeRsp = rsp

/-- The calls that leave a handler. -/
def Call.leavesHandler : Call → Bool
  | .exec (.ok _) => true
  | .sigreturn _ => true
  | _ => false

/-- Process `pid` does not leave its handler. -/
def Event.staysInHandler (pid : ℕ) (s : System) : Event → Prop
  | .syscall _ call _ => s.currentPid = pid → call.leavesHandler = false
  | .irq .. => True

section Handler

variable {s s' : System} {i : Fin 64} {q q' : Process} {pid rsp : ℕ}

theorem System.InHandler.put (hs : s.InHandler pid rsp) (hi : s.table.slots i = some q)
    (hpid : q'.pid = q.pid) (hzombie : q.state = .zombie → q'.state = .zombie)
    (hhandler : q.inSignal = true → q'.inSignal = true ∧ q'.sigframeRsp = q.sigframeRsp) :
    (s.put i q').InHandler pid rsp := by
  refine ⟨hs.1, fun j r hr hrpid => ?_⟩
  rcases slots_put_some hr with ⟨rfl, rfl⟩ | ⟨-, hr⟩
  · refine (hs.2 j q hi (hpid.symm.trans hrpid)).imp hzombie fun h => ?_
    obtain ⟨hin, hframe⟩ := hhandler h.1
    exact ⟨hin, hframe.trans h.2⟩
  · exact hs.2 j r hr hrpid

theorem wakeReader_inHandler (hs : s.InHandler pid rsp) : s.wakeReader.InHandler pid rsp := by
  unfold System.wakeReader
  split
  next => exact hs
  dsimp only
  split
  next => exact hs
  next i q hfind =>
    split
    next hblocked =>
      refine System.InHandler.put (s := { s with .. }) hs (ProcessTable.find_some hfind).1 rfl ?_
        fun h => ⟨h, rfl⟩
      rw [hblocked]
      nofun
    next => exact hs

theorem Change.inHandler (h : Change s s') (hs : s.InHandler pid rsp) : s'.InHandler pid rsp := by
  cases h with
  | globals table =>
    rw [System.InHandler, table]
    exact hs
  | update slot role code handler pending kill =>
    rename_i i q q'
    have hstate : q'.state = q.state := (congrArg Process.state role :)
    exact hs.put slot (congrArg Process.pid role :) (fun h => hstate.trans h)
      fun h => ⟨handler.1.trans h, handler.2⟩
  | consume current idle signals pending =>
    rename_i i q q' events
    have hstate : q'.state = q.state := (congrArg Process.state signals.role_eq :)
    refine System.InHandler.put (s := s.log events) hs (current_slot current) signals.pid_eq
      (fun h => hstate.trans h) fun h => ?_
    rw [idle] at h
    cases h
  | wake slot blocked =>
    refine hs.put slot rfl (fun h => ?_) fun h => ⟨h, rfl⟩
    rw [blocked] at h
    cases h
  | wakeReader => exact wakeReader_inHandler hs
  | forgetReader idle => exact hs

theorem Changes.inHandler (h : Changes s s') (hs : s.InHandler pid rsp) : s'.InHandler pid rsp := by
  induction h with
  | refl => exact hs
  | tail _ hlast ih => exact hlast.inHandler ih

theorem Killed.inHandler {cleared : Option ℕ} (h : Killed s s' cleared) (ht : TableOk s.table)
    (hs : s.InHandler pid rsp) : s'.InHandler pid rsp := by
  obtain ⟨i, q, z, events, -, hb, -⟩ := h.buried ht
  refine ⟨hb.nextPid ▸ hs.1, fun j r hr hpid => ?_⟩
  rcases hb.backward hr with ⟨rfl, rfl⟩ | ⟨-, hr⟩ | ⟨-, p, hp, hblocked, -, rfl⟩
  · exact .inl hb.zombie.2
  · exact hs.2 j r hr hpid
  · refine .inr ((hs.2 j p hp hpid).resolve_left ?_)
    rw [hblocked]
    nofun

theorem Effect.inHandler {call : Call} (h : Effect call s s') (hok : SysOk s)
    (hwrap : call.handsOut = true → s.table.nextPid + 1 < 2 ^ 64)
    (hstays : s.currentPid = pid → call.leavesHandler = false) (hs : s.InHandler pid rsp) :
    s'.InHandler pid rsp := by
  have hleaves : ∀ {j : Fin 64} {r : Process}, s.current = some (j, r) →
      call.leavesHandler = true → r.pid ≠ pid := by
    intro j r hcur hleaves hpid
    rw [(ProcessTable.find_some hcur).2] at hpid
    rw [hstays hpid] at hleaves
    cases hleaves
  cases h with
  | blockRead empty current =>
    rename_i len input i q
    have hin := processInput_changes (s := s) input
    have hrun := (hin.steady.ok hok).running current
    refine System.InHandler.put (s := { processInput input s with .. }) (hin.inHandler hs)
      (current_slot current) rfl (fun h => ?_) fun h => ⟨h, rfl⟩
    rw [hrun] at h
    cases h
  | blockWait current slot parent alive =>
    refine System.InHandler.put (s := { s with .. }) hs (current_slot current) rfl (fun h => ?_)
      fun h => ⟨h, rfl⟩
    rw [hok.running current] at h
    cases h
  | reap slot parent zombie found => exact ⟨hs.1, fun j r hr => hs.2 j r (slots_put_none hr).2⟩
  | exit killed => exact killed.inHandler hok.table hs
  | noSlot =>
    have hlt := hwrap rfl
    refine ⟨?_, hs.2⟩
    change pid < (s.table.nextPid + 1) % 2 ^ 64
    rw [Nat.mod_eq_of_lt hlt]
    exact hs.1.trans (Nat.lt_succ_self _)
  | fork current free =>
    have hlt := hwrap rfl
    refine ⟨?_, fun j r hr hpid => ?_⟩
    · change pid < (s.table.nextPid + 1) % 2 ^ 64
      rw [Nat.mod_eq_of_lt hlt]
      exact hs.1.trans (Nat.lt_succ_self _)
    · rcases slots_put_some hr with ⟨rfl, rfl⟩ | ⟨-, hr⟩
      · exact absurd hpid hs.1.ne'
      · exact hs.2 j r hr hpid
  | exec current =>
    have hne := hleaves current rfl
    refine ⟨hs.1, fun j r hr hpid => ?_⟩
    rcases slots_put_some hr with ⟨rfl, rfl⟩ | ⟨-, hr⟩
    · exact absurd hpid hne
    · exact hs.2 j r hr hpid
  | sigreturn current frame =>
    have hne := hleaves current rfl
    refine ⟨hs.1, fun j r hr hpid => ?_⟩
    rcases slots_put_some hr with ⟨rfl, rfl⟩ | ⟨-, hr⟩
    · exact absurd hpid hne
    · exact hs.2 j r hr hpid

/-- **A process stays in its handler** until it leaves it. -/
theorem inHandler_invariant (pid rsp : ℕ) : Invariant (System.InHandler pid rsp)
    fun s call => s.currentPid = pid → call.leavesHandler = false where
  globals _ _ htable _ hs := by
    rw [System.InHandler, htable]
    exact hs
  change _ _ _ hs hch := hch.inHandler hs
  kill _ _ _ ht _ hs hkilled := hkilled.inHandler ht hs
  effect _ _ _ hok _ hwrap hstays hs heff := heff.inHandler hok hwrap hstays hs
  sched _ _ _ _ _ _ hs hi _ hzombie := hs.put hi rfl hzombie fun h => ⟨h, rfl⟩

end Handler

/-! ### Delivery -/

/-- The last state in which the loop of the scheduler delivers signals, and what it sees of the frame
there. -/
def lastSelected (frames : ℕ → FrameView) : ℕ → System → Option (FrameView × System)
  | 0, _ => none
  | n + 1, s =>
    match s.table.find (schedNext s) with
    | none => none
    | some (_, q) =>
      if q.state ≠ .ready then none
      else
        match schedRound (frames n) s with
        | .ok (s, .killed _) => lastSelected frames n s
        | _ => some (frames n,
            { s with currentPid := schedNext s, kernelStack := q.kernelStackTop })

/-- The same for an event. -/
def System.selects (s : System) : Event → Option (FrameView × System)
  | .irq rsp input frames =>
    match (processInput input s).current with
    | none => none
    | some (i, q) =>
      lastSelected frames schedRounds
        ((processInput input s).put i { q with kernelRsp := rsp, state := .ready })
  | .syscall saved call frames =>
    match syscallHandler call { s with syscallState := saved } with
    | .error _ => none
    | .ok (s, _) =>
      match s.current with
      | none => none
      | some (i, q) =>
        if s.shouldSchedule then
          lastSelected frames schedRounds ({ s with shouldSchedule := false }.put i
            { q with
              kernelRsp := s.kernelStack - 176
              state := if q.state = ProcessState.running then ProcessState.ready else q.state })
        else none

/-- The states in which signals are delivered: nobody runs, and a process has been selected. -/
structure Selected (s : System) : Prop where
  table : TableOk s.table
  still : s.Still
  present : s.Present
  placed : s.StacksPlaced

section Delivery

variable {s s' s₀ : System} {e : Event} {view : FrameView}

theorem lastSelected_ok {frames : ℕ → FrameView} {n : ℕ} (ht : TableOk s.table) (hstill : s.Still)
    (hs : s.StacksPlaced) (h : lastSelected frames n s = some (view, s₀)) : Selected s₀ := by
  induction n generalizing s with
  | zero => cases h
  | succ n ih =>
    unfold lastSelected at h
    split at h
    next => cases h
    next i q hfind =>
      split at h
      next => cases h
      next hready =>
        obtain ⟨hi, hpid⟩ := ProcessTable.find_some hfind
        have hsel : Selected { s with currentPid := schedNext s, kernelStack := q.kernelStackTop } :=
          ⟨ht, hstill, ⟨i, q, hi, hpid⟩, hs⟩
        split at h
        next s₁ cleared hround =>
          rw [schedRound_eq ht.distinct hi hpid (not_not.mp hready)] at hround
          rcases deliver_cases
              (s := { s with currentPid := schedNext s, kernelStack := q.kernelStackTop })
              hround with ⟨hnot, -⟩ | ⟨c, -, hne, hkilled⟩
          · exact absurd rfl (hnot cleared)
          · obtain ⟨k, r, z, events, hcur, hb, -⟩ := hkilled.buried hsel.table
            exact ih (hb.tableOk ht ((ProcessTable.find_some hcur).2 ▸ hne))
              (fun j p hp hrun => hstill j p (hb.running hp hrun) hrun)
              (hkilled.placed hsel.table hsel.placed) h
        next =>
          cases h
          exact hsel

/-- **Signals are delivered in good states.** -/
theorem selects_ok (hok : SysOk s) (hs : s.StacksPlaced) (hallowed : e.allowed s)
    (hwrap : e.handsOut = true → s.table.nextPid + 1 < 2 ^ 64) (hplaced : e.stackPlaced)
    (h : s.selects e = some (view, s₀)) : Selected s₀ := by
  cases e with
  | irq rsp input frames =>
    have hin := (processInput_changes (s := s) input).steady
    have hok₁ := hin.ok hok
    rw [System.selects] at h
    split at h
    next => cases h
    next i q hcur =>
      have hi := current_slot hcur
      have hpid := (ProcessTable.find_some hcur).2
      refine lastSelected_ok (hok₁.table.put hi ?_ fun _ => ?_)
        (put_still hok₁.table (hpid ▸ hok₁.only) hi ?_) ((hin.placed hs).put hi ?_ ?_) h
      · rfl
      · exact .inl rfl
      · nofun
      · rfl
      · rfl
  | syscall saved call frames =>
    have hok₀ : SysOk { s with syscallState := saved } := ⟨hok.table, hok.runs, hok.only⟩
    rw [System.selects] at h
    split at h
    next => cases h
    next s₁ rc hrun =>
      have hh := syscallHandler_handled hok₀ hallowed hwrap hrun
      have hs₁ : s₁.StacksPlaced :=
        stacks_invariant.handler hok₀ hallowed hs hwrap (fun _ _ _ => hplaced) hrun
      split at h
      next => cases h
      next i q hcur =>
        split at h
        next =>
          obtain ⟨hi, hpid⟩ := ProcessTable.find_some hcur
          refine lastSelected_ok (hh.table.put hi ?_ fun h2 => ?_)
            (put_still (s := { s₁ with shouldSchedule := false }) hh.table (hpid ▸ hh.only) hi ?_)
            (System.StacksPlaced.put (s := { s₁ with shouldSchedule := false }) hs₁ hi ?_ ?_) h
          · rfl
          · exact absurd (hpid.symm.trans h2) hh.notIdle
          · dsimp only
            split
            · nofun
            · assumption
          · rfl
          · rfl
        next => cases h

/-- Signals are delivered in good states, in every run from boot. -/
theorem run_selected {b : BootImage} (hb : StackPlaced (b.init.userRsp - 0x1000)) (ttyVnode : Vnode)
    {es : List Event}
    (hrun : Run (fun s e s' => Step s e s' ∧ e.stackPlaced) (startScheduler (spawnInit b ttyVnode))
      es s)
    (hallowed : e.allowed s) (hplaced : e.stackPlaced)
    (hpids : (es ++ [e]).countP Event.handsOut < 2 ^ 64 - 3)
    (h : s.selects e = some (view, s₀)) : Selected s₀ := by
  rw [List.countP_append, List.countP_singleton] at hpids
  obtain ⟨hok₀, hnext₀⟩ := boot_ok b ttyVnode
  obtain ⟨hok, hnext⟩ := boot_run_ok b ttyVnode (hrun.mono fun _ _ _ h => h.1) (by omega)
  have hs : s.StacksPlaced := by
    refine stacks_invariant.run hok₀ (boot_stacks hb ttyVnode) (hrun.mono ?_) (by omega)
    rintro t e u ⟨hstep, hplaced⟩
    refine ⟨hstep, ?_⟩
    rintro saved call frames rfl - -
    exact hplaced
  refine selects_ok hok hs hallowed (fun he => ?_) hplaced h
  rw [if_pos he] at hpids
  omega

theorem scan_enter {rsp : ℕ} {q : Process} {ignored : List (Fin 32)} {result : Outcome}
    {l : List (Fin 32)} {sig : Fin 32} {handler : BitVec 64}
    (hresult : ∀ sig handler, result ≠ .enter sig handler)
    (h : (scan (some rsp) q ignored result l).outcome = .enter sig handler) :
    (scan (some rsp) q ignored result l).proc.inSignal = true ∧
      (scan (some rsp) q ignored result l).proc.sigframeRsp =
        (rsp + 2 ^ 64 - sigframeSize) % 2 ^ 64 ∧
      (q.stackLow + sigframeSize) % 2 ^ 64 ≤ rsp := by
  obtain ⟨userRsp, hu⟩ : ∃ userRsp, userRsp = some rsp := ⟨_, rfl⟩
  rw [← hu] at h ⊢
  fun_induction scan userRsp q ignored result l with
  | case1 => exact absurd h (hresult sig handler)
  | case2 q ignored result sig' rest hclear ih => exact ih hresult h
  | case3 q ignored result sig' rest hpend hign ih => exact ih hresult h
  | case4 => cases h
  | case5 q ignored result sig' rest hpend hign hdfl hfatal ih => exact ih hresult h
  | case6 q ignored result sig' rest hpend hign hdfl hnone ih =>
    rw [hu] at hnone
    cases hnone
  | case7 => cases h
  | case8 q ignored result sig' rest hpend hign hdfl rsp' hsome hroom =>
    rw [hu] at hsome
    cases hsome
    exact ⟨rfl, rfl, not_lt.mp hroom⟩

/-- **A handler is entered**: the process that was selected was in no handler and now is, with its
signal frame below its stack pointer and above 0. -/
theorem deliver_entered (hs : Selected s) {sig : Fin 32} {handler saved : BitVec 64} {rsp : ℕ}
    (hview : view.userRsp < 2 ^ 64)
    (h : deliverPendingSignals s.currentPid view s = .ok (s', .entered sig handler rsp saved)) :
    ∃ i q q', s.current = some (i, q) ∧ q.inSignal = false ∧ q'.pid = q.pid ∧
      q'.inSignal = true ∧ q'.sigframeRsp = rsp ∧ s'.table.slots i = some q' ∧
      rsp + sigframeSize = view.userRsp ∧ 0 < rsp := by
  unfold deliverPendingSignals at h
  split at h
  next => cases h
  next hpid =>
  split at h
  next => cases h
  next i q hcur =>
    obtain ⟨hi, hqpid⟩ := ProcessTable.find_some hcur
    split at h
    next => cases h
    split at h
    next =>
      split at h
      next => split at h <;> cases h
      next => cases h
    next hidle =>
      split at h
      next => cases h
      dsimp only at h
      split at h
      next => split at h <;> cases h
      next sig' handler' hout =>
        cases h
        obtain ⟨hin, hframe, hroom⟩ := scan_enter (by nofun) hout
        have hlow := hs.placed i q hi fun h2 => hpid (.inr (hqpid.symm.trans h2))
        rw [StackPlaced, sigframeSize] at hlow
        rw [sigframeSize] at hframe hroom ⊢
        rw [Nat.mod_eq_of_lt hlow.2] at hroom
        refine ⟨i, q, _, hcur, by simpa using hidle, (scan_only signals).pid_eq, hin, rfl,
          ProcessTable.put_same, ?_, ?_⟩ <;> rw [hframe] <;> omega
      next => cases h

end Delivery

/-! ### Return -/

/-- The words of user memory at `rsp`, where a signal frame is. -/
def frameWords (user : ℕ → BitVec 64) (rsp : ℕ) : Fin 20 → BitVec 64 := fun j => user (rsp + 8 * j)

section Return

variable {s₀ s₁ s₂ s₃ s₄ : System} {f : InterruptFrame} {sig : Fin 32} {handler mask : BitVec 64}
  {rsp : ℕ} {es : List Event} {saved : SyscallSavedState}

/-- The process in the handler is resumed. -/
theorem resume_inHandler (hs : Selected s₀)
    (hdeliver : deliverPendingSignals s₀.currentPid f.view s₀ =
      .ok (s₁, .entered sig handler rsp mask))
    (hresume : s₁.resume = .ok s₂) : SysOk s₂ ∧ s₂.InHandler s₀.currentPid rsp ∧ 0 < rsp := by
  obtain ⟨i, q, q', hcur, -, hpid, hin, hframe, hi', -, hpos⟩ :=
    deliver_entered hs (BitVec.isLt f.userRsp) hdeliver
  obtain ⟨hi, hqpid⟩ := ProcessTable.find_some hcur
  rcases deliver_cases hdeliver with ⟨-, hch, hsame⟩ | ⟨c, hd, -⟩
  · have hsteady := hch.steady
    have ht₁ := hsteady.tableOk hs.table
    obtain ⟨s₂', hres, hok, hnext⟩ :=
      resume_ok ht₁ (hsteady.still hs.still) (hsteady.present hs.present)
    rw [hresume] at hres
    cases hres
    refine ⟨hok, ⟨?_, ?_⟩, hpos⟩
    · rw [hnext, hsteady.nextPid, ← hqpid]
      exact hs.table.below i q hi
    · have hall : ∀ j r, s₁.table.slots j = some r → r.pid = s₀.currentPid →
          r.inSignal = true ∧ r.sigframeRsp = rsp := by
        intro j r hr hrpid
        obtain ⟨rfl, rfl⟩ := ht₁.eq_of_pid hr hi' (hrpid.trans (hpid.trans hqpid).symm)
        exact ⟨hin, hframe⟩
      unfold System.resume at hresume
      split at hresume
      next => cases hresume
      next k p hk =>
        cases hresume
        intro j r hr hrpid
        rcases slots_put_some hr with ⟨rfl, rfl⟩ | ⟨-, hr⟩
        · exact .inr (hall j p (current_slot hk) hrpid)
        · exact .inr (hall j r hr hrpid)
  · cases hd

/-- **`sigreturn` undoes delivery.**  The scheduler selects a process and enters a handler for it, with
the frame `f` to be restored; the process is resumed, and any processes run until it calls
`sys_sigreturn`, without having left the handler otherwise.  If the signal frame is as it was
written, the frame that `.exit_or_block` then hands to `scheduler_switch_exit` has the registers, the
instruction pointer, the stack pointer and the flags of `f`, and the process is in no handler. -/
theorem sigreturn_restores (hs : Selected s₀)
    (hdeliver : deliverPendingSignals s₀.currentPid f.view s₀ =
      .ok (s₁, .entered sig handler rsp mask))
    (hresume : s₁.resume = .ok s₂)
    (hrun : Run (fun s e s' => Step s e s' ∧ e.staysInHandler s₀.currentPid s) s₂ es s₃)
    (hpids : s₂.table.nextPid + es.countP Event.handsOut < 2 ^ 64)
    (hback : s₃.currentPid = s₀.currentPid) (hcalled : s₄ ∈ s₃.called saved)
    (user : ℕ → BitVec 64) (huser : frameWords user rsp = signalFrame f sig mask) :
    ∃ i q s₅ rc q', s₄.current = some (i, q) ∧
      sysSigreturn (frameWords user q.sigframeRsp 19) s₄ = .ok (s₅, rc) ∧
      s₅.shouldSchedule = true ∧ s₅.current = some (i, q') ∧
      (exitOrBlock s₅.syscallState (sigreturnPending (frameWords user q.sigframeRsp) s₄)
        (BitVec.ofInt 64 rc)).SameContext f ∧
      q'.inSignal = false ∧ q'.sigframeRsp = 0 := by
  obtain ⟨hok₂, hin₂, hpos⟩ := resume_inHandler hs hdeliver hresume
  obtain ⟨hok₃, -⟩ := run_ok hok₂ (hrun.mono fun _ _ _ h => h.1) hpids
  have hin₃ : s₃.InHandler s₀.currentPid rsp := by
    refine (inHandler_invariant _ _).run hok₂ hin₂ (hrun.mono ?_) hpids
    rintro t e u ⟨hstep, hstays⟩
    refine ⟨hstep, ?_⟩
    rintro saved call frames rfl t' ht' hcur
    exact hstays ((called_changes ht').steady.currentPid.symm.trans hcur)
  have hch := called_changes hcalled
  have hok₄ : SysOk s₄ := hch.steady.ok ⟨hok₃.table, hok₃.runs, hok₃.only⟩
  have hin₄ : s₄.InHandler s₀.currentPid rsp := hch.inHandler hin₃
  obtain ⟨i, q, hcur, hi, hpid, hrunning⟩ := hok₄.current
  have hframe : q.sigframeRsp = rsp := by
    have hqpid : q.pid = s₀.currentPid := hpid.trans (hch.steady.currentPid.trans hback)
    rcases hin₄.2 i q hi hqpid with hz | ⟨-, hframe⟩
    · rw [hrunning] at hz
      cases hz
    · exact hframe
  have hne : q.sigframeRsp ≠ 0 := by omega
  obtain ⟨q', hq'⟩ : ∃ q' : Process, q' = { q with
    sigframeRsp := 0, inSignal := false, sigPending := frameWords user q.sigframeRsp 19 } := ⟨_, rfl⟩
  refine ⟨i, q, { s₄ with shouldSchedule := true }.put i q', 0, q', hcur, ?_, rfl, ?_, ?_, ?_, ?_⟩
  · rw [sysSigreturn, hcur]
    dsimp only
    rw [if_neg hne, hq']
  · have hpid' : q'.pid = q.pid := by rw [hq']
    have hfind := (hok₄.table.put_role hi hpid' (by rw [hq'])).find_eq ProcessTable.put_same
    rwa [hpid', hpid] at hfind
  · have hpending : sigreturnPending (frameWords user q.sigframeRsp) s₄ =
        some (sigreturnFrame (signalFrame f sig mask)) := by
      rw [sigreturnPending, hcur]
      dsimp only
      rw [if_neg hne, hframe, huser]
    rw [hpending]
    exact exitOrBlock_signalFrame _ _ f sig mask
  · rw [hq']
  · rw [hq']

/-- The frame of the interrupted process in the witness below. -/
def usr1Frame : InterruptFrame := buildInitFrame 0x2000000#64 0x3000#64 1#64

/-- Init is interrupted with `SIGUSR1` pending, changes its break in the handler, and returns. -/
theorem sigreturn_restores_usr1 :
    ∃ s₀ s₁ s₂ s₃ s₄ sig handler rsp mask, Selected s₀ ∧
      deliverPendingSignals s₀.currentPid usr1Frame.view s₀ =
        .ok (s₁, .entered sig handler rsp mask) ∧
      s₁.resume = .ok s₂ ∧
      Run (fun s e s' => Step s e s' ∧ e.staysInHandler s₀.currentPid s) s₂
        [.syscall ⟨0#64, 0#64, 0#64⟩ (.setBreak 0x5001000 0 0) fun _ => ⟨true, 0x3000⟩] s₃ ∧
      s₄ ∈ s₃.called ⟨0#64, 0#64, 0#64⟩ ∧
      ∃ user i q s₅ rc q', s₄.current = some (i, q) ∧
        sysSigreturn (frameWords user q.sigframeRsp 19) s₄ = .ok (s₅, rc) ∧
        s₅.shouldSchedule = true ∧ s₅.current = some (i, q') ∧
        (exitOrBlock s₅.syscallState (sigreturnPending (frameWords user q.sigframeRsp) s₄)
          (BitVec.ofInt 64 rc)).SameContext usr1Frame ∧
        q'.inSignal = false ∧ q'.sigframeRsp = 0 := by
  have hseen : ((List.foldlM System.next
      (startScheduler (spawnInit ⟨⟨0, 0, 0x3000, 0⟩, 0, 0, 0, 0⟩ ⟨0, none, true⟩)) usr1Events).bind
      fun s => (s.selects (.irq 0 [] fun _ => usr1Frame.view)).bind
      fun r => (deliverPendingSignals r.2.currentPid usr1Frame.view r.2).toOption.bind
      fun p => p.1.resume.toOption.bind
      fun s₂ => (s₂.next (.syscall ⟨0#64, 0#64, 0#64⟩ (.setBreak 0x5001000 0 0)
        fun _ => ⟨true, 0x3000⟩)).bind
      fun s₃ => (s₃.called ⟨0#64, 0#64, 0#64⟩).map
      fun _ => (p.2 matches .entered .., s₂.table.nextPid,
        decide (s₃.currentPid = r.2.currentPid))) = some (true, 3, true) := by decide +kernel
  obtain ⟨s, hrun, hseen⟩ := Option.bind_eq_some_iff.mp hseen
  obtain ⟨⟨view, s₀⟩, hsel, hseen⟩ := Option.bind_eq_some_iff.mp hseen
  obtain ⟨⟨s₁, d⟩, hdeliver, hseen⟩ := Option.bind_eq_some_iff.mp hseen
  obtain ⟨s₂, hresume, hseen⟩ := Option.bind_eq_some_iff.mp hseen
  obtain ⟨s₃, hstep, hseen⟩ := Option.bind_eq_some_iff.mp hseen
  obtain ⟨s₄, hcalled, hseen⟩ := Option.map_eq_some_iff.mp hseen
  obtain ⟨hd, hseen⟩ := Prod.mk.inj hseen
  obtain ⟨hnext, hback⟩ := Prod.mk.inj hseen
  have hselected : Selected s₀ := by
    refine run_selected (b := ⟨⟨0, 0, 0x3000, 0⟩, 0, 0, 0, 0⟩)
      (e := .irq 0 [] fun _ => usr1Frame.view) (by decide) ⟨0, none, true⟩
      ((Run.of_foldlM hrun).restrict ?_) trivial trivial (by decide) hsel
    simp [usr1Events, Event.stackPlaced, Call.stackPlaced]
  cases d with
  | unchanged => cases hd
  | killed => cases hd
  | entered sig handler rsp mask =>
    have hdeliver' := eq_ok_of_toOption hdeliver
    have hresume' := eq_ok_of_toOption hresume
    have hrun' : Run (fun s e s' => Step s e s' ∧ e.staysInHandler s₀.currentPid s) s₂
        [.syscall ⟨0#64, 0#64, 0#64⟩ (.setBreak 0x5001000 0 0) fun _ => ⟨true, 0x3000⟩] s₃ :=
      .single ⟨hstep, fun _ => rfl⟩
    have huser : frameWords (fun a => signalFrame usr1Frame sig mask (Fin.ofNat 20 ((a - rsp) / 8)))
        rsp = signalFrame usr1Frame sig mask := by
      funext j
      simp [frameWords]
    exact ⟨s₀, s₁, s₂, s₃, s₄, sig, handler, rsp, mask, hselected, hdeliver', hresume', hrun',
      hcalled, _, sigreturn_restores hselected hdeliver' hresume' hrun' (by rw [hnext]; decide)
        (of_decide_eq_true hback) hcalled _ huser⟩

end Return

end Vibix.Proc
