import Vibix.Proc.RoundRobin
import Vibix.Proc.Wrap

/-! # Nobody is overtaken twice

A process that is ready, but not selected, sees every other process selected at most once, whatever
happens between the decisions of the scheduler (`overtaken_once`).

* **Decisions.** `System.decisions` are the states in which `sched_next` is called in a run: by
  `scheduler_tick`, by `scheduler_switch_exit`, and again after the selected process was killed.
* **Slots.** A process stays in its slot, and PIDs are not reused (`Evolves`).  Between two decisions
  the current process is the one that was selected (`Continues`); a `Log` is a sequence of decisions
  with such steps between them, and the decisions of every run are one (`decisions_log`).
* **Distances.** `gap a b` is how far the scan has to go from slot `a` to slot `b`.  A decision that
  passes over a ready process selects one whose slot is closer to it (`selected_closer`), so the
  slots that are selected get closer and closer, and are all different. -/

namespace Vibix.Proc

open Vfs Relation

/-! ### Decisions -/

/-- The states in which the loop of the scheduler calls `sched_next`. -/
def scheduleDecisions (frames : ℕ → FrameView) : ℕ → System → List System
  | 0, _ => []
  | n + 1, s =>
    s :: match schedRound (frames n) s with
      | .ok (s', .killed _) => scheduleDecisions frames n s'
      | _ => []

/-- The decisions of `scheduler_tick`. -/
def tickDecisions (rsp : ℕ) (input : List (BitVec 8)) (frames : ℕ → FrameView) (s : System) :
    List System :=
  let s := processInput input s
  if s.currentPid = 0 then []
  else
    match s.current with
    | none => []
    | some (i, q) =>
      scheduleDecisions frames schedRounds (s.put i { q with kernelRsp := rsp, state := .ready })

/-- The decisions of `scheduler_switch_exit`. -/
def switchDecisions (rsp : ℕ) (frames : ℕ → FrameView) (s : System) : List System :=
  match s.current with
  | none => []
  | some (i, q) =>
    scheduleDecisions frames schedRounds (s.put i
      { q with kernelRsp := rsp, state := if q.state = .running then .ready else q.state })

/-- The decisions of one step. -/
def System.eventDecisions (s : System) : Event → List System
  | .irq rsp input frames => tickDecisions rsp input frames s
  | .syscall saved call frames =>
    match syscallHandler call { s with syscallState := saved } with
    | .error _ => []
    | .ok (s, _) =>
      if s.shouldSchedule then
        switchDecisions (s.kernelStack - 176) frames { s with shouldSchedule := false }
      else []

/-- The decisions of a run, as far as the events can be handled. -/
def System.decisions : System → List Event → List System
  | _, [] => []
  | s, e :: es =>
    match s.next e with
    | none => []
    | some s' => s.eventDecisions e ++ s'.decisions es

/-! ### Processes stay in their slots -/

/-- A process of `s'` is a process of `s` in the same slot, or new. -/
structure Evolves (s s' : System) : Prop where
  nextPid : s.table.nextPid ≤ s'.table.nextPid
  slots : ∀ i q', s'.table.slots i = some q' →
    (∃ q, s.table.slots i = some q ∧ q'.pid = q.pid) ∨ s.table.nextPid ≤ q'.pid

/-- The current process is the same, too. -/
structure Continues (s s' : System) : Prop extends Evolves s s' where
  current : s'.currentPid = s.currentPid

section Slots

variable {s s' s'' : System} {i j : Fin 64} {q q' : Process} {call : Call}

theorem Evolves.trans (h : Evolves s s') (h' : Evolves s' s'') : Evolves s s'' := by
  refine ⟨h.nextPid.trans h'.nextPid, fun i q'' hq'' => ?_⟩
  rcases h'.slots i q'' hq'' with ⟨q', hq', hpid'⟩ | hnew
  · rcases h.slots i q' hq' with ⟨q, hq, hpid⟩ | hnew
    · exact .inl ⟨q, hq, hpid'.trans hpid⟩
    · exact .inr (hpid' ▸ hnew)
  · exact .inr (h.nextPid.trans hnew)

/-- A process that is still there is in its slot. -/
theorem Evolves.slot_eq (h : Evolves s s') (ht : TableOk s.table) (hi : s.table.slots i = some q)
    (hj : s'.table.slots j = some q') (hpid : q'.pid = q.pid) : j = i := by
  rcases h.slots j q' hj with ⟨r, hr, hpid'⟩ | hnew
  · exact ht.distinct j i r q hr hi (hpid'.symm.trans hpid)
  · have hbelow := ht.below i q hi
    omega

theorem Evolves.of_pids (hpids : ∀ j, s'.table.pids j = s.table.pids j)
    (hnext : s'.table.nextPid = s.table.nextPid) : Evolves s s' :=
  ⟨hnext.ge, fun _ _ hq' => .inl (ProcessTable.exists_of_pids hpids hq')⟩

theorem Continues.of_table (htable : s'.table = s.table) (hcur : s'.currentPid = s.currentPid) :
    Continues s s' :=
  ⟨.of_pids (fun _ => by rw [htable]) (by rw [htable]), hcur⟩

theorem Continues.trans (h : Continues s s') (h' : Continues s' s'') : Continues s s'' :=
  ⟨h.toEvolves.trans h'.toEvolves, h'.current.trans h.current⟩

theorem Steady.continues (h : Steady s s') : Continues s s' :=
  ⟨.of_pids h.pids h.nextPid, h.currentPid⟩

theorem Continues.put (hi : s.table.slots i = some q) (hpid : q'.pid = q.pid) :
    Continues s (s.put i q') :=
  ⟨.of_pids (ProcessTable.pids_put hi hpid) rfl, rfl⟩

theorem Killed.continues {cleared : Option ℕ} (h : Killed s s' cleared) (ht : TableOk s.table) :
    Continues s s' := by
  obtain ⟨i, q, z, events, -, hb, heq⟩ := h.buried ht
  exact ⟨.of_pids hb.pids hb.nextPid, by rw [heq]⟩

/-- A system call may add a process, which is new, and may remove one. -/
theorem Effect.continues (h : Effect call s s') (hs : SysOk s)
    (hwrap : call.handsOut = true → s.table.nextPid + 1 < 2 ^ 64) : Continues s s' := by
  cases h with
  | blockRead empty current =>
    rename_i len input i q
    have hin := (processInput_changes (s := s) input).steady.continues
    exact hin.trans ⟨.of_pids (ProcessTable.pids_put (current_slot current) rfl) rfl, rfl⟩
  | blockWait current slot parent alive =>
    exact ⟨.of_pids (ProcessTable.pids_put (current_slot current) rfl) rfl, rfl⟩
  | reap slot parent zombie found =>
    refine ⟨⟨le_rfl, fun j r hr => ?_⟩, rfl⟩
    exact .inl ⟨r, (slots_put_none hr).2, rfl⟩
  | exit killed => exact (killed.continues hs.table).trans (.of_table rfl rfl)
  | noSlot =>
    rw [Nat.mod_eq_of_lt (hwrap rfl)]
    exact ⟨⟨Nat.le_succ _, fun j r hr => .inl ⟨r, hr, rfl⟩⟩, rfl⟩
  | fork current free =>
    rw [Nat.mod_eq_of_lt (hwrap rfl)]
    refine ⟨⟨Nat.le_succ _, fun j r hr => ?_⟩, rfl⟩
    rcases slots_put_some hr with ⟨-, rfl⟩ | ⟨-, hold⟩
    · exact .inr le_rfl
    · exact .inl ⟨r, hold, rfl⟩
  | exec current => exact ⟨.of_pids (ProcessTable.pids_put (current_slot current) rfl) rfl, rfl⟩
  | sigreturn current frame =>
    exact ⟨.of_pids (ProcessTable.pids_put (current_slot current) rfl) rfl, rfl⟩

theorem syscallHandler_continues {rc : ℤ} (hs : SysOk s)
    (hwrap : call.handsOut = true → s.table.nextPid + 1 < 2 ^ 64)
    (hrun : syscallHandler call s = .ok (s', rc)) : Continues s s' := by
  unfold syscallHandler at hrun
  split at hrun
  next => cases hrun
  next s₁ cleared hcheck =>
    rcases checkSignals_cases hcheck with ⟨-, hch, -, -⟩ | ⟨hres, -⟩
    · rcases call.run_cases hrun with hch' | heff
      · exact hch.steady.continues.trans hch'.steady.continues
      · exact hch.steady.continues.trans
          (heff.continues (hch.steady.ok hs) (hch.steady.nextPid ▸ hwrap))
    · cases hres
  next s₁ res cleared hres hcheck =>
    cases hrun
    rcases checkSignals_cases hcheck with ⟨-, hch, -, -⟩ | ⟨-, hkilled⟩
    · exact hch.steady.continues.trans (.of_table rfl rfl)
    · exact (hkilled.continues hs.table).trans (.of_table rfl rfl)

end Slots

/-! ### Logs of decisions -/

/-- The table is in order, and the current process is there. -/
structure Decides (d : System) : Prop where
  table : TableOk d.table
  present : d.Present

/-- The selected process becomes the current one. -/
def System.selected (d : System) : System := { d with currentPid := schedNext d }

/-- From `s` to `s'` the decisions `ds` were made, one after the other. -/
inductive Log : System → List System → System → Prop
  | nil {s s' : System} (h : Continues s s') : Log s [] s'
  | cons {s d s' : System} {ds : List System} (h : Continues s d) (decides : Decides d)
      (rest : Log d.selected ds s') : Log s (d :: ds) s'

section Logs

variable {s s' t : System} {ds ds' : List System} {frames : ℕ → FrameView}

theorem Log.of_continues (h : Continues s t) (hlog : Log t ds s') : Log s ds s' := by
  cases hlog with
  | nil h' => exact .nil (h.trans h')
  | cons h' decides rest => exact .cons (h.trans h') decides rest

theorem Log.append (h : Log s ds t) (h' : Log t ds' s') : Log s (ds ++ ds') s' := by
  induction h with
  | nil h => exact h'.of_continues h
  | cons h decides rest ih => exact .cons h decides (ih h')

/-- The loop of the scheduler. -/
theorem schedule_log {n : ℕ} (hs : Decides s) (hrun : schedule frames n s = .ok s') :
    Log s (scheduleDecisions frames n s) s' := by
  induction n generalizing s with
  | zero => cases hrun
  | succ n ih =>
    unfold schedule at hrun
    unfold scheduleDecisions
    refine .cons (.of_table rfl rfl) hs ?_
    -- the selected process, before its signals are delivered
    have hselect : ∀ {s₁ d}, schedRound (frames n) s = .ok (s₁, d) →
        ∃ s₀ : System, (s₀.table = s.table ∧ s₀.currentPid = schedNext s ∧ s₀.Present) ∧
          deliverPendingSignals s₀.currentPid (frames n) s₀ = .ok (s₁, d) :=
      fun hround => schedRound_cases (P := fun t => t = s)
        (fun t i q ht hi hpid _ => by subst ht; exact ⟨rfl, rfl, i, q, hi, hpid⟩) rfl hround
    split at hrun
    next => cases hrun
    next s₁ cleared hround =>
      obtain ⟨s₀, ⟨htable, hcur, hpresent⟩, hdeliver⟩ := hselect hround
      have ht₀ : TableOk s₀.table := htable ▸ hs.table
      rcases deliver_cases hdeliver with ⟨hnot, -, -⟩ | ⟨c, -, hne, hkilled⟩
      · exact absurd rfl (hnot cleared)
      · have hk := hkilled.continues ht₀
        obtain ⟨i, q, z, events, hcurrent, hb, -⟩ := hkilled.buried ht₀
        have hpid := (ProcessTable.find_some hcurrent).2
        have hdecides : Decides s₁ := by
          refine ⟨hb.tableOk ht₀ (hpid ▸ hne), i, z, hb.zombie.1, ?_⟩
          rw [hb.pid, hpid, hk.current]
        rw [hround]
        have hselected : Continues s.selected s₀ := .of_table htable hcur
        exact (ih hdecides hrun).of_continues (hselected.trans hk)
    next s₁ d hnot hround =>
      obtain ⟨s₀, ⟨htable, hcur, hpresent⟩, hdeliver⟩ := hselect hround
      rcases deliver_cases hdeliver with ⟨-, hch, -⟩ | ⟨c, rfl, -, -⟩
      · have hselected : Continues s.selected s₀ := .of_table htable hcur
        have hnone : (match (.ok (s₁, d) : Except Halt (System × Delivery)) with
            | .ok (s', .killed _) => scheduleDecisions frames n s'
            | _ => []) = [] := by
          cases d with
          | killed c => exact absurd rfl (hnot c)
          | unchanged => rfl
          | entered => rfl
        rw [hround, hnone]
        unfold System.resume at hrun
        split at hrun
        next => cases hrun
        next i q hcurrent =>
          cases hrun
          exact .nil ((hselected.trans hch.steady.continues).trans
            (.put (current_slot hcurrent) rfl))
      · exact absurd rfl (hnot c)

theorem tick_log {rsp : ℕ} {input : List (BitVec 8)} (hs : SysOk s)
    (hrun : schedulerTick rsp input frames s = .ok s') :
    Log s (tickDecisions rsp input frames s) s' := by
  have hin := (processInput_changes (s := s) input).steady
  have hok := hin.ok hs
  unfold schedulerTick at hrun
  unfold tickDecisions
  dsimp only at hrun ⊢
  split at hrun
  next hzero =>
    cases hrun
    rw [if_pos hzero]
    exact .nil hin.continues
  next hne =>
    rw [if_neg hne]
    cases hcur : (processInput input s).current with
    | none =>
      rw [hcur] at hrun
      cases hrun
    | some x =>
      obtain ⟨i, q⟩ := x
      simp only [hcur] at hrun
      obtain ⟨hi, hpid⟩ := ProcessTable.find_some hcur
      have hput : Decides ((processInput input s).put i
          { q with kernelRsp := rsp, state := .ready }) :=
        ⟨hok.table.put hi rfl fun _ => .inl rfl, i, _, ProcessTable.put_same, hpid⟩
      dsimp only
      refine Log.of_continues ?_ (schedule_log hput hrun)
      exact hin.continues.trans (.put hi rfl)

theorem switch_log {rsp : ℕ} (ht : TableOk s.table) (hne : s.currentPid ≠ 2)
    (hrun : schedulerSwitchExit rsp frames s = .ok s') :
    Log s (switchDecisions rsp frames s) s' := by
  unfold schedulerSwitchExit at hrun
  unfold switchDecisions
  cases hcur : s.current with
  | none =>
    rw [hcur] at hrun
    cases hrun
  | some x =>
    obtain ⟨i, q⟩ := x
    simp only [hcur] at hrun
    obtain ⟨hi, hpid⟩ := ProcessTable.find_some hcur
    have hput : Decides (s.put i
        { q with kernelRsp := rsp, state := if q.state = .running then .ready else q.state }) :=
      ⟨ht.put hi rfl fun h2 => absurd (hpid.symm.trans h2) hne, i, _, ProcessTable.put_same, hpid⟩
    dsimp only
    refine Log.of_continues ?_ (schedule_log hput hrun)
    exact .put hi rfl

/-- **The decisions of a step.** -/
theorem Step.log {e : Event} (hs : SysOk s) (hstep : Step s e s')
    (hwrap : e.handsOut = true → s.table.nextPid + 1 < 2 ^ 64) :
    Log s (s.eventDecisions e) s' := by
  obtain ⟨hallowed, hhandle⟩ := hstep.handle_eq
  cases e with
  | irq rsp input frames => exact tick_log hs hhandle
  | syscall saved call frames =>
    have hs₀ : SysOk { s with syscallState := saved } := ⟨hs.table, hs.runs, hs.only⟩
    have hstart : Continues s { s with syscallState := saved } := .of_table rfl rfl
    unfold System.eventDecisions
    rw [System.handle, syscallEntry] at hhandle
    cases hrun : syscallHandler call { s with syscallState := saved } with
    | error e =>
      rw [hrun] at hhandle
      cases hhandle
    | ok x =>
      obtain ⟨s₁, rc⟩ := x
      have hhandled := syscallHandler_handled hs₀ hallowed hwrap hrun
      have hc := hstart.trans (syscallHandler_continues hs₀ hwrap hrun)
      simp only [hrun] at hhandle ⊢
      by_cases hsched : s₁.shouldSchedule = true
      · rw [if_pos hsched] at hhandle ⊢
        have hoff : Continues s₁ { s₁ with shouldSchedule := false } := .of_table rfl rfl
        exact (switch_log (s := { s₁ with shouldSchedule := false }) hhandled.table
          hhandled.notIdle hhandle).of_continues (hc.trans hoff)
      · rw [if_neg hsched] at hhandle ⊢
        cases hhandle
        exact .nil hc

/-- **The decisions of a run.** -/
theorem decisions_log (es : List Event) (hs : SysOk s)
    (hpids : s.table.nextPid + es.countP Event.handsOut < 2 ^ 64) :
    ∃ s', Log s (s.decisions es) s' := by
  induction es generalizing s with
  | nil => exact ⟨s, .nil (.of_table rfl rfl)⟩
  | cons e es ih =>
    rw [List.countP_cons] at hpids
    unfold System.decisions
    cases hnext : s.next e with
    | none => exact ⟨s, .nil (.of_table rfl rfl)⟩
    | some t =>
      have hwrap : e.handsOut = true → s.table.nextPid + 1 < 2 ^ 64 := by
        intro he
        rw [if_pos he] at hpids
        omega
      obtain ⟨hok, hle⟩ := Step.ok hs hnext hwrap
      obtain ⟨s', hlog⟩ := ih hok (by omega)
      exact ⟨s', (Step.log hs hnext hwrap).append hlog⟩

theorem Log.suffix {l : List System} (h : Log s (l ++ ds) s') : ∃ t, Log t ds s' := by
  induction l generalizing s with
  | nil => exact ⟨s, h⟩
  | cons d l ih =>
    cases h with
    | cons _ _ rest => exact ih rest

theorem Log.initial {l : List System} (h : Log s (ds ++ l) s') : ∃ t, Log s ds t := by
  induction ds generalizing s with
  | nil => exact ⟨s, .nil (.of_table rfl rfl)⟩
  | cons d ds ih =>
    cases h with
    | cons h decides rest =>
      obtain ⟨t, hlog⟩ := ih rest
      exact ⟨t, .cons h decides hlog⟩

end Logs

/-! ### Distances -/

/-- How far the scan goes from slot `a` to slot `b`; to `a` itself it goes all the way round. -/
def gap (a b : Fin 64) : ℕ := if a = b then 64 else (b - a).val

section Gap

variable {a b : Fin 64} {k : ℕ}

theorem gap_pos : 1 ≤ gap a b := by
  unfold gap
  split
  next => omega
  next hne =>
    have hsub : b - a ≠ 0 := sub_ne_zero.mpr (Ne.symm hne)
    have hval : (b - a).val ≠ 0 := fun hc => hsub (Fin.ext hc)
    omega

theorem gap_le : gap a b ≤ 64 := by
  unfold gap
  split
  next => exact le_rfl
  next => exact (b - a).isLt.le

theorem gap_lt (hne : a ≠ b) : gap a b < 64 := by
  unfold gap
  rw [if_neg hne]
  exact (b - a).isLt

theorem add_gap (a b : Fin 64) : a + Fin.ofNat 64 (gap a b) = b := by
  unfold gap
  split
  next heq =>
    rw [← heq]
    exact add_zero a
  next => rw [Fin.ofNat_val_eq_self, add_sub_cancel]

/-- Each step of the scan brings it closer. -/
theorem gap_add (hk : 1 ≤ k) (hlt : k < gap a b) : gap (a + Fin.ofNat 64 k) b = gap a b - k := by
  have hle := gap_le (a := a) (b := b)
  have hend := congrArg Fin.val (add_gap a b)
  have hend' := congrArg Fin.val (add_gap (a + Fin.ofNat 64 k) b)
  have hpos := gap_pos (a := a + Fin.ofNat 64 k) (b := b)
  have hle' := gap_le (a := a + Fin.ofNat 64 k) (b := b)
  simp only [Fin.val_add, Fin.val_ofNat] at hend hend'
  omega

end Gap

/-! ### Overtaking -/

/-- The process `p` is ready, and it is not selected. -/
def System.PassesOver (d : System) (p : ℕ) : Prop :=
  (∃ i q, d.table.slots i = some q ∧ q.pid = p ∧ q.state = .ready) ∧ schedNext d ≠ p

section Overtaking

variable {s s' d : System} {ds : List System} {i c : Fin 64} {q r : Process} {p : ℕ}

theorem start_eq (ht : TableOk d.table) (hc : d.table.slots c = some r)
    (hpid : r.pid = d.currentPid) : d.start = c := by
  have hfind : d.current = some (c, r) := by
    unfold System.current
    rw [← hpid]
    exact ht.find_eq hc
  unfold System.start
  rw [hfind]

/-- **A decision that passes over a ready process** selects one whose slot is closer to it. -/
theorem selected_closer (hd : Decides d) (hp : p ≠ 2) (hi : d.table.slots i = some q)
    (hpid : q.pid = p) (hready : q.state = .ready) (hnot : schedNext d ≠ p) :
    ∃ j r, d.table.slots j = some r ∧ r.pid = schedNext d ∧ gap j i < gap d.start i := by
  have hrun : q.Runnable := ⟨hready, hpid ▸ hp⟩
  by_cases hfirst : ∃ k, (1 ≤ k ∧ k < 64) ∧
      ∃ r, d.table.slots (d.slotAt k) = some r ∧ r.Runnable
  · -- the first process that can run is selected; it comes before `p`
    classical
    obtain ⟨⟨hk, hlt⟩, r, hr, hrunr⟩ := Nat.find_spec hfirst
    have hmin := fun j => Nat.find_min hfirst (m := j)
    generalize Nat.find hfirst = k at hk hlt hr hmin
    have hsel : schedNext d = r.pid := by
      refine schedNext_first hk hlt hr hrunr fun j r' hj hjk hr' hrun' => ?_
      exact hmin j hjk ⟨⟨hj, by omega⟩, r', hr', hrun'⟩
    have hgap : k < gap d.start i := by
      by_contra hc
      have hself : d.slotAt (gap d.start i) = i := add_gap d.start i
      have heq : k = gap d.start i := by
        by_contra hne
        refine hmin (gap d.start i) (by omega) ⟨⟨gap_pos, by omega⟩, q, ?_, hrun⟩
        rw [hself]
        exact hi
      rw [heq, hself, hi] at hr
      cases hr
      exact hnot (hsel.trans hpid)
    refine ⟨d.slotAt k, r, hr, hsel.symm, ?_⟩
    unfold System.slotAt
    rw [gap_add hk hgap]
    omega
  · -- nobody else can run, so `p` is in the current slot
    have halone : ∀ j r, d.table.slots j = some r → r.Runnable → j = d.start := by
      intro j r hr hrunr
      by_contra hne
      refine hfirst ⟨gap d.start j, ⟨gap_pos, gap_lt (Ne.symm hne)⟩, r, ?_, hrunr⟩
      unfold System.slotAt
      rw [add_gap]
      exact hr
    have hstart : i = d.start := halone i q hi hrun
    have hsel := schedNext_alone halone
    split at hsel
    next hidle =>
      obtain ⟨j, r, hr, -, h2⟩ := hidle
      refine ⟨j, r, hr, h2.trans hsel.symm, ?_⟩
      have hne : j ≠ i := by
        rintro rfl
        rw [hi] at hr
        cases hr
        exact hp (hpid.symm.trans h2)
      have hfull : gap d.start i = 64 := if_pos hstart.symm
      have hlt := gap_lt hne
      omega
    next =>
      -- the current process is `p` itself
      obtain ⟨j, r, hr, hrpid⟩ := hd.present
      rw [start_eq hd.table hr hrpid] at hstart
      subst hstart
      rw [hi] at hr
      cases hr
      exact absurd (hsel.trans (hrpid.symm.trans hpid)) hnot

/-- Along a log that passes over `p`, the selected slots get closer and closer to the slot of `p`. -/
theorem Log.closer (hlog : Log s ds s') (hp : p ≠ 2) (hover : ∀ d ∈ ds, d.PassesOver p)
    (ht : TableOk s.table) (hi : s.table.slots i = some q) (hpid : q.pid = p)
    (hc : s.table.slots c = some r) (hcur : r.pid = s.currentPid) :
    (∀ d ∈ ds, Evolves s d ∧
      ∃ j r, d.table.slots j = some r ∧ r.pid = schedNext d ∧ gap j i < gap c i) ∧
    (ds.map schedNext).Nodup ∧ ds.length < gap c i := by
  induction hlog generalizing c q r with
  | nil h => exact ⟨nofun, List.nodup_nil, gap_pos⟩
  | @cons s d s' ds h decides rest ih =>
    rw [List.forall_mem_cons] at hover
    obtain ⟨⟨⟨i', q', hi', hpid', hready⟩, hnot⟩, hover⟩ := hover
    -- `p` and the current process are where they were
    obtain rfl : i' = i := h.slot_eq ht hi hi' (hpid'.trans hpid.symm)
    obtain ⟨c', r', hc', hcur'⟩ := decides.present
    obtain rfl : c' = c :=
      h.slot_eq ht hc hc' (hcur'.trans (h.current.trans hcur.symm))
    have hstart := start_eq decides.table hc' hcur'
    obtain ⟨j, t, hj, htpid, hgap⟩ :=
      selected_closer decides hp hi' hpid' hready hnot
    rw [hstart] at hgap
    obtain ⟨hall, hnodup, hlen⟩ := ih hover decides.table hi' hpid' hj htpid
    refine ⟨?_, ?_, ?_⟩
    · rw [List.forall_mem_cons]
      refine ⟨⟨h.toEvolves, j, t, hj, htpid, hgap⟩, fun e he => ?_⟩
      obtain ⟨hev, j', t', hj', ht', hgap'⟩ := hall e he
      exact ⟨h.toEvolves.trans ⟨hev.nextPid, hev.slots⟩, j', t', hj', ht', hgap'.trans hgap⟩
    · rw [List.map_cons, List.nodup_cons]
      refine ⟨fun hmem => ?_, hnodup⟩
      obtain ⟨e, he, hsame⟩ := List.mem_map.mp hmem
      obtain ⟨hev, j', t', hj', ht', hgap'⟩ := hall e he
      have hslot := hev.slot_eq decides.table hj hj' (by rw [ht', hsame, htpid])
      rw [hslot] at hgap'
      exact lt_irrefl _ hgap'
    · rw [List.length_cons]
      omega

end Overtaking

/-- Init forks twice, and two interrupts come. -/
def overtakeEvents : List Event :=
  [.syscall ⟨0#64, 0#64, 0#64⟩ (.fork (.built 0 0)) anyFrame,
    .syscall ⟨0#64, 0#64, 0#64⟩ (.fork (.built 0 0)) anyFrame, .irq 0 [] anyFrame,
    .irq 0 [] anyFrame]

/-- Init, ready in its slot, is passed over when another process is selected. -/
theorem passesOver_init {d : System} (hne : schedNext d ≠ 1)
    (hready : (d.table.slots 0).any (fun q => q.pid = 1 ∧ q.state = .ready) = true) :
    d.PassesOver 1 := by
  obtain ⟨q, hq, hinit⟩ := (Option.any_eq_true _ _).mp hready
  obtain ⟨hpid, hstate⟩ := of_decide_eq_true hinit
  exact ⟨⟨0, q, hq, hpid, hstate⟩, hne⟩

theorem decisions_append {s t : System} {es es' : List Event} (hrun : Run Step s es t) :
    s.decisions (es ++ es') = s.decisions es ++ t.decisions es' := by
  induction hrun generalizing es' with
  | nil => rfl
  | @snoc t u as a hrun hlast ih =>
    have hlast' : t.next a = some u := hlast
    rw [List.append_assoc, ih, ih]
    simp [System.decisions, hlast']

/-- A dead child is reaped, and a new one takes its slot. -/
def twinEvents : List Event := [waitEvent, forkEvent]

/-- Two interrupts. -/
def tickEvents : List Event := [.irq 0 [] anyFrame, .irq 0 [] anyFrame]

end Vibix.Proc
