import Vibix.Proc.Wake
import Vibix.Proc.Waits

/-! # Who is woken by the end of a child

`mark_zombie` wakes the parent of a process that ends if the parent is blocked and the PID that it
waits for is that of the process, and clears the result of the system call in the parent's frame.  The
parent should be blocked in `waitpid` for this process then (`WakesWaiter`).  But a parent that was
woken from `waitpid` by a signal keeps the PID that it waited for, and if it blocks in a read from the
terminal next, the end of the child wakes it from that (`exit_wakes_reader`).

As long as nobody blocks in a read while the child that it waits for, or did, is alive
(`ReadsSettled`), the end of a process wakes its parent from the wait for it only
(`exit_wakes_waiter`). -/

namespace Vibix.Proc

open Vfs Relation

/-- In a step from `s`, under the record `g`, a process is terminated: `mark_zombie` is called for the
current process of a state, which it leads to another, and a word may be cleared.  The first argument
is the record at that time. -/
inductive Terminates (g : Waits) (s : System) : Event → Waits → System → System → Option ℕ → Prop
  /-- A signal, on entry to a system call. -/
  | entry {saved : SyscallSavedState} {call : Call} {frames : ℕ → FrameView} {s' : System}
      {cleared : Option ℕ}
      (check : checkSignalsSyscall { s with syscallState := saved } = .ok (s', .terminated, cleared)) :
      Terminates g s (.syscall saved call frames) g { s with syscallState := saved } s' cleared
  | exit {saved : SyscallSavedState} {code : ℕ} {frames : ℕ → FrameView} {s₁ s' : System}
      {cleared : Option ℕ} (runs : s.called saved = some s₁)
      (exits : sysExit code s₁ = .ok (s', cleared)) :
      Terminates g s (.syscall saved (.exit code) frames) g s₁ s' cleared
  /-- A signal, that the scheduler delivers after the call. -/
  | delivery {e : Event} {t u u' : System} {view : FrameView} {cleared : Option ℕ}
      (starts : s.scheduling e = some t) (delivers : Delivers e.frames schedRounds t view u)
      (killed : deliverPendingSignals u.currentPid view u = .ok (u', .killed cleared)) :
      Terminates g s e (g.after s e) u u' cleared

/-- A termination of the current process wakes only a process that is blocked in `waitpid` for it, and
clears only the result of that call. -/
structure WakesWaiter (g : Waits) (s s' : System) (cleared : Option ℕ) : Prop where
  wakes : ∀ j p, s.table.slots j = some p → p.state = .blocked →
    s'.table.slots j = some p ∨ g j = some (.child s.currentPid)
  clears : ∀ w ∈ cleared, ∃ j p, s.table.slots j = some p ∧ p.state = .blocked ∧ p.kernelRsp = w ∧
    g j = some (.child s.currentPid)

/-- Nobody blocks in a read while the child that it waits for, or did, is alive. -/
def ReadsSettled (b : Blocking) : Prop := b.wait = .input → ¬ b.sys.ChildAlive b.proc

instance : DecidablePred ReadsSettled :=
  fun b => inferInstanceAs (Decidable (b.wait = .input → ¬ b.sys.ChildAlive b.proc))

/-- A blocked process with a child alive under the PID that it waits for is blocked in that wait. -/
structure WaitsOk (g : Waits) (s : System) : Prop where
  below : ∀ i q, s.table.slots i = some q → q.waitForPid < s.table.nextPid
  waits : ∀ i q, s.table.slots i = some q → q.state = .blocked → s.ChildAlive q →
    g i = some (.child q.waitForPid)

section Preserved

variable {g : Waits} {s s' : System} {i : Fin 64} {q q' : Process}

theorem Steady.childAlive_back (h : Steady s s') (hm : q.Moved q') (hc : s'.ChildAlive q') :
    s.ChildAlive q := by
  obtain ⟨j, c', hj, hpid, hparent, halive⟩ := hc
  obtain ⟨c, hc, hcm⟩ := h.backward hj
  refine ⟨j, c, hc, ?_, ?_, fun hz => halive (hcm.zombie_iff.mpr hz)⟩
  · rw [← hcm.pid, ← hm.waitForPid, hpid]
  · rw [← hcm.parentPid, ← hm.pid, hparent]

theorem Steady.waitsOk (h : Steady s s') (hs : WaitsOk g s) : WaitsOk g s' := by
  constructor
  · intro i q' hq'
    obtain ⟨q, hq, hm⟩ := h.backward hq'
    rw [hm.waitForPid, h.nextPid]
    exact hs.below i q hq
  · intro i q' hq' hb hc
    obtain ⟨q, hq, hm⟩ := h.backward hq'
    rw [hm.waitForPid]
    exact hs.waits i q hq (hm.blocked hb) (h.childAlive_back hm hc)

/-- A child that is alive after a process has changed was alive before. -/
theorem childAlive_put {r : Process} (hi : s.table.slots i = some q) (hpid : q'.pid = q.pid)
    (hparent : q'.parentPid = q.parentPid) (hzombie : q.state = .zombie → q'.state = .zombie)
    (hc : (s.put i q').ChildAlive r) : s.ChildAlive r := by
  obtain ⟨j, c, hj, hcpid, hcparent, halive⟩ := hc
  rcases slots_put_some hj with ⟨rfl, rfl⟩ | ⟨-, hold⟩
  · exact ⟨j, q, hi, hpid ▸ hcpid, hparent ▸ hcparent, fun hz => halive (hzombie hz)⟩
  · exact ⟨j, c, hold, hcpid, hcparent, halive⟩

/-- A process changes; if it is blocked then, it is in the wait that is recorded. -/
theorem WaitsOk.put {g' : Waits} (hs : WaitsOk g s) (hi : s.table.slots i = some q)
    (hpid : q'.pid = q.pid) (hparent : q'.parentPid = q.parentPid)
    (hzombie : q.state = .zombie → q'.state = .zombie) (hg : ∀ j, j ≠ i → g' j = g j)
    (hbelow : q'.waitForPid < s.table.nextPid)
    (hwait : q'.state = .blocked → (s.put i q').ChildAlive q' → g' i = some (.child q'.waitForPid)) :
    WaitsOk g' (s.put i q') := by
  constructor
  · intro j r hr
    rcases slots_put_some hr with ⟨rfl, rfl⟩ | ⟨-, hold⟩
    · exact hbelow
    · exact hs.below j r hold
  · intro j r hr hb hc
    rcases slots_put_some hr with ⟨rfl, rfl⟩ | ⟨hj, hold⟩
    · exact hwait hb hc
    · rw [hg j hj]
      exact hs.waits j r hold hb (childAlive_put hi hpid hparent hzombie hc)

/-- Processes disappear or become zombies, and a process that is woken waits no more. -/
theorem Killed.waitsOk {cleared : Option ℕ} (h : Killed s s' cleared) (ht : TableOk s.table)
    (hs : WaitsOk g s) : WaitsOk g s' := by
  obtain ⟨i, q, z, events, hcur, hb, -⟩ := h.buried ht
  have hwait : z.waitForPid = q.waitForPid := (congrArg Process.waitForPid hb.role :)
  have hnext := hb.nextPid
  constructor
  · intro j r hr
    rw [hnext]
    rcases hb.backward hr with ⟨rfl, rfl⟩ | ⟨-, hold⟩ | ⟨-, p, hp, -, -, rfl⟩
    · rw [hwait]
      exact hs.below j q hb.slot
    · exact hs.below j r hold
    · exact (Nat.zero_le _).trans_lt (hs.below j p hp)
  · intro j r hr hblocked hc
    have hback : ∀ {r}, s'.ChildAlive r → s.ChildAlive r := by
      rintro r ⟨k, c, hk, hcpid, hcparent, halive⟩
      rcases hb.backward hk with ⟨rfl, rfl⟩ | ⟨-, hold⟩ | ⟨-, p, hp, hpb, -, rfl⟩
      · exact absurd hb.zombie.2 halive
      · exact ⟨k, c, hold, hcpid, hcparent, halive⟩
      · exact ⟨k, p, hp, hcpid, hcparent, by rw [hpb]; nofun⟩
    rcases hb.backward hr with ⟨rfl, rfl⟩ | ⟨-, hold⟩ | ⟨-, p, -, -, -, rfl⟩
    · rw [hb.zombie.2] at hblocked
      cases hblocked
    · exact hs.waits j r hold hblocked (hback hc)
    · cases hblocked

theorem WaitsOk.of_table (hs : WaitsOk g s) (htable : s'.table = s.table) : WaitsOk g s' := by
  constructor
  · intro i q hq
    rw [htable] at hq ⊢
    exact hs.below i q hq
  · rintro i q hq hb ⟨j, child, hj, hrest⟩
    rw [htable] at hq hj
    exact hs.waits i q hq hb ⟨j, child, hj, hrest⟩

/-- A PID is handed out. -/
theorem WaitsOk.skip (hs : WaitsOk g s) :
    WaitsOk g { s with table := { s.table with nextPid := s.table.nextPid + 1 } } :=
  ⟨fun i q hq => Nat.lt_succ_of_lt (hs.below i q hq), hs.waits⟩

/-- A process is added under the next PID, which nobody waits for. -/
theorem WaitsOk.add {oft : OpenFileTable} (hs : WaitsOk g s) (hpid : q.pid = s.table.nextPid)
    (hready : q.state ≠ .blocked) (hwait : q.waitForPid = 0) :
    WaitsOk g { s with
      table := { s.table.put i (some q) with
        nextPid := s.table.nextPid + 1, count := s.table.count + 1 }
      oft := oft } := by
  constructor
  · intro j r hr
    rcases slots_put_some hr with ⟨rfl, rfl⟩ | ⟨-, hold⟩
    · rw [hwait]
      exact Nat.succ_pos _
    · exact Nat.lt_succ_of_lt (hs.below j r hold)
  · rintro j r hr hb ⟨k, child, hk, hcpid, hrest⟩
    rcases slots_put_some hr with ⟨rfl, rfl⟩ | ⟨-, hold⟩
    · exact absurd hb hready
    · rcases slots_put_some hk with ⟨rfl, rfl⟩ | ⟨-, hk⟩
      · have hlt := hs.below j r hold
        omega
      · exact hs.waits j r hold hb ⟨k, child, hk, hcpid, hrest⟩

/-- **The effect of a system call** that does not block. -/
theorem Effect.waitsOk {call : Call} (h : Effect call s s') (hok : SysOk s)
    (hwrap : call.handsOut = true → s.table.nextPid + 1 < 2 ^ 64) (hblock : call.mayBlock = false)
    (hs : WaitsOk g s) : WaitsOk g s' := by
  -- the caller goes on running
  have hrunning : ∀ {i} {q : Process}, s.current = some (i, q) → q.state ≠ .blocked := by
    intro i q hcur hb
    rw [hok.running hcur] at hb
    cases hb
  cases h with
  | blockRead => cases hblock
  | blockWait => cases hblock
  | reap => cases hblock
  | exit killed => exact (killed.waitsOk hok.table hs).of_table rfl
  | noSlot =>
    rw [Nat.mod_eq_of_lt (hwrap rfl)]
    exact hs.skip
  | fork current free =>
    rw [Nat.mod_eq_of_lt (hwrap rfl)]
    exact hs.add rfl nofun rfl
  | exec current =>
    have hi := current_slot current
    have hbelow := hs.below _ _ hi
    have hnot := hrunning current
    refine WaitsOk.put (hs.of_table rfl) hi rfl rfl id (fun _ _ => rfl) hbelow fun hb _ => ?_
    exact absurd hb hnot
  | sigreturn current frame =>
    have hi := current_slot current
    have hbelow := hs.below _ _ hi
    have hnot := hrunning current
    refine WaitsOk.put (hs.of_table rfl) hi rfl rfl id (fun _ _ => rfl) hbelow fun hb _ => ?_
    exact absurd hb hnot

end Preserved

/-- **Steps keep the record right**, if reads are settled. -/
theorem waitsOk_tracking : Tracking WaitsOk ReadsSettled where
  keeps g :=
    { globals := fun _ _ htable _ hs => hs.of_table htable
      change := fun _ _ _ hs hch => hch.steady.waitsOk hs
      kill := fun _ _ _ ht _ hs hkilled => hkilled.waitsOk ht hs
      effect := fun _ _ _ hok _ hwrap hblock hs heff => heff.waitsOk hok hwrap hblock hs
      sched := by
        intro s i q rsp st ht hs hi hst hzombie
        obtain ⟨q', hq'⟩ : ∃ q' : Process, q' = { q with kernelRsp := rsp, state := st } := ⟨_, rfl⟩
        have hpid : q'.pid = q.pid := by rw [hq']
        have hparent : q'.parentPid = q.parentPid := by rw [hq']
        have hwait : q'.waitForPid = q.waitForPid := by rw [hq']
        have hstate : q'.state = st := by rw [hq']
        rw [← hq']
        refine hs.put hi hpid hparent (hstate ▸ hzombie) (fun _ _ => rfl) (hwait ▸ hs.below i q hi)
          fun hb hc => ?_
        have hblocked : q.state = .blocked := by
          rw [hstate] at hb
          rcases hst with h | h | h
          · rw [h] at hb
            cases hb
          · rw [h] at hb
            cases hb
          · exact h.symm.trans hb
        obtain ⟨j, child, hj, hcpid, hcparent, halive⟩ :=
          childAlive_put hi hpid hparent (hstate ▸ hzombie) hc
        rw [hwait]
        exact hs.waits i q hi hblocked
          ⟨j, child, hj, hcpid.trans hwait, hcparent.trans hpid, halive⟩ }
  reap := by
    intro g s i q oft hok hs hi hz
    constructor
    · intro j r hr
      exact hs.below j r (slots_put_none hr).2
    · rintro j r hr hb ⟨k, child, hk, hrest⟩
      exact hs.waits j r (slots_put_none hr).2 hb ⟨k, child, (slots_put_none hk).2, hrest⟩
  read := by
    rintro g s s' i q hok hs hcur rfl hsettled
    have hi := current_slot hcur
    have hrunning := hok.running hcur
    have hs₀ : WaitsOk g { s with
      tty := { s.tty with waitingPid := s.currentPid }, shouldSchedule := true } := hs.of_table rfl
    refine hs₀.put hi ?_ ?_ (fun hz => ?_) (fun j hj => ?_) (hs.below i q hi) ?_
    · rfl
    · rfl
    · rw [hrunning] at hz
      cases hz
    · exact Function.update_of_ne hj _ _
    · exact fun _ hc => absurd hc (hsettled rfl)
  wait := by
    rintro g s s' i j q child hok hs hcur hj hparent halive rfl -
    have hi := current_slot hcur
    have hrunning := hok.running hcur
    have hs₀ : WaitsOk g { s with shouldSchedule := true } := hs.of_table rfl
    refine hs₀.put hi ?_ ?_ (fun hz => ?_) (fun k hk => ?_) ?_ ?_
    · rfl
    · rfl
    · rw [hrunning] at hz
      cases hz
    · exact Function.update_of_ne hk _ _
    · exact hok.table.below j child hj
    · exact fun _ _ => Function.update_self _ _ _

section Terminations

variable {g g' : Waits} {s s' u u' : System} {cleared : Option ℕ}

/-- Whom a termination wakes. -/
theorem Killed.woken (h : Killed s s' cleared) (ht : TableOk s.table) :
    ∃ i q, s.current = some (i, q) ∧
      ((∀ j, j ≠ i → s'.table.slots j = s.table.slots j) ∧ cleared = none ∨
        ∃ j p, j ≠ i ∧ s.table.slots j = some p ∧ p.pid = q.parentPid ∧ p.state = .blocked ∧
          p.waitForPid = q.pid ∧ (∀ k, k ≠ i → k ≠ j → s'.table.slots k = s.table.slots k) ∧
          cleared = if p.kernelRsp ≠ 0 then some p.kernelRsp else none) := by
  cases h with
  | mk current signals zombie =>
    rename_i i q q' events code table
    have hi := current_slot current
    have hd := ht.distinct.congr (ProcessTable.pids_put hi signals.pid_eq)
    have hself := hd.find_eq ProcessTable.put_same
    rw [signals.pid_eq] at hself
    obtain ⟨k, r, hfind, hcases⟩ := markZombie_cases zombie
    have hsame := hself.symm.trans hfind
    cases hsame
    refine ⟨i, q, current, ?_⟩
    rcases hcases with ⟨rfl, hnone, -⟩ | ⟨j, p, hp, hb, hw, rfl, hcleared⟩
    · refine .inl ⟨fun j hj => ?_, hnone⟩
      exact (ProcessTable.put_ne hj).trans (ProcessTable.put_ne hj)
    · obtain ⟨hj, hpp⟩ := ProcessTable.find_some hp
      have hji : j ≠ i := by
        rintro rfl
        rw [ProcessTable.put_same] at hj
        cases hj
        cases hb
      have hparent : q'.parentPid = q.parentPid := (congrArg Process.parentPid signals.role_eq :)
      refine .inr ⟨j, p, hji, ?_, hpp.trans hparent, hb, hw, fun k hk hkj => ?_, hcleared⟩
      · rw [ProcessTable.put_ne hji] at hj
        exact (ProcessTable.put_ne hji).symm.trans hj
      · exact (ProcessTable.put_ne hkj).trans
          ((ProcessTable.put_ne hk).trans (ProcessTable.put_ne hk))

/-- **A termination wakes the process that waits for it**, if the record is right. -/
theorem Killed.wakesWaiter (h : Killed s s' cleared) (ht : TableOk s.table) (hs : WaitsOk g s)
    (halive : ∀ i q, s.current = some (i, q) → q.state = .running ∨ q.state = .ready) :
    WakesWaiter g s s' cleared := by
  obtain ⟨i, q, hcur, hcases⟩ := h.woken ht
  obtain ⟨hi, hpid⟩ := ProcessTable.find_some hcur
  have hself : ∀ {p}, s.table.slots i = some p → p.state ≠ .blocked := by
    intro p hp hb
    rw [hi] at hp
    cases hp
    rcases halive i q hcur with hst | hst <;> rw [hst] at hb <;> cases hb
  rcases hcases with ⟨hsame, rfl⟩ | ⟨j, p, hji, hj, hparent, hb, hw, hothers, hcleared⟩
  · refine ⟨fun j p hj hb => .inl ?_, nofun⟩
    have hji : j ≠ i := by
      rintro rfl
      exact hself hj hb
    rw [hsame j hji, hj]
  · have hchild : s.ChildAlive p := by
      refine ⟨i, q, hi, hw.symm, hparent.symm, fun hz => ?_⟩
      rcases halive i q hcur with hst | hst <;> rw [hst] at hz <;> cases hz
    have hrecord : g j = some (.child s.currentPid) := by
      rw [hs.waits j p hj hb hchild, hw, hpid]
    refine ⟨fun k r hk hrb => ?_, fun w hcl => ⟨j, p, hj, hb, ?_, hrecord⟩⟩
    · have hki : k ≠ i := by
        rintro rfl
        exact hself hk hrb
      by_cases hkj : k = j
      · subst hkj
        exact .inr hrecord
      · exact .inl ((hothers k hki hkj).trans hk)
    · rw [hcleared] at hcl
      split at hcl
      next => exact Option.some.inj hcl
      next => cases hcl

/-- The scheduler delivers the signals of a process that is ready. -/
theorem Delivers.ready {frames : ℕ → FrameView} {n : ℕ} {t : System} {view : FrameView}
    (h : Delivers frames n t view u) : ∃ i q, u.current = some (i, q) ∧ q.state = .ready := by
  induction h with
  | here found ready => exact ⟨_, _, found, ready⟩
  | next killed later ih => exact ih

theorem boot_waitsOk (b : BootImage) (ttyVnode : Vnode) :
    WaitsOk (fun _ => none) (startScheduler (spawnInit b ttyVnode)) := by
  have hs : WaitsOk (fun _ => none) (spawnInit b ttyVnode) := by
    constructor
    · intro i q hq
      rcases slots_put_some hq with ⟨rfl, rfl⟩ | ⟨-, hq⟩
      · exact Nat.succ_pos 2
      · rcases slots_put_some hq with ⟨rfl, rfl⟩ | ⟨-, hq⟩
        · exact Nat.succ_pos 2
        · cases hq
    · intro i q hq hb
      rw [(spawnInit_slots hq).1] at hb
      cases hb
  unfold startScheduler
  split
  next => exact hs
  next i q hfind =>
    have hi := (ProcessTable.find_some hfind).1
    have hbelow := hs.below i q hi
    have hready := (spawnInit_slots hi).1
    refine WaitsOk.put (hs.of_table rfl) hi rfl rfl (fun hz => ?_) (fun _ _ => rfl) hbelow nofun
    rw [hready] at hz
    cases hz

/-- **The end of a process wakes its parent from the wait for it only**, and clears the result of that
call only, in every run from boot in which nobody blocks in a read while the child that it waits for,
or did, is alive. -/
theorem exit_wakes_waiter (b : BootImage) (ttyVnode : Vnode) {es : List Event} {s : Tracked}
    (hrun : Run (TrackedStep ReadsSettled) ⟨startScheduler (spawnInit b ttyVnode), fun _ => none⟩ es s)
    {e : Event} (hallowed : e.allowed s.sys)
    (hpids : (es ++ [e]).countP Event.handsOut < 2 ^ 64 - 3)
    (hsettled : ∀ b ∈ s.sys.blocking e, ReadsSettled b)
    (h : Terminates s.waits s.sys e g u u' cleared) : WakesWaiter g u u' cleared := by
  obtain ⟨hboot, hnext₀⟩ := boot_ok b ttyVnode
  rw [List.countP_append, List.countP_singleton] at hpids
  obtain ⟨hok, hnext, hs⟩ := waitsOk_tracking.run hboot (boot_waitsOk b ttyVnode) hrun (by
    change (startScheduler (spawnInit b ttyVnode)).table.nextPid + _ < _
    omega)
  have hwrap : e.handsOut = true → s.sys.table.nextPid + 1 < 2 ^ 64 := by
    intro he
    rw [if_pos he] at hpids
    change _ ≤ (startScheduler (spawnInit b ttyVnode)).table.nextPid + _ at hnext
    omega
  cases h with
  | entry check =>
    rename_i saved call frames
    have hok₀ : SysOk { s.sys with syscallState := saved } := ⟨hok.table, hok.runs, hok.only⟩
    rcases checkSignals_cases check with ⟨hres, -⟩ | ⟨-, hkilled⟩
    · exact absurd rfl hres
    · exact hkilled.wakesWaiter hok.table (hs.of_table rfl) fun i q hcur => .inl (hok₀.running hcur)
  | exit runs exits =>
    rename_i saved code frames
    have hok₀ : SysOk { s.sys with syscallState := saved } := ⟨hok.table, hok.runs, hok.only⟩
    have hch := (called_changes runs).steady
    obtain ⟨s₁, hkilled, rfl⟩ := sysExit_killed exits
    have hok₁ := hch.ok hok₀
    have hw := hkilled.wakesWaiter hok₁.table (hch.waitsOk (hs.of_table rfl))
      fun i q hcur => .inl (hok₁.running hcur)
    exact ⟨hw.wakes, hw.clears⟩
  | delivery starts delivers killed =>
    obtain ⟨ht, hst⟩ := waitsOk_tracking.scheduling hok hs hallowed hwrap hsettled starts
    obtain ⟨htu, hsu⟩ := (waitsOk_tracking.keeps _).delivers ht hst delivers
    obtain ⟨i, q, hcur, hready⟩ := delivers.ready
    rcases deliver_cases killed with ⟨hnot, -⟩ | ⟨c, hc, -, hkilled⟩
    · exact absurd rfl (hnot cleared)
    · cases hc
      refine hkilled.wakesWaiter htu hsu fun j r hr => .inr ?_
      rw [hcur] at hr
      cases hr
      exact hready

end Terminations

/-- Init waits for its child. -/
def waitsForChild : List Event :=
  [.syscall ⟨0#64, 0#64, 0#64⟩ (.fork (.built 0 0)) fun _ => ⟨true, 0x3000⟩,
    .syscall ⟨0#64, 0#64, 0#64⟩ (.waitpid (2 ^ 64 - 1) 0) fun _ => ⟨true, 0x3000⟩]

/-- The child wakes init by a signal, and init blocks in a read. -/
def readsNext : List Event :=
  waitsForChild ++
    [.syscall ⟨0#64, 0#64, 0#64⟩ (.kill 1 1) fun _ => ⟨true, 0x3000⟩,
      .irq 0 [] fun _ => ⟨true, 0x3000⟩,
      .syscall ⟨0#64, 0#64, 0#64⟩ (.ttyRead 16 []) fun _ => ⟨true, 0x3000⟩]

/-- The child of init ends. -/
def childExits : Event :=
  .syscall ⟨0#64, 0#64, 0#64⟩ (.exit 0) fun _ => ⟨true, 0x3000⟩

/-- The states before and after `sys_exit`, when the child of init ends. -/
def System.childExit (s : System) : Option (System × System × Option ℕ) :=
  (s.called ⟨0#64, 0#64, 0#64⟩).bind fun s₁ => (sysExit 0 s₁).toOption.map fun r => (s₁, r.1, r.2)

theorem childExit_terminates {g : Waits} {s u u' : System} {cleared : Option ℕ}
    (h : s.childExit = some (u, u', cleared)) : Terminates g s childExits g u u' cleared := by
  obtain ⟨s₁, hcalled, hexit⟩ := Option.bind_eq_some_iff.mp h
  obtain ⟨r, hr, heq⟩ := Option.map_eq_some_iff.mp hexit
  cases heq
  exact .exit hcalled (eq_ok_of_toOption hr)

/-- Init is woken from the wait for its child. -/
theorem exit_wakes_waiter_child :
    ∃ s u u' cleared, Run (TrackedStep ReadsSettled) ⟨quietBoot, fun _ => none⟩ waitsForChild s ∧
      Terminates s.waits s.sys childExits s.waits u u' cleared ∧
      (u.table.slots 0).map Process.state = some .blocked ∧
      (u'.table.slots 0).map Process.state = some .ready ∧ WakesWaiter s.waits u u' cleared := by
  have hseen : ∃ s, Run (TrackedStep ReadsSettled) ⟨quietBoot, fun _ => none⟩ waitsForChild s ∧
      childExits.allowed s.sys ∧ (∀ b ∈ s.sys.blocking childExits, ReadsSettled b) ∧
      ∃ r, s.sys.childExit = some r ∧ (r.1.table.slots 0).map Process.state = some .blocked ∧
        (r.2.1.table.slots 0).map Process.state = some .ready := by
    decide +kernel
  obtain ⟨s, hrun, hallowed, hsettled, ⟨u, u', cleared⟩, hu, hbefore, hafter⟩ := hseen
  have hterm := childExit_terminates (g := s.waits) hu
  exact ⟨s, u, u', cleared, hrun, hterm, hbefore, hafter,
    exit_wakes_waiter _ _ hrun hallowed (by decide) hsettled hterm⟩

/-- **The end of a child wakes a reader**: init, woken from `waitpid` by a signal, blocks in a read,
and is woken from it when the child ends. -/
theorem exit_wakes_reader :
    ∃ s u u' cleared, Run (TrackedStep fun _ => True) ⟨quietBoot, fun _ => none⟩ readsNext s ∧
      Terminates s.waits s.sys childExits s.waits u u' cleared ∧ s.waits 0 = some .input ∧
      (u.table.slots 0).map Process.state = some .blocked ∧
      (u'.table.slots 0).map Process.state = some .ready ∧ ¬ WakesWaiter s.waits u u' cleared := by
  have hseen : ∃ s, Run (TrackedStep fun _ => True) ⟨quietBoot, fun _ => none⟩ readsNext s ∧
      s.waits 0 = some .input ∧
      ∃ r, s.sys.childExit = some r ∧ (r.1.table.slots 0).map Process.state = some .blocked ∧
        (r.2.1.table.slots 0).map Process.state = some .ready := by
    decide +kernel
  obtain ⟨s, hrun, hinput, ⟨u, u', cleared⟩, hu, hbefore, hafter⟩ := hseen
  refine ⟨s, u, u', cleared, hrun, childExit_terminates hu, hinput, hbefore, hafter, fun hw => ?_⟩
  obtain ⟨p, hp, hblocked⟩ := Option.map_eq_some_iff.mp hbefore
  rcases hw.wakes 0 p hp hblocked with hsame | hchild
  · rw [hsame, Option.map_some, hblocked] at hafter
    cases hafter
  · rw [hinput] at hchild
    cases hchild

end Vibix.Proc
