import Vibix.Proc.Safe

/-! # The first switch to init

`start_scheduler` makes init the current process and jumps to the frame that `build_init_frame` has
built for it.  Interrupts are on already, so the boot thread can be interrupted between any two of its
statements.  As long as there is no current process the interrupt returns to it.  But once init is the
current process the interrupt saves the frame of the boot thread as that of init and selects the idle
process; when the next interrupt selects init it resumes the boot thread, which then jumps to its own
frame (`startup_jumps_to_boot_frame`).

`startup_robust_iff`: the boot thread jumps to the frame of init if and only if no interrupt comes
between the statement that makes init the current process and the one that reads its frame. -/

namespace Vibix.Proc

open Vfs Relation

/-- The next statement of `start_scheduler`; `switch` is the jump, to a frame that has been read. -/
inductive StartPc where
  | setPid
  | setKstack
  | setRsp0
  | writeCr3
  | markRunning
  | readRsp
  | switch
  | switched
deriving DecidableEq

/-- Init is the current process, and its frame has not been read. -/
def StartPc.exposed : StartPc → Bool
  | .setPid | .switch | .switched => false
  | _ => true

/-- The kernel while the boot thread executes `start_scheduler`: `arg` is the frame that it has read,
and `suspended` is where its own frame is if something else runs. -/
structure Startup where
  sys : System
  pc : StartPc
  arg : Option ℕ
  suspended : Option ℕ

/-- What happens: the boot thread executes a statement, or there is an interrupt, whose frame is saved
at `rsp`. -/
inductive StartEvent where
  | run
  | irq (rsp : ℕ) (input : List (BitVec 8)) (frames : ℕ → FrameView)

namespace Startup

variable (s : Startup)

/-- A statement about init, which is in the table. -/
def withInit (f : Fin 64 → Process → Startup) : Option Startup :=
  (s.sys.table.find 1).map fun r => f r.1 r.2

/-- The boot thread executes its next statement. -/
def run : Option Startup :=
  match s.pc with
  | .setPid => some { s with sys := { s.sys with currentPid := 1 }, pc := .setKstack }
  | .setKstack => s.withInit fun _ q =>
    { s with sys := { s.sys with kernelStack := q.kernelStackTop }, pc := .setRsp0 }
  | .setRsp0 => s.withInit fun _ q =>
    { s with sys := { s.sys with kernelStack := q.kernelStackTop }, pc := .writeCr3 }
  -- the root of the page tables is not part of the state
  | .writeCr3 => s.withInit fun _ _ => { s with pc := .markRunning }
  | .markRunning => s.withInit fun i q =>
    { s with sys := s.sys.put i { q with state := .running }, pc := .readRsp }
  | .readRsp => s.withInit fun _ q => { s with arg := some q.kernelRsp, pc := .switch }
  | .switch => some { s with pc := .switched }
  | .switched => none

/-- The frame that `scheduler_tick` returns, after it has led to `t`. -/
def returned (rsp : ℕ) (t : System) : ℕ :=
  if t.currentPid = 0 then rsp
  else
    match t.current with
    | none => rsp
    | some (_, q) => q.kernelRsp

/-- An interrupt: what runs then is what was interrupted at the frame that is returned. -/
def irq (rsp : ℕ) (input : List (BitVec 8)) (frames : ℕ → FrameView) : Option Startup :=
  (schedulerTick rsp input frames s.sys).toOption.map fun t =>
    { s with
      sys := t
      suspended :=
        let frame := s.suspended.getD rsp
        if returned rsp t = frame then none else some frame }

/-- What an event leads to, until the jump.  Nothing runs on the kernel stack of init, where its
first frame is, nor on that of the boot thread while it is suspended; so no interrupt saves its frame
there. -/
def next (initFrame : ℕ) : StartEvent → Option Startup
  | .run => if s.suspended = none then s.run else none
  | .irq rsp input frames =>
    if s.pc ≠ .switched ∧ rsp ≠ initFrame ∧ s.suspended ≠ some rsp then s.irq rsp input frames
    else none

end Startup

/-- The kernel before `start_scheduler`. -/
def Startup.boot (b : BootImage) (ttyVnode : Vnode) : Startup :=
  ⟨spawnInit b ttyVnode, .setPid, none, none⟩

/-- The frame that `build_init_frame` builds for init. -/
def BootImage.initFrame (b : BootImage) : ℕ := b.initStack + kernelStackSize - 176

/-- A step during `start_scheduler`. -/
abbrev StartStep (initFrame : ℕ) (s : Startup) (e : StartEvent) (s' : Startup) : Prop :=
  s.next initFrame e = some s'

/-- The event is not an interrupt while init is exposed. -/
def StartEvent.spares (s : Startup) : StartEvent → Prop
  | .run => True
  | .irq .. => s.pc.exposed = false

/-! ### The frame of init -/

/-- The frame of init is saved at `rsp`. -/
def System.InitRsp (rsp : ℕ) (s : System) : Prop :=
  ∀ i q, s.table.slots i = some q → q.pid = 1 → q.kernelRsp = rsp

section InitRsp

variable {s s' : System} {rsp r : ℕ} {i : Fin 64} {q q' : Process}

theorem System.InitRsp.put (hs : s.InitRsp r) (hi : s.table.slots i = some q)
    (hpid : q'.pid = q.pid) (hrsp : q'.kernelRsp = q.kernelRsp) : (s.put i q').InitRsp r := by
  intro j p hp h1
  rcases slots_put_some hp with ⟨rfl, rfl⟩ | ⟨-, hold⟩
  · rw [hrsp]
    exact hs j q hi (hpid.symm.trans h1)
  · exact hs j p hold h1

theorem Steady.initRsp (h : Steady s s') (hs : s.InitRsp r) : s'.InitRsp r := by
  intro i q' hq' h1
  obtain ⟨q, hq, hm⟩ := h.backward hq'
  have hrsp : q'.kernelRsp = q.kernelRsp := (congrArg Process.kernelRsp hm.1 :)
  rw [hrsp]
  exact hs i q hq (hm.pid.symm.trans h1)

theorem Buried.initRsp {z : Process} (h : Buried s.table s'.table i q z) (hs : s.InitRsp r) :
    s'.InitRsp r := by
  intro j p hp h1
  rcases h.backward hp with ⟨rfl, rfl⟩ | ⟨-, hold⟩ | ⟨-, p', hp', -, -, rfl⟩
  · have hrsp : p.kernelRsp = q.kernelRsp := (congrArg Process.kernelRsp h.role :)
    rw [hrsp]
    exact hs j q h.slot (h.pid.symm.trans h1)
  · exact hs j p hold h1
  · exact hs j p' hp' h1

/-- The loop of the scheduler saves no frame. -/
theorem schedule_initRsp {frames : ℕ → FrameView} {n : ℕ} (ht : TableOk s.table)
    (hs : s.InitRsp r) (hrun : schedule frames n s = .ok s') :
    TableOk s'.table ∧ s'.InitRsp r := by
  refine schedule_induct (P := fun s => TableOk s.table ∧ s.InitRsp r)
    (Q := fun s => TableOk s.table ∧ s.InitRsp r)
    (R := fun s => TableOk s.table ∧ s.InitRsp r) ?_ ?_ ?_ hrun ⟨ht, hs⟩
  · exact fun s i q hP _ _ _ => hP
  · rintro s s' cleared ⟨ht, hs⟩ hne hkilled
    obtain ⟨i, q, z, events, hcur, hb, -⟩ := hkilled.buried ht
    exact ⟨hb.tableOk ht ((ProcessTable.find_some hcur).2 ▸ hne), hb.initRsp hs⟩
  · rintro s s' i q ⟨ht, hs⟩ hch hcur
    have hi := current_slot hcur
    have ht' := hch.steady.tableOk ht
    exact ⟨ht'.put hi rfl fun _ => .inr rfl, (hch.steady.initRsp hs).put hi rfl rfl⟩

/-- **`scheduler_tick`** saves the frame of the current process. -/
theorem schedulerTick_initRsp {input : List (BitVec 8)} {frames : ℕ → FrameView}
    (ht : TableOk s.table) (hs : s.InitRsp r) (hrun : schedulerTick rsp input frames s = .ok s') :
    TableOk s'.table ∧ s'.InitRsp (if s.currentPid = 1 then rsp else r) ∧
      (s.currentPid = 0 → s'.currentPid = 0) := by
  have hin := (processInput_changes (s := s) input).steady
  have ht₁ := hin.tableOk ht
  have hs₁ := hin.initRsp hs
  unfold schedulerTick at hrun
  dsimp only at hrun
  split at hrun
  next hzero =>
    cases hrun
    have hzero' : s.currentPid = 0 := hin.currentPid.symm.trans hzero
    rw [if_neg (by omega)]
    exact ⟨ht₁, hs₁, fun _ => hzero⟩
  next hne =>
    have hne' : s.currentPid ≠ 0 := hin.currentPid ▸ hne
    split at hrun
    next => cases hrun
    next i q hcur =>
      obtain ⟨hi, hpid⟩ := ProcessTable.find_some hcur
      have hput : ((processInput input s).put i { q with kernelRsp := rsp, state := .ready }).InitRsp
          (if s.currentPid = 1 then rsp else r) := by
        intro j p hp h1
        rcases slots_put_some hp with ⟨rfl, rfl⟩ | ⟨hj, hold⟩
        · have hone : s.currentPid = 1 := hin.currentPid.symm.trans (hpid.symm.trans h1)
          rw [if_pos hone]
        · rw [if_neg, hs₁ j p hold h1]
          intro hone
          refine hj (ht₁.distinct j i p q hold hi ?_)
          rw [h1, hpid, hin.currentPid, hone]
      have htable : TableOk ((processInput input s).put i
          { q with kernelRsp := rsp, state := .ready }).table := ht₁.put hi rfl fun _ => .inl rfl
      obtain ⟨ht', hs'⟩ := schedule_initRsp htable hput hrun
      exact ⟨ht', hs', fun hzero => absurd hzero hne'⟩

theorem spawnInit_initRsp (b : BootImage) (ttyVnode : Vnode) :
    (spawnInit b ttyVnode).InitRsp b.initFrame := by
  intro i q hq h1
  rcases slots_put_some hq with ⟨rfl, rfl⟩ | ⟨-, hq⟩
  · cases h1
  · rcases slots_put_some hq with ⟨rfl, rfl⟩ | ⟨-, hq⟩
    · rfl
    · cases hq

end InitRsp

/-! ### The boot thread -/

/-- The frame of init has not been lost. -/
structure Startup.Intact (frame : ℕ) (s : Startup) : Prop where
  table : TableOk s.sys.table
  noPid : s.pc = .setPid → s.sys.currentPid = 0
  initPid : s.pc.exposed = true → s.sys.currentPid = 1
  unread : s.arg = none ↔ s.pc = .setPid ∨ s.pc.exposed = true
  rsp : ∃ r, s.sys.InitRsp r ∧ (s.arg = none → r = frame)
  arg : ∀ a, s.arg = some a → a = frame

/-- The frame of init has been lost. -/
structure Startup.Lost (frame : ℕ) (s : Startup) : Prop where
  table : TableOk s.sys.table
  pid : s.pc ≠ .setPid
  unread : s.pc.exposed = true → s.arg = none
  rsp : ∃ r, s.sys.InitRsp r ∧ (s.arg = none → r ≠ frame)
  arg : ∀ a, s.arg = some a → a ≠ frame

section Boot

variable {s s' : Startup} {frame : ℕ} {b : BootImage} {ttyVnode : Vnode}

theorem withInit_some {f : Fin 64 → Process → Startup} (h : s.withInit f = some s') :
    ∃ i q, s.sys.table.slots i = some q ∧ q.pid = 1 ∧ s' = f i q := by
  obtain ⟨⟨i, q⟩, hfind, rfl⟩ := Option.map_eq_some_iff.mp h
  obtain ⟨hi, hpid⟩ := ProcessTable.find_some hfind
  exact ⟨i, q, hi, hpid, rfl⟩

/-- What a statement does: one makes init the current process, one reads its frame. -/
theorem run_cases (h : s.run = some s') :
    s'.pc ≠ .setPid ∧ (TableOk s.sys.table → TableOk s'.sys.table) ∧
      (∀ r, s.sys.InitRsp r → s'.sys.InitRsp r) ∧
      s'.sys.currentPid = (if s.pc = .setPid then 1 else s.sys.currentPid) ∧
      ((s.pc = .readRsp ∧ s'.pc = .switch ∧
          ∃ i q, s.sys.table.slots i = some q ∧ q.pid = 1 ∧ s'.arg = some q.kernelRsp) ∨
        s'.arg = s.arg ∧ (s'.pc.exposed = true ↔ s.pc = .setPid ∨ s.pc.exposed = true)) := by
  unfold Startup.run at h
  split at h
  next hpc =>
    cases h
    exact ⟨nofun, id, fun _ => id, by simp [hpc], .inr ⟨rfl, by simp [hpc, StartPc.exposed]⟩⟩
  next hpc =>
    obtain ⟨i, q, hi, hpid, rfl⟩ := withInit_some h
    exact ⟨nofun, id, fun _ => id, by simp [hpc], .inr ⟨rfl, by simp [hpc, StartPc.exposed]⟩⟩
  next hpc =>
    obtain ⟨i, q, hi, hpid, rfl⟩ := withInit_some h
    exact ⟨nofun, id, fun _ => id, by simp [hpc], .inr ⟨rfl, by simp [hpc, StartPc.exposed]⟩⟩
  next hpc =>
    obtain ⟨i, q, hi, hpid, rfl⟩ := withInit_some h
    exact ⟨nofun, id, fun _ => id, by simp [hpc], .inr ⟨rfl, by simp [hpc, StartPc.exposed]⟩⟩
  next hpc =>
    obtain ⟨i, q, hi, hpid, rfl⟩ := withInit_some h
    refine ⟨nofun, fun ht => ht.put hi rfl fun _ => .inr rfl, fun r hr => hr.put hi rfl rfl, ?_, ?_⟩
    · simp [hpc, System.put]
    · exact .inr ⟨rfl, by simp [hpc, StartPc.exposed]⟩
  next hpc =>
    obtain ⟨i, q, hi, hpid, rfl⟩ := withInit_some h
    exact ⟨nofun, id, fun _ => id, by simp [hpc], .inl ⟨hpc, rfl, i, q, hi, hpid, rfl⟩⟩
  next hpc =>
    cases h
    exact ⟨nofun, id, fun _ => id, by simp [hpc], .inr ⟨rfl, by simp [hpc, StartPc.exposed]⟩⟩
  next => cases h

/-- What an interrupt does. -/
theorem irq_cases {rsp r : ℕ} {input : List (BitVec 8)} {frames : ℕ → FrameView}
    (ht : TableOk s.sys.table) (hr : s.sys.InitRsp r) (h : s.irq rsp input frames = some s') :
    s'.pc = s.pc ∧ s'.arg = s.arg ∧ TableOk s'.sys.table ∧
      s'.sys.InitRsp (if s.sys.currentPid = 1 then rsp else r) ∧
      (s.sys.currentPid = 0 → s'.sys.currentPid = 0) := by
  obtain ⟨t, htick, rfl⟩ := Option.map_eq_some_iff.mp h
  exact ⟨rfl, rfl, schedulerTick_initRsp ht hr (eq_ok_of_toOption htick)⟩

theorem next_irq {rsp : ℕ} {input : List (BitVec 8)} {frames : ℕ → FrameView}
    (h : StartStep frame s (.irq rsp input frames) s') :
    rsp ≠ frame ∧ s.irq rsp input frames = some s' := by
  unfold StartStep Startup.next at h
  dsimp only at h
  split at h
  next hwhere => exact ⟨hwhere.2.1, h⟩
  next => cases h

theorem next_run (h : StartStep frame s .run s') : s.run = some s' := by
  unfold StartStep Startup.next at h
  dsimp only at h
  split at h
  next => exact h
  next => cases h

/-- A statement keeps the frame. -/
theorem Startup.Intact.run (hs : s.Intact frame) (h : s.run = some s') : s'.Intact frame := by
  obtain ⟨r, hr, hframe⟩ := hs.rsp
  obtain ⟨hpid, ht, hrsp, hcur, hcases⟩ := run_cases h
  rcases hcases with ⟨hpc, hpc', i, q, hi, h1, harg⟩ | ⟨harg, hexposed⟩
  · have hunread : s.arg = none := hs.unread.mpr (.inr (by rw [hpc]; rfl))
    refine ⟨ht hs.table, fun hc => absurd hc hpid, ?_, ?_, ⟨r, hrsp r hr, ?_⟩, ?_⟩
    · rw [hpc']
      nofun
    · simp [hpc', harg, StartPc.exposed]
    · rw [harg]
      nofun
    · intro a ha
      rw [harg] at ha
      cases ha
      rw [hr i q hi h1, hframe hunread]
  · refine ⟨ht hs.table, fun hc => absurd hc hpid, fun he => ?_, ?_, ⟨r, hrsp r hr, ?_⟩, ?_⟩
    · rw [hcur]
      split
      next => rfl
      next hpc => exact hs.initPid ((hexposed.mp he).resolve_left hpc)
    · rw [harg, hs.unread, hexposed]
      simp [hpid]
    · rw [harg]
      exact hframe
    · rw [harg]
      exact hs.arg

/-- An interrupt keeps the frame, unless init is exposed. -/
theorem Startup.Intact.irq {rsp : ℕ} {input : List (BitVec 8)} {frames : ℕ → FrameView}
    (hs : s.Intact frame) (h : s.irq rsp input frames = some s') (hpc : s.pc.exposed = false) :
    s'.Intact frame := by
  obtain ⟨r, hr, hframe⟩ := hs.rsp
  obtain ⟨hpc', harg, ht, hrsp, hzero⟩ := irq_cases hs.table hr h
  refine ⟨ht, fun hc => ?_, fun he => ?_, ?_, ⟨_, hrsp, fun hnone => ?_⟩, ?_⟩
  · exact hzero (hs.noPid (hpc'.symm.trans hc))
  · rw [hpc', hpc] at he
    cases he
  · rw [harg, hpc']
    exact hs.unread
  · rw [harg] at hnone
    have hstart : s.pc = .setPid := (hs.unread.mp hnone).resolve_right (by simp [hpc])
    rw [if_neg (by rw [hs.noPid hstart]; decide), hframe hnone]
  · rw [harg]
    exact hs.arg

/-- **An interrupt loses the frame** while init is exposed. -/
theorem Startup.Intact.lost {rsp : ℕ} {input : List (BitVec 8)} {frames : ℕ → FrameView}
    (hs : s.Intact frame) (h : s.irq rsp input frames = some s') (hne : rsp ≠ frame)
    (hpc : s.pc.exposed = true) : s'.Lost frame := by
  obtain ⟨r, hr, hframe⟩ := hs.rsp
  obtain ⟨hpc', harg, ht, hrsp, -⟩ := irq_cases hs.table hr h
  rw [if_pos (hs.initPid hpc)] at hrsp
  have hunread : s'.arg = none := harg.trans (hs.unread.mpr (.inr hpc))
  refine ⟨ht, fun hstart => ?_, fun _ => hunread, ⟨rsp, hrsp, fun _ => hne⟩, fun a ha => ?_⟩
  · rw [← hpc', hstart] at hpc
    cases hpc
  · rw [hunread] at ha
    cases ha

/-- A frame that is lost is not found again. -/
theorem Startup.Lost.step {e : StartEvent} (hs : s.Lost frame) (h : StartStep frame s e s') :
    s'.Lost frame := by
  obtain ⟨r, hr, hframe⟩ := hs.rsp
  cases e with
  | run =>
    obtain ⟨hpid, ht, hrsp, -, hcases⟩ := run_cases (next_run h)
    rcases hcases with ⟨hpc, hpc', i, q, hi, h1, harg⟩ | ⟨harg, hexposed⟩
    · have hunread : s.arg = none := hs.unread (by rw [hpc]; rfl)
      refine ⟨ht hs.table, hpid, ?_, ⟨r, hrsp r hr, ?_⟩, fun a ha => ?_⟩
      · rw [hpc']
        nofun
      · rw [harg]
        nofun
      · rw [harg] at ha
        cases ha
        rw [hr i q hi h1]
        exact hframe hunread
    · refine ⟨ht hs.table, hpid, fun he => ?_, ⟨r, hrsp r hr, ?_⟩, ?_⟩ <;> rw [harg]
      · exact hs.unread ((hexposed.mp he).resolve_left hs.pid)
      · exact hframe
      · exact hs.arg
  | irq rsp input frames =>
    obtain ⟨hne, hirq⟩ := next_irq h
    obtain ⟨hpc', harg, ht, hrsp, -⟩ := irq_cases hs.table hr hirq
    refine ⟨ht, hpc' ▸ hs.pid, fun he => ?_, ⟨_, hrsp, fun hnone => ?_⟩, ?_⟩
    · rw [harg]
      exact hs.unread (hpc' ▸ he)
    · split
      · exact hne
      · exact hframe (harg ▸ hnone)
    · rw [harg]
      exact hs.arg

theorem boot_intact (b : BootImage) (ttyVnode : Vnode) :
    (Startup.boot b ttyVnode).Intact b.initFrame :=
  ⟨spawnInit_tableOk b ttyVnode, fun _ => rfl, nofun, ⟨fun _ => .inl rfl, fun _ => rfl⟩,
    ⟨_, spawnInit_initRsp b ttyVnode, fun _ => rfl⟩, nofun⟩

/-- Without an interrupt while init is exposed, its frame is not lost. -/
theorem Startup.Intact.spared {e : StartEvent} (hs : s.Intact frame)
    (h : StartStep frame s e s' ∧ e.spares s) : s'.Intact frame := by
  obtain ⟨hstep, hspares⟩ := h
  cases e with
  | run => exact hs.run (next_run hstep)
  | irq rsp input frames => exact hs.irq (next_irq hstep).2 hspares

/-- A run either has no interrupt while init is exposed, or has lost its frame. -/
theorem intact_or_lost {es : List StartEvent}
    (hrun : Run (StartStep b.initFrame) (Startup.boot b ttyVnode) es s) :
    Run (fun s e s' => StartStep b.initFrame s e s' ∧ e.spares s) (Startup.boot b ttyVnode) es s ∧
        s.Intact b.initFrame ∨ s.Lost b.initFrame := by
  induction hrun with
  | nil => exact .inl ⟨.nil _, boot_intact b ttyVnode⟩
  | snoc _ hlast ih =>
    rename_i t u es e _
    rcases ih with ⟨hspared, hintact⟩ | hlost
    · cases e with
      | run => exact .inl ⟨hspared.snoc ⟨hlast, trivial⟩, hintact.run (next_run hlast)⟩
      | irq rsp input frames =>
        obtain ⟨hne, hirq⟩ := next_irq hlast
        cases hpc : t.pc.exposed with
        | false => exact .inl ⟨hspared.snoc ⟨hlast, hpc⟩, hintact.irq hirq hpc⟩
        | true => exact .inr (hintact.lost hirq hne hpc)
    · exact .inr (hlost.step hlast)

/-- **The boot thread jumps to the frame of init** if and only if no interrupt comes between the
statement that makes init the current process and the one that reads its frame. -/
theorem startup_robust_iff (b : BootImage) (ttyVnode : Vnode) {es : List StartEvent} {a : ℕ}
    (hrun : Run (StartStep b.initFrame) (Startup.boot b ttyVnode) es s)
    (harg : s.arg = some a) :
    a = b.initFrame ↔ Run (fun s e s' => StartStep b.initFrame s e s' ∧ e.spares s)
      (Startup.boot b ttyVnode) es s := by
  constructor
  · intro heq
    rcases intact_or_lost hrun with ⟨hspared, -⟩ | hlost
    · exact hspared
    · exact absurd heq (hlost.arg a harg)
  · intro hspared
    have hintact := hspared.invariant (boot_intact b ttyVnode) fun _ _ _ hs h => hs.spared h
    exact hintact.arg a harg

end Boot

/-- The statements of `start_scheduler`, without interrupts. -/
def uninterrupted : List StartEvent := List.replicate 7 .run

/-- The kernel stacks of init and of the idle process are at different places. -/
def bootStacks : BootImage := ⟨⟨0, 0, 0x3000, 0⟩, 0x10000, 0x20000, 0, 0⟩

/-- Without interrupts, the boot thread jumps to the frame of init. -/
theorem startup_robust_iff_uninterrupted :
    ∃ s, Run (StartStep bootStacks.initFrame) (Startup.boot bootStacks ⟨0, none, true⟩) uninterrupted
        s ∧ s.pc = .switched ∧ s.arg = some bootStacks.initFrame ∧
      Run (fun s e s' => StartStep bootStacks.initFrame s e s' ∧ e.spares s)
        (Startup.boot bootStacks ⟨0, none, true⟩) uninterrupted s := by
  refine Exists.imp (fun s h => ⟨h.1, h.2.1, h.2.2,
      (startup_robust_iff bootStacks ⟨0, none, true⟩ h.1 h.2.2).mp rfl⟩)
    (?_ : ∃ s, Run (StartStep bootStacks.initFrame) _ uninterrupted s ∧ s.pc = .switched ∧
      s.arg = some bootStacks.initFrame)
  decide +kernel

/-- **The boot thread jumps to its own frame**: it is interrupted when init has become the current
process, and resumed by the next interrupt. -/
theorem startup_jumps_to_boot_frame :
    ∃ s, Run (StartStep bootStacks.initFrame) (Startup.boot bootStacks ⟨0, none, true⟩)
        ([.run, .irq 0x9000 [] fun _ => ⟨true, 0x3000⟩, .irq 0x22000 [] fun _ => ⟨true, 0x3000⟩] ++
          List.replicate 6 .run) s ∧
      s.pc = .switched ∧ s.arg = some 0x9000 ∧ s.arg ≠ some bootStacks.initFrame := by
  decide +kernel

end Vibix.Proc
