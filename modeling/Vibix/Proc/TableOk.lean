import Vibix.Proc.Changes

/-! # The process table, in order

`TableOk`: the PIDs in the table are distinct, positive and below `next_pid`, the count is right, and
the idle process is there and ready or running.  `SysOk` is the invariant between steps: the table is
in order, and the current process is the one process that is running.

All elementary changes have in common that they keep every process in its role, except that they may
make a blocked process ready (`Steady`); so they keep the invariant (`Steady.ok`).  `Buried` says what
the termination of a process does to a table in which PIDs are distinct. -/

namespace Vibix.Proc

open Relation

/-- The PIDs are distinct. -/
def ProcessTable.Distinct (t : ProcessTable) : Prop :=
  ∀ i j q q', t.slots i = some q → t.slots j = some q' → q.pid = q'.pid → i = j

/-- The process table is in order. -/
structure TableOk (t : ProcessTable) : Prop where
  distinct : t.Distinct
  positive : ∀ i q, t.slots i = some q → 0 < q.pid
  below : ∀ i q, t.slots i = some q → q.pid < t.nextPid
  count : t.count = (Finset.univ.filter fun i => (t.slots i).isSome).card
  idle : ∃ i q, t.slots i = some q ∧ q.pid = 2
  idleState : ∀ i q, t.slots i = some q → q.pid = 2 → q.state = .ready ∨ q.state = .running

section Table

variable {t : ProcessTable} {i j : Fin 64} {q q' r : Process}

theorem slots_put_some (h : (t.put i (some q)).slots j = some r) :
    (j = i ∧ r = q) ∨ (j ≠ i ∧ t.slots j = some r) := by
  by_cases hj : j = i
  · subst hj
    rw [ProcessTable.put_same] at h
    exact .inl ⟨rfl, (Option.some.inj h).symm⟩
  · rw [ProcessTable.put_ne hj] at h
    exact .inr ⟨hj, h⟩

theorem slots_put_none (h : (t.put i none).slots j = some r) : j ≠ i ∧ t.slots j = some r := by
  by_cases hj : j = i
  · subst hj
    rw [ProcessTable.put_same] at h
    cases h
  · rw [ProcessTable.put_ne hj] at h
    exact ⟨hj, h⟩

/-- A process is found in its slot. -/
theorem ProcessTable.Distinct.find_eq (h : t.Distinct) (hi : t.slots i = some q) :
    t.find q.pid = some (i, q) := by
  obtain ⟨⟨j, r⟩, hfind⟩ := ProcessTable.exists_find hi rfl
  obtain ⟨hj, hpid⟩ := ProcessTable.find_some hfind
  have hij := h j i r q hj hi hpid
  subst hij
  rw [hi] at hj
  cases hj
  exact hfind

/-- The PIDs of a table, slot by slot. -/
def ProcessTable.pids (t : ProcessTable) (i : Fin 64) : Option ℕ := (t.slots i).map Process.pid

theorem ProcessTable.pids_some (hi : t.slots i = some q) : t.pids i = some q.pid := by
  rw [pids, hi, Option.map_some]

theorem ProcessTable.pids_put (hi : t.slots i = some q) (hpid : q'.pid = q.pid) (j : Fin 64) :
    (t.put i (some q')).pids j = t.pids j := by
  by_cases hj : j = i
  · subst hj
    rw [pids_some hi, pids_some put_same, hpid]
  · rw [pids, put_ne hj, pids]

/-- A process has a counterpart in a table with the same PIDs. -/
theorem ProcessTable.exists_of_pids {t' : ProcessTable} (h : ∀ j, t'.pids j = t.pids j)
    (hi : t'.slots i = some q') : ∃ q, t.slots i = some q ∧ q'.pid = q.pid := by
  have hp := h i
  rw [pids_some hi, pids, eq_comm, Option.map_eq_some_iff] at hp
  obtain ⟨q, hq, hpid⟩ := hp
  exact ⟨q, hq, hpid.symm⟩

theorem ProcessTable.Distinct.congr {t' : ProcessTable} (h : t.Distinct)
    (hp : ∀ j, t'.pids j = t.pids j) : t'.Distinct := by
  intro j k r r' hr hr' hpid
  obtain ⟨r₀, hr₀, hp₀⟩ := exists_of_pids hp hr
  obtain ⟨r₁, hr₁, hp₁⟩ := exists_of_pids hp hr'
  exact h j k r₀ r₁ hr₀ hr₁ (by rw [← hp₀, ← hp₁, hpid])

namespace TableOk

theorem find_eq (h : TableOk t) (hi : t.slots i = some q) : t.find q.pid = some (i, q) :=
  h.distinct.find_eq hi

theorem eq_of_pid (h : TableOk t) (hi : t.slots i = some q) (hj : t.slots j = some q')
    (hpid : q.pid = q'.pid) : i = j ∧ q = q' := by
  have hij := h.distinct i j q q' hi hj hpid
  subst hij
  rw [hi] at hj
  exact ⟨rfl, Option.some.inj hj⟩

/-- Tables with the same PIDs. -/
theorem congr {t' : ProcessTable} (h : TableOk t) (hp : ∀ j, t'.pids j = t.pids j)
    (hnext : t'.nextPid = t.nextPid) (hcount : t'.count = t.count)
    (hidle : ∀ j r, t'.slots j = some r → r.pid = 2 → r.state = .ready ∨ r.state = .running) :
    TableOk t' := by
  refine ⟨h.distinct.congr hp, fun j r hr => ?_, fun j r hr => ?_, ?_, ?_, hidle⟩
  · obtain ⟨r₀, hr₀, hp₀⟩ := ProcessTable.exists_of_pids hp hr
    rw [hp₀]
    exact h.positive j r₀ hr₀
  · obtain ⟨r₀, hr₀, hp₀⟩ := ProcessTable.exists_of_pids hp hr
    rw [hp₀, hnext]
    exact h.below j r₀ hr₀
  · have hsome : ∀ j, (t'.slots j).isSome = (t.slots j).isSome := by
      intro j
      rw [← Option.isSome_map (f := Process.pid), ← Option.isSome_map (f := Process.pid)]
      exact congrArg Option.isSome (hp j)
    simp only [hcount, h.count, hsome]
  · obtain ⟨j, r, hr, hr2⟩ := h.idle
    obtain ⟨r', hr', hp'⟩ := ProcessTable.exists_of_pids (fun j => (hp j).symm) hr
    exact ⟨j, r', hr', hp'.symm.trans hr2⟩

/-- A process changes, but not its PID. -/
theorem put (h : TableOk t) (hi : t.slots i = some q) (hpid : q'.pid = q.pid)
    (hidle : q.pid = 2 → q'.state = .ready ∨ q'.state = .running) :
    TableOk (t.put i (some q')) := by
  refine h.congr (ProcessTable.pids_put hi hpid) rfl rfl fun j r hr hr2 => ?_
  rcases slots_put_some hr with ⟨rfl, rfl⟩ | ⟨-, hr⟩
  · exact hidle (hpid.symm.trans hr2)
  · exact h.idleState j r hr hr2

/-- A process changes neither its PID nor its state. -/
theorem put_role (h : TableOk t) (hi : t.slots i = some q) (hpid : q'.pid = q.pid)
    (hstate : q'.state = q.state) : TableOk (t.put i (some q')) :=
  h.put hi hpid fun h2 => by
    rw [hstate]
    exact h.idleState i q hi h2

/-- A process is added under the next PID. -/
theorem add (h : TableOk t) (hi : t.slots i = none) (hpid : q.pid = t.nextPid) :
    TableOk { t.put i (some q) with nextPid := t.nextPid + 1, count := t.count + 1 } := by
  have hlt : ∀ j r, t.slots j = some r → r.pid ≠ q.pid := by
    intro j r hr hp
    have hbelow := h.below j r hr
    omega
  have htwo : 2 < t.nextPid := by
    obtain ⟨j, r, hr, hr2⟩ := h.idle
    have hbelow := h.below j r hr
    omega
  constructor
  case distinct =>
    intro j k r r' hr hr' hp
    rcases slots_put_some hr with ⟨rfl, rfl⟩ | ⟨-, hold⟩
    · rcases slots_put_some hr' with ⟨rfl, rfl⟩ | ⟨-, hold'⟩
      · rfl
      · exact absurd hp.symm (hlt k r' hold')
    · rcases slots_put_some hr' with ⟨rfl, rfl⟩ | ⟨-, hold'⟩
      · exact absurd hp (hlt j r hold)
      · exact h.distinct j k r r' hold hold' hp
  case positive =>
    intro j r hr
    rcases slots_put_some hr with ⟨rfl, rfl⟩ | ⟨-, hr⟩
    · omega
    · exact h.positive j r hr
  case below =>
    intro j r hr
    change r.pid < t.nextPid + 1
    rcases slots_put_some hr with ⟨rfl, rfl⟩ | ⟨-, hr⟩
    · omega
    · have hbelow := h.below j r hr
      omega
  case count =>
    have hset : (Finset.univ.filter fun j => ((t.put i (some q)).slots j).isSome) =
        insert i (Finset.univ.filter fun j => (t.slots j).isSome) := by
      ext j
      by_cases hj : j = i
      · subst hj
        simp
      · simp [ProcessTable.put_ne hj, hj]
    change t.count + 1 = (Finset.univ.filter fun j => ((t.put i (some q)).slots j).isSome).card
    rw [hset, Finset.card_insert_of_notMem (by simp [hi]), h.count]
  case idle =>
    obtain ⟨j, r, hr, hr2⟩ := h.idle
    have hj : j ≠ i := by
      rintro rfl
      rw [hi] at hr
      cases hr
    exact ⟨j, r, (ProcessTable.put_ne hj).trans hr, hr2⟩
  case idleState =>
    intro j r hr hr2
    rcases slots_put_some hr with ⟨rfl, rfl⟩ | ⟨-, hr⟩
    · omega
    · exact h.idleState j r hr hr2

/-- A zombie is removed. -/
theorem remove (h : TableOk t) (hi : t.slots i = some q) (hz : q.state = .zombie) :
    TableOk { t.put i none with count := t.count - 1 } := by
  have hback : ∀ j r, (t.put i none).slots j = some r → t.slots j = some r :=
    fun j r hr => (slots_put_none hr).2
  constructor
  case distinct =>
    intro j k r r' hr hr'
    exact h.distinct j k r r' (hback j r hr) (hback k r' hr')
  case positive => exact fun j r hr => h.positive j r (hback j r hr)
  case below => exact fun j r hr => h.below j r (hback j r hr)
  case count =>
    have hset : (Finset.univ.filter fun j => ((t.put i none).slots j).isSome) =
        (Finset.univ.filter fun j => (t.slots j).isSome).erase i := by
      ext j
      by_cases hj : j = i
      · subst hj
        simp
      · simp [ProcessTable.put_ne hj, hj]
    change t.count - 1 = (Finset.univ.filter fun j => ((t.put i none).slots j).isSome).card
    rw [hset, Finset.card_erase_of_mem (by simp [hi]), h.count]
  case idle =>
    obtain ⟨j, r, hr, hr2⟩ := h.idle
    have hj : j ≠ i := by
      rintro rfl
      rw [hi] at hr
      cases hr
      rcases h.idleState j q hi hr2 with hs | hs <;> rw [hs] at hz <;> cases hz
    exact ⟨j, r, (ProcessTable.put_ne hj).trans hr, hr2⟩
  case idleState => exact fun j r hr => h.idleState j r (hback j r hr)

end TableOk

/-- What `mark_zombie` does. -/
theorem markZombie_cases {pid code : ℕ} {t' : ProcessTable} {cleared : Option ℕ}
    (h : t.markZombie pid code = some (t', cleared)) :
    ∃ i q, t.find pid = some (i, q) ∧
      ((t' = t.put i (some { q with state := .zombie, exitCode := code }) ∧ cleared = none ∧
          ∀ j p, (t.put i (some { q with state := .zombie, exitCode := code })).find q.parentPid =
            some (j, p) → q.parentPid ≠ 0 → p.state = .blocked → p.waitForPid ≠ pid) ∨
        ∃ j p, (t.put i (some { q with state := .zombie, exitCode := code })).find q.parentPid =
            some (j, p) ∧ p.state = .blocked ∧ p.waitForPid = pid ∧
          t' = (t.put i (some { q with state := .zombie, exitCode := code })).put j
            (some { p with state := .ready, waitForPid := 0 }) ∧
          cleared = if p.kernelRsp ≠ 0 then some p.kernelRsp else none) := by
  unfold ProcessTable.markZombie at h
  split at h
  next => cases h
  next i q hfind =>
    refine ⟨i, q, hfind, ?_⟩
    dsimp only at h
    split at h
    next hzero =>
      cases h
      exact .inl ⟨rfl, rfl, fun _ _ _ hne => absurd hzero hne⟩
    split at h
    next hnone =>
      cases h
      refine .inl ⟨rfl, rfl, fun j p hp => ?_⟩
      rw [hnone] at hp
      cases hp
    next j p hp =>
      split at h
      next hwait =>
        cases h
        exact .inr ⟨j, p, hp, hwait.1, hwait.2, rfl, rfl⟩
      next hwait =>
        cases h
        refine .inl ⟨rfl, rfl, fun j' p' hp' _ hb hw => hwait ?_⟩
        rw [hp] at hp'
        cases hp'
        exact ⟨hb, hw⟩

/-- `mark_zombie` panics only if there is no such process. -/
theorem markZombie_none {pid code : ℕ} (h : t.markZombie pid code = none) : t.find pid = none := by
  unfold ProcessTable.markZombie at h
  split at h
  next hnone => exact hnone
  dsimp only at h
  split at h
  next => cases h
  split at h
  next => cases h
  split at h <;> cases h

end Table

/-! ### Elementary changes -/

/-- Process `q'` is `q` in the same role, unless it was blocked and is now ready. -/
def Process.Moved (q q' : Process) : Prop :=
  q'.role = { q.role with state := q'.state } ∧
    (q'.state = q.state ∨ q.state = .blocked ∧ q'.state = .ready)

namespace Process.Moved

variable {q q' q'' : Process}

theorem of_role (h : q'.role = q.role) : q.Moved q' := by
  have hstate : q'.state = q.state := (congrArg Process.state h :)
  refine ⟨?_, .inl hstate⟩
  rw [h, hstate]
  rfl

theorem trans (h : q.Moved q') (h' : q'.Moved q'') : q.Moved q'' := by
  refine ⟨?_, ?_⟩
  · rw [h'.1, h.1]
  · rcases h.2 with h₁ | ⟨h₁, h₂⟩
    · rw [← h₁]
      exact h'.2
    · rcases h'.2 with h₃ | ⟨h₃, -⟩
      · exact .inr ⟨h₁, h₃.trans h₂⟩
      · rw [h₂] at h₃
        cases h₃

theorem pid (h : q.Moved q') : q'.pid = q.pid := (congrArg Process.pid h.1 :)

theorem parentPid (h : q.Moved q') : q'.parentPid = q.parentPid :=
  (congrArg Process.parentPid h.1 :)

theorem waitForPid (h : q.Moved q') : q'.waitForPid = q.waitForPid :=
  (congrArg Process.waitForPid h.1 :)

theorem running_iff (h : q.Moved q') : q'.state = .running ↔ q.state = .running := by
  rcases h.2 with h₁ | ⟨h₁, h₂⟩
  · rw [h₁]
  · simp [h₁, h₂]

theorem zombie_iff (h : q.Moved q') : q'.state = .zombie ↔ q.state = .zombie := by
  rcases h.2 with h₁ | ⟨h₁, h₂⟩
  · rw [h₁]
  · simp [h₁, h₂]

theorem blocked (h : q.Moved q') (hb : q'.state = .blocked) : q.state = .blocked := by
  rcases h.2 with h₁ | ⟨-, h₂⟩
  · exact h₁.symm.trans hb
  · rw [h₂] at hb
    cases hb

end Process.Moved

/-- What all elementary changes leave alone. -/
structure Steady (s s' : System) : Prop where
  slots : ∀ i, Option.Rel Process.Moved (s.table.slots i) (s'.table.slots i)
  nextPid : s'.table.nextPid = s.table.nextPid
  count : s'.table.count = s.table.count
  currentPid : s'.currentPid = s.currentPid
  kernelStack : s'.kernelStack = s.kernelStack
  sched : s.shouldSchedule = true → s'.shouldSchedule = true

namespace Steady

variable {s s' s'' : System} {i : Fin 64} {q q' : Process}

theorem of_table (htable : s'.table = s.table) (hcur : s'.currentPid = s.currentPid)
    (hstack : s'.kernelStack = s.kernelStack)
    (hsched : s.shouldSchedule = true → s'.shouldSchedule = true) : Steady s s' := by
  refine ⟨fun i => ?_, by rw [htable], by rw [htable], hcur, hstack, hsched⟩
  rw [htable]
  cases s.table.slots i with
  | none => exact .none
  | some q => exact .some (.of_role rfl)

theorem refl (s : System) : Steady s s := of_table rfl rfl rfl id

theorem forward (h : Steady s s') (hi : s.table.slots i = some q) :
    ∃ q', s'.table.slots i = some q' ∧ q.Moved q' := by
  have hslot := h.slots i
  rw [hi] at hslot
  cases hq : s'.table.slots i with
  | none => rw [hq] at hslot; cases hslot
  | some q' =>
    rw [hq] at hslot
    cases hslot with
    | some hm => exact ⟨q', rfl, hm⟩

theorem backward (h : Steady s s') (hi : s'.table.slots i = some q') :
    ∃ q, s.table.slots i = some q ∧ q.Moved q' := by
  have hslot := h.slots i
  rw [hi] at hslot
  cases hq : s.table.slots i with
  | none => rw [hq] at hslot; cases hslot
  | some q =>
    rw [hq] at hslot
    cases hslot with
    | some hm => exact ⟨q, rfl, hm⟩

theorem none_iff (h : Steady s s') : s'.table.slots i = none ↔ s.table.slots i = none := by
  have hslot := h.slots i
  revert hslot
  cases s.table.slots i <;> cases s'.table.slots i <;> simp

theorem trans (h : Steady s s') (h' : Steady s' s'') : Steady s s'' := by
  refine ⟨fun i => ?_, h'.nextPid.trans h.nextPid, h'.count.trans h.count,
    h'.currentPid.trans h.currentPid, h'.kernelStack.trans h.kernelStack,
    fun hs => h'.sched (h.sched hs)⟩
  cases hq : s.table.slots i with
  | none =>
    rw [h'.none_iff.mpr (h.none_iff.mpr hq)]
    exact .none
  | some q =>
    obtain ⟨q', hq', hm⟩ := h.forward hq
    obtain ⟨q'', hq'', hm'⟩ := h'.forward hq'
    rw [hq'']
    exact .some (hm.trans hm')

theorem put (hi : s.table.slots i = some q) (hq : q.Moved q') : Steady s (s.put i q') := by
  refine ⟨fun j => ?_, rfl, rfl, rfl, rfl, id⟩
  by_cases hj : j = i
  · subst hj
    rw [hi]
    change Option.Rel _ _ ((s.table.put j (some q')).slots j)
    rw [ProcessTable.put_same]
    exact .some hq
  · change Option.Rel _ _ ((s.table.put i (some q')).slots j)
    rw [ProcessTable.put_ne hj]
    exact (refl s).slots j

theorem pids (h : Steady s s') (j : Fin 64) : s'.table.pids j = s.table.pids j := by
  cases hq : s.table.slots j with
  | none => rw [ProcessTable.pids, ProcessTable.pids, h.none_iff.mpr hq, hq]
  | some q =>
    obtain ⟨q', hq', hm⟩ := h.forward hq
    rw [ProcessTable.pids_some hq, ProcessTable.pids_some hq', hm.pid]

theorem tableOk (h : Steady s s') (ht : TableOk s.table) : TableOk s'.table := by
  refine ht.congr h.pids h.nextPid h.count fun i q' hq' h2 => ?_
  obtain ⟨q, hq, hm⟩ := h.backward hq'
  rcases hm.2 with hs | ⟨-, hs⟩
  · rw [hs]
    exact ht.idleState i q hq (hm.pid ▸ h2)
  · exact .inl hs

end Steady

section Changes

variable {s s' : System}

theorem wakeReader_steady : Steady s s.wakeReader := by
  unfold System.wakeReader
  split
  next => exact .refl s
  dsimp only
  have hforget : Steady s { s with tty := { s.tty with waitingPid := 0 } } := .of_table rfl rfl rfl id
  split
  next => exact hforget
  next i q hfind =>
    split
    next hb =>
      have hsched : Steady s { s with
          tty := { s.tty with waitingPid := 0 }, shouldSchedule := true } :=
        .of_table rfl rfl rfl fun _ => rfl
      exact hsched.trans (.put (ProcessTable.find_some hfind).1 ⟨rfl, .inr ⟨hb, rfl⟩⟩)
    next => exact hforget

theorem Change.steady (h : Change s s') : Steady s s' := by
  cases h with
  | globals table current stack waiting sched log => exact .of_table table current stack sched
  | update slot role code handler pending kill => exact .put slot (.of_role role)
  | consume current idle signals pending =>
    rename_i events
    have hlog : Steady s (s.log events) := .of_table rfl rfl rfl id
    exact hlog.trans (.put (current_slot current) (.of_role signals.role_eq))
  | wake slot blocked => exact .put slot ⟨rfl, .inr ⟨blocked, rfl⟩⟩
  | wakeReader => exact wakeReader_steady
  | forgetReader idle => exact .of_table rfl rfl rfl id

theorem Changes.steady (h : Changes s s') : Steady s s' := by
  induction h with
  | refl => exact .refl s
  | tail _ hlast ih => exact ih.trans hlast.steady

end Changes

/-! ### The current process -/

/-- The current process is there. -/
def System.Present (s : System) : Prop := ∃ i q, s.table.slots i = some q ∧ q.pid = s.currentPid

/-- The current process is running. -/
def System.Runs (s : System) : Prop :=
  ∃ i q, s.table.slots i = some q ∧ q.pid = s.currentPid ∧ q.state = .running

/-- The current process is ready. -/
def System.Ready (s : System) : Prop :=
  ∃ i q, s.table.slots i = some q ∧ q.pid = s.currentPid ∧ q.state = .ready

/-- No other process than `pid` is running. -/
def System.Only (s : System) (pid : ℕ) : Prop :=
  ∀ i q, s.table.slots i = some q → q.state = .running → q.pid = pid

/-- Nobody is running. -/
def System.Still (s : System) : Prop := ∀ i q, s.table.slots i = some q → q.state ≠ .running

/-- The invariant between steps. -/
structure SysOk (s : System) : Prop where
  table : TableOk s.table
  runs : s.Runs
  only : s.Only s.currentPid

/-- The state in which the handler of a system call leaves the kernel. -/
structure Handled (s : System) : Prop where
  table : TableOk s.table
  present : s.Present
  only : s.Only s.currentPid
  notIdle : s.currentPid ≠ 2
  sched : s.shouldSchedule = false → s.Runs

section Current

variable {s s' : System} {i : Fin 64} {q q' : Process} {pid : ℕ}

theorem System.Runs.present (h : s.Runs) : s.Present := by
  obtain ⟨i, q, hi, hpid, -⟩ := h
  exact ⟨i, q, hi, hpid⟩

/-- The current process, found. -/
theorem TableOk.current (ht : TableOk s.table) (h : s.Present) :
    ∃ i q, s.current = some (i, q) ∧ s.table.slots i = some q ∧ q.pid = s.currentPid := by
  obtain ⟨i, q, hi, hpid⟩ := h
  have hfind := ht.find_eq hi
  rw [hpid] at hfind
  exact ⟨i, q, hfind, hi, hpid⟩

/-- The current process, found running. -/
theorem SysOk.current (h : SysOk s) :
    ∃ i q, s.current = some (i, q) ∧ s.table.slots i = some q ∧ q.pid = s.currentPid ∧
      q.state = .running := by
  obtain ⟨i, q, hi, hpid, hrun⟩ := h.runs
  have hfind := h.table.find_eq hi
  rw [hpid] at hfind
  exact ⟨i, q, hfind, hi, hpid, hrun⟩

/-- The process found as the current one is running. -/
theorem SysOk.running (h : SysOk s) (hcur : s.current = some (i, q)) : q.state = .running := by
  obtain ⟨j, r, hr, -, -, hrun⟩ := h.current
  rw [hcur] at hr
  cases hr
  exact hrun

theorem Steady.runs (h : Steady s s') (hr : s.Runs) : s'.Runs := by
  obtain ⟨i, q, hi, hpid, hrun⟩ := hr
  obtain ⟨q', hq', hm⟩ := h.forward hi
  exact ⟨i, q', hq', by rw [hm.pid, hpid, h.currentPid], hm.running_iff.mpr hrun⟩

theorem Steady.ready (h : Steady s s') (hr : s.Ready) : s'.Ready := by
  obtain ⟨i, q, hi, hpid, hready⟩ := hr
  obtain ⟨q', hq', hm⟩ := h.forward hi
  refine ⟨i, q', hq', by rw [hm.pid, hpid, h.currentPid], ?_⟩
  rcases hm.2 with hstate | ⟨-, hstate⟩
  · exact hstate.trans hready
  · exact hstate

/-- The process found as the current one is ready. -/
theorem System.Ready.state_eq (h : s.Ready) (ht : TableOk s.table) (hcur : s.current = some (i, q)) :
    q.state = .ready := by
  obtain ⟨j, r, hj, hpid, hready⟩ := h
  obtain ⟨hi, hqpid⟩ := ProcessTable.find_some hcur
  obtain ⟨rfl, rfl⟩ := ht.eq_of_pid hi hj (hqpid.trans hpid.symm)
  exact hready

theorem Steady.present (h : Steady s s') (hr : s.Present) : s'.Present := by
  obtain ⟨i, q, hi, hpid⟩ := hr
  obtain ⟨q', hq', hm⟩ := h.forward hi
  exact ⟨i, q', hq', by rw [hm.pid, hpid, h.currentPid]⟩

theorem Steady.only (h : Steady s s') (ho : s.Only pid) : s'.Only pid := by
  intro i q' hq' hrun
  obtain ⟨q, hq, hm⟩ := h.backward hq'
  rw [hm.pid]
  exact ho i q hq (hm.running_iff.mp hrun)

theorem Steady.still (h : Steady s s') (ho : s.Still) : s'.Still := by
  intro i q' hq' hrun
  obtain ⟨q, hq, hm⟩ := h.backward hq'
  exact ho i q hq (hm.running_iff.mp hrun)

/-- **Elementary changes keep the invariant.** -/
theorem Steady.ok (h : Steady s s') (hs : SysOk s) : SysOk s' :=
  ⟨h.tableOk hs.table, h.runs hs.runs, h.currentPid ▸ h.only hs.only⟩

theorem System.Only.put (h : s.Only pid) (hq : q.state = .running → q.pid = pid) :
    (s.put i q).Only pid := by
  intro j r hr hrun
  rcases slots_put_some hr with ⟨rfl, rfl⟩ | ⟨-, hr⟩
  · exact hq hrun
  · exact h j r hr hrun

end Current

/-! ### Termination of the current process -/

/-- The table after the process `q` in slot `i` has become the zombie `z`: its parent is woken if it
was waiting for it, and all others are as before. -/
structure Buried (t t' : ProcessTable) (i : Fin 64) (q z : Process) : Prop where
  slot : t.slots i = some q
  same : t' = { t with slots := t'.slots }
  zombie : t'.slots i = some z ∧ z.state = .zombie
  role : z.role = { q.role with state := .zombie }
  others : ∀ j, j ≠ i → t'.slots j = t.slots j ∨
    ∃ p, t.slots j = some p ∧ p.state = .blocked ∧ p.waitForPid = q.pid ∧
      t'.slots j = some { p with state := .ready, waitForPid := 0 }
  parent : ∀ j p, t.slots j = some p → p.pid = q.parentPid → p.state = .blocked →
    p.waitForPid = q.pid → j ≠ i → t'.slots j = some { p with state := .ready, waitForPid := 0 }

section Kill

variable {s s' : System} {cleared : Option ℕ}

/-- **`mark_zombie`**, when PIDs are distinct. -/
theorem markZombie_buried {t t' : ProcessTable} {pid code : ℕ} (hd : t.Distinct)
    (hparents : ∀ i q, t.slots i = some q → 0 < q.pid)
    (h : t.markZombie pid code = some (t', cleared)) :
    ∃ i q, t.find pid = some (i, q) ∧
      Buried t t' i q { q with state := .zombie, exitCode := code } := by
  obtain ⟨i, q, hfind, hcases⟩ := markZombie_cases h
  obtain ⟨hi, hpid⟩ := ProcessTable.find_some hfind
  refine ⟨i, q, hfind, ?_⟩
  have hdz : (t.put i (some { q with state := .zombie, exitCode := code })).Distinct :=
    hd.congr (ProcessTable.pids_put hi rfl)
  rcases hcases with ⟨rfl, -, hnone⟩ | ⟨j, p, hp, hb, hw, rfl, -⟩
  · refine ⟨hi, rfl, ⟨ProcessTable.put_same, rfl⟩, rfl, fun j hj => .inl (ProcessTable.put_ne hj), ?_⟩
    intro j p hj hpp hb hw hji
    have hfound := hdz.find_eq ((ProcessTable.put_ne hji).trans hj)
    rw [hpp] at hfound
    have hne : q.parentPid ≠ 0 := by
      have hpos := hparents j p hj
      omega
    exact absurd (hw.trans hpid) (hnone j p hfound hne hb)
  · obtain ⟨hj, hpp⟩ := ProcessTable.find_some hp
    have hji : j ≠ i := by
      rintro rfl
      rw [ProcessTable.put_same] at hj
      cases hj
      cases hb
    rw [ProcessTable.put_ne hji] at hj
    refine ⟨hi, rfl, ⟨?_, rfl⟩, rfl, fun k hk => ?_, ?_⟩
    · rw [ProcessTable.put_ne hji.symm, ProcessTable.put_same]
    · by_cases hkj : k = j
      · subst hkj
        exact .inr ⟨p, hj, hb, hw.trans hpid.symm, ProcessTable.put_same⟩
      · exact .inl (by rw [ProcessTable.put_ne hkj, ProcessTable.put_ne hk])
    · intro k r hk hrp hrb hrw hki
      have hkj := hd k j r p hk hj (hrp.trans hpp.symm)
      subst hkj
      rw [hj] at hk
      cases hk
      exact ProcessTable.put_same

/-- **Termination**, when the table is in order. -/
theorem Killed.buried (h : Killed s s' cleared) (ht : TableOk s.table) :
    ∃ i q z events, s.current = some (i, q) ∧ Buried s.table s'.table i q z ∧
      s' = { s with
        table := s'.table, signalLog := s.signalLog ++ events ++ [.terminated q.pid] } := by
  cases h with
  | mk current signals zombie =>
    rename_i i q q' events code table
    have hi := current_slot current
    have hd := ht.distinct.congr (ProcessTable.pids_put hi signals.pid_eq)
    have ht' : TableOk (s.table.put i (some q')) :=
      ht.put_role hi signals.pid_eq (congrArg Process.state signals.role_eq :)
    obtain ⟨k, r, hfind, hb⟩ := markZombie_buried hd ht'.positive zombie
    have hself := hd.find_eq ProcessTable.put_same
    rw [signals.pid_eq] at hself
    rw [hself] at hfind
    cases hfind
    refine ⟨i, q, { q' with state := .zombie, exitCode := code }, events, current, ?_, rfl⟩
    refine ⟨hi, hb.same, hb.zombie, ?_, fun j hj => ?_, fun j p hj hp hpb hpw hji => ?_⟩
    · rw [hb.role, signals.role_eq]
    · rcases hb.others j hj with hother | ⟨p, hp, hpb, hpw, hother⟩
      · exact .inl (hother.trans (ProcessTable.put_ne hj))
      · rw [ProcessTable.put_ne hj] at hp
        exact .inr ⟨p, hp, hpb, hpw.trans signals.pid_eq, hother⟩
    · have hparent : q'.parentPid = q.parentPid := (congrArg Process.parentPid signals.role_eq :)
      exact hb.parent j p ((ProcessTable.put_ne hji).trans hj) (hp.trans hparent.symm) hpb
        (hpw.trans signals.pid_eq.symm) hji

namespace Buried

variable {t t' : ProcessTable} {i : Fin 64} {q z : Process}

theorem pid (h : Buried t t' i q z) : z.pid = q.pid := (congrArg Process.pid h.role :)

theorem nextPid (h : Buried t t' i q z) : t'.nextPid = t.nextPid := by rw [h.same]

theorem count (h : Buried t t' i q z) : t'.count = t.count := by rw [h.same]

/-- A process after the termination comes from one before. -/
theorem backward (h : Buried t t' i q z) {j : Fin 64} {r : Process} (hr : t'.slots j = some r) :
    (j = i ∧ r = z) ∨ (j ≠ i ∧ t.slots j = some r) ∨
      (j ≠ i ∧ ∃ p, t.slots j = some p ∧ p.state = .blocked ∧ p.waitForPid = q.pid ∧
        r = { p with state := .ready, waitForPid := 0 }) := by
  by_cases hj : j = i
  · subst hj
    rw [h.zombie.1] at hr
    exact .inl ⟨rfl, (Option.some.inj hr).symm⟩
  · rcases h.others j hj with hother | ⟨p, hp, hb, hw, hother⟩
    · exact .inr (.inl ⟨hj, hother.symm.trans hr⟩)
    · rw [hother] at hr
      exact .inr (.inr ⟨hj, p, hp, hb, hw, (Option.some.inj hr).symm⟩)

theorem pids (h : Buried t t' i q z) (j : Fin 64) : t'.pids j = t.pids j := by
  by_cases hj : j = i
  · subst hj
    rw [ProcessTable.pids_some h.zombie.1, ProcessTable.pids_some h.slot, h.pid]
  · rcases h.others j hj with hother | ⟨p, hp, -, -, hother⟩
    · rw [ProcessTable.pids, hother, ProcessTable.pids]
    · rw [ProcessTable.pids_some hother, ProcessTable.pids_some hp]

theorem tableOk (h : Buried t t' i q z) (ht : TableOk t) (hne : q.pid ≠ 2) : TableOk t' := by
  refine ht.congr h.pids h.nextPid h.count fun j r hr hr2 => ?_
  rcases h.backward hr with ⟨rfl, rfl⟩ | ⟨-, hr⟩ | ⟨-, p, -, -, -, rfl⟩
  · exact absurd (h.pid.symm.trans hr2) hne
  · exact ht.idleState j r hr hr2
  · exact .inl rfl

/-- Who runs after the termination ran before. -/
theorem running (h : Buried t t' i q z) {j : Fin 64} {r : Process} (hr : t'.slots j = some r)
    (hrun : r.state = .running) : t.slots j = some r := by
  rcases h.backward hr with ⟨rfl, rfl⟩ | ⟨-, hr⟩ | ⟨-, p, -, -, -, rfl⟩
  · rw [h.zombie.2] at hrun
    cases hrun
  · exact hr
  · cases hrun

end Buried

end Kill

end Vibix.Proc
