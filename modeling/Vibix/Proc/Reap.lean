import Vibix.Proc.Skipped

/-! # Waiting for children

`waitpid` should reap a child that is a zombie whenever there is one that matches the request, block
only while all of them are alive, and fail only if there are none (`WaitsRight`).  `sys_waitpid` looks
at the first matching child only: if that one is alive, it blocks, whatever the others are.

`waitsRight_iff` says for every table and every request whether it does what it should. -/

namespace Vibix.Proc

/-- Process `q` is a child of the caller that matches the request, `2 ^ 64 - 1` being any child. -/
def System.Awaited (s : System) (requested : ℕ) (q : Process) : Prop :=
  q.parentPid = s.currentPid ∧ (requested = 2 ^ 64 - 1 ∨ q.pid = requested)

instance (s : System) (requested : ℕ) (q : Process) : Decidable (s.Awaited requested q) :=
  inferInstanceAs (Decidable (_ ∧ _))

/-- What `waitpid` should do.  The result of `sys_waitpid` is the new state, the returned value and
the process that was reaped; without one, it is -1, or 0 for a caller that is blocked or passed
`WNOHANG`. -/
structure WaitsRight (requested flags : ℕ) (s : System) : Prop where
  reaps : (∃ i q, s.table.slots i = some q ∧ s.Awaited requested q ∧ q.state = .zombie) →
    ∃ i q s', s.table.slots i = some q ∧ s.Awaited requested q ∧ q.state = .zombie ∧
      sysWaitpid requested flags s = .ok (s', q.pid, some q) ∧
      s'.table = { s.table.put i none with count := s.table.count - 1 }
  blocks : ∀ s', sysWaitpid requested flags s = .ok (s', 0, none) →
    (∃ i q, s.table.slots i = some q ∧ s.Awaited requested q) ∧
      ∀ i q, s.table.slots i = some q → s.Awaited requested q → q.state ≠ .zombie
  fails : ∀ s', sysWaitpid requested flags s = .ok (s', -1, none) →
    ∀ i q, s.table.slots i = some q → ¬ s.Awaited requested q

section Wait

variable {s : System} {requested flags : ℕ} {child : Process}

theorem waitChild_awaited (h : waitChild requested s = some child) :
    ∃ i, s.table.slots i = some child ∧ s.Awaited requested child := by
  obtain ⟨i, -, hi⟩ := List.exists_of_findSome?_eq_some h
  obtain ⟨q, hslot, hq⟩ := Option.bind_eq_some_iff.mp hi
  split at hq
  next hmatch =>
    cases hq
    exact ⟨i, hslot, hmatch⟩
  next => cases hq

theorem waitChild_none (h : waitChild requested s = none) {i : Fin 64} {q : Process}
    (hi : s.table.slots i = some q) : ¬ s.Awaited requested q := by
  have hslot := List.findSome?_eq_none_iff.mp h i (List.mem_finRange i)
  rw [hi, Option.bind_some] at hslot
  split at hslot
  next => cases hslot
  next hmatch => exact hmatch

/-- The first matching child is a zombie: the process that is found under its PID is reaped. -/
theorem sysWaitpid_zombie (flags : ℕ) (h : waitChild requested s = some child) (hz : child.state = .zombie) :
    ∃ i r, s.table.find child.pid = some (i, r) ∧ sysWaitpid requested flags s =
      .ok ({ s with
        table := { s.table.put i none with count := s.table.count - 1 }
        oft := cleanupFds r.fds s.oft }, child.pid, some r) := by
  obtain ⟨j, hj, -⟩ := waitChild_awaited h
  obtain ⟨⟨i, r⟩, hfind⟩ := ProcessTable.exists_find hj rfl
  refine ⟨i, r, hfind, ?_⟩
  simp only [sysWaitpid, h, hz, hfind, ↓reduceIte]

/-- The first matching child is alive: nothing is reaped. -/
theorem sysWaitpid_alive {s' : System} {rc : ℤ} {reaped : Option Process}
    (h : waitChild requested s = some child) (hz : child.state ≠ .zombie)
    (hrun : sysWaitpid requested flags s = .ok (s', rc, reaped)) : rc = 0 ∧ reaped = none := by
  simp only [sysWaitpid, h, hz, ↓reduceIte] at hrun
  split at hrun
  next =>
    cases hrun
    exact ⟨rfl, rfl⟩
  split at hrun
  next => cases hrun
  next =>
    cases hrun
    exact ⟨rfl, rfl⟩

/-- **`waitpid` is right** if and only if the first matching child is not in the way of another: it
is a zombie, as is the process that is found under its PID, or no matching child is a zombie. -/
theorem waitsRight_iff (requested flags : ℕ) (s : System) :
    WaitsRight requested flags s ↔
      ∀ child, waitChild requested s = some child →
        (child.state = .zombie → ∃ i r, s.table.find child.pid = some (i, r) ∧
          s.Awaited requested r ∧ r.state = .zombie) ∧
        (child.state ≠ .zombie → ∀ i q, s.table.slots i = some q → s.Awaited requested q →
          q.state ≠ .zombie) := by
  constructor
  · intro h child hchild
    obtain ⟨j, hj, hawaited⟩ := waitChild_awaited hchild
    refine ⟨fun hz => ?_, fun hz i q hi hq hqz => ?_⟩
    · obtain ⟨i, q, s', hi, hq, hqz, hrun, htable⟩ := h.reaps ⟨j, child, hj, hawaited, hz⟩
      obtain ⟨i', r, hfind, hrun'⟩ := sysWaitpid_zombie flags hchild hz
      simp only [hrun, Except.ok.injEq, Prod.mk.injEq, Option.some.injEq] at hrun'
      obtain ⟨-, -, rfl⟩ := hrun'
      exact ⟨i', q, hfind, hq, hqz⟩
    · obtain ⟨i, q, s', -, -, -, hrun, -⟩ := h.reaps ⟨i, q, hi, hq, hqz⟩
      cases (sysWaitpid_alive hchild hz hrun).2
  · intro h
    constructor
    case reaps =>
      rintro ⟨i, q, hi, hq, hqz⟩
      cases hchild : waitChild requested s with
      | none => exact absurd hq (waitChild_none hchild hi)
      | some child =>
        obtain ⟨hzombie, halive⟩ := h child hchild
        have hz : child.state = .zombie := by
          by_contra hz
          exact halive hz i q hi hq hqz
        obtain ⟨k, r, hfind, hawaited, hrz⟩ := hzombie hz
        obtain ⟨k', r', hfind', hrun⟩ := sysWaitpid_zombie flags hchild hz
        rw [hfind] at hfind'
        cases hfind'
        obtain ⟨hk, hpid⟩ := ProcessTable.find_some hfind
        rw [← hpid] at hrun
        exact ⟨k, r, _, hk, hawaited, hrz, hrun, rfl⟩
    case blocks =>
      intro s' hrun
      cases hchild : waitChild requested s with
      | none =>
        simp only [sysWaitpid, hchild] at hrun
        cases hrun
      | some child =>
        obtain ⟨j, hj, hawaited⟩ := waitChild_awaited hchild
        refine ⟨⟨j, child, hj, hawaited⟩, (h child hchild).2 fun hz => ?_⟩
        obtain ⟨i, r, -, hrun'⟩ := sysWaitpid_zombie flags hchild hz
        simp [hrun] at hrun'
    case fails =>
      intro s' hrun i q hi
      cases hchild : waitChild requested s with
      | none => exact waitChild_none hchild hi
      | some child =>
        by_cases hz : child.state = .zombie
        · obtain ⟨k, r, -, hrun'⟩ := sysWaitpid_zombie flags hchild hz
          simp [hrun] at hrun'
        · cases (sysWaitpid_alive hchild hz hrun).1

/-- Init has two children, of which the second exits. -/
def secondExits : List Event :=
  [.syscall ⟨0#64, 0#64, 0#64⟩ (.fork (.built 0 0)) fun _ => ⟨true, 0x3000⟩,
    .syscall ⟨0#64, 0#64, 0#64⟩ (.fork (.built 0 0)) fun _ => ⟨true, 0x3000⟩,
    .irq 0 [] fun _ => ⟨true, 0x3000⟩,
    .irq 0 [] fun _ => ⟨true, 0x3000⟩,
    .syscall ⟨0#64, 0#64, 0#64⟩ (.exit 0) fun _ => ⟨true, 0x3000⟩]

/-- **`waitpid` blocks although a child is a zombie**: init waits for any child. -/
theorem waitpid_misses_zombie :
    ∃ s s', Run Step quietBoot secondExits s ∧ s.currentPid = 1 ∧
      (∃ i q, s.table.slots i = some q ∧ s.Awaited (2 ^ 64 - 1) q ∧ q.state = .zombie) ∧
      sysWaitpid (2 ^ 64 - 1) 0 s = .ok (s', 0, none) ∧ ¬ WaitsRight (2 ^ 64 - 1) 0 s := by
  have hseen : ∃ s, Run Step quietBoot secondExits s ∧ s.currentPid = 1 ∧
      (∃ q, s.table.slots 3 = some q ∧ q.parentPid = 1 ∧ q.state = .zombie) ∧
      ∃ r, sysWaitpid (2 ^ 64 - 1) 0 s = .ok r ∧ r.2.1 = 0 ∧ r.2.2.isNone := by
    decide +kernel
  obtain ⟨s, hrun, hcur, ⟨q, hq, hparent, hz⟩, ⟨s', rc, reaped⟩, hblock, hrc, hnone⟩ := hseen
  obtain rfl : rc = 0 := hrc
  obtain rfl : reaped = none := Option.isNone_iff_eq_none.mp hnone
  have hawaited : s.Awaited (2 ^ 64 - 1) q := ⟨hparent.trans hcur.symm, .inl rfl⟩
  exact ⟨s, s', hrun, hcur, ⟨3, q, hq, hawaited, hz⟩, hblock,
    fun h => (h.blocks s' hblock).2 3 q hq hawaited hz⟩

end Wait

end Vibix.Proc
