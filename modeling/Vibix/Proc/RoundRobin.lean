import Vibix.Proc.Skipped

/-! # Selection of the next process

Round-robin selection, with the idle process as last resort, goes through the slots in cyclic order
from the one after the current process's on and comes to the current slot last
(`System.SelectsInTurn`).  `sched_next` stops one slot earlier: it never looks at the current slot.
If the current process is the only one that can run, the idle process is selected in its place.

`selectsInTurn_iff` says for every table and every current PID whether the selection is right. -/

namespace Vibix.Proc

/-- A process that can be selected in the first pass. -/
def Process.Runnable (q : Process) : Prop := q.state = .ready ∧ q.pid ≠ 2

instance (q : Process) : Decidable q.Runnable := inferInstanceAs (Decidable (_ ∧ _))

/-- The slot at a distance from the current one, in cyclic order; at distance 64 it is the current
slot again. -/
def System.slotAt (s : System) (k : ℕ) : Fin 64 := s.start + Fin.ofNat 64 k

/-- The selection is round-robin: the first process that can run is selected, the current slot coming
last, and the idle process only if no other process is ready. -/
structure System.SelectsInTurn (s : System) : Prop where
  first : ∀ k q, 1 ≤ k → k ≤ 64 → s.table.slots (s.slotAt k) = some q → q.Runnable →
    (∀ j r, 1 ≤ j → j < k → s.table.slots (s.slotAt j) = some r → ¬ r.Runnable) →
    schedNext s = q.pid
  lastResort : schedNext s = 2 → ∀ i q, s.table.slots i = some q → q.pid ≠ 2 → q.state ≠ .ready

section Selection

variable {s : System} {i : Fin 64} {q r : Process} {k : ℕ}

theorem findSome?_range {α : Type*} {f : ℕ → Option α} {n : ℕ} {a : α} (hk : k < n) (hf : f k = some a)
    (hbefore : ∀ j < k, f j = none) : (List.range n).findSome? f = some a := by
  obtain ⟨d, rfl⟩ := Nat.exists_eq_add_of_lt hk
  have hnone : (List.range k).findSome? f = none :=
    List.findSome?_eq_none_iff.mpr fun j hj => hbefore j (List.mem_range.mp hj)
  rw [Nat.add_assoc, List.range_add, List.findSome?_append, hnone, Option.none_or,
    List.range_succ_eq_map, List.map_cons, Nat.add_zero, List.findSome?_cons, hf]

theorem slotPid_runnable (hi : s.table.slots i = some q) :
    slotPid s.table (fun q => q.state = .ready ∧ q.pid ≠ 2) i =
      if q.Runnable then some q.pid else none := by
  rw [slotPid, hi, Option.bind_some]
  exact if_congr decide_eq_true_iff rfl rfl

theorem slotPid_eq_none_iff :
    slotPid s.table (fun q => q.state = .ready ∧ q.pid ≠ 2) i = none ↔
      ∀ q, s.table.slots i = some q → ¬ q.Runnable := by
  cases hi : s.table.slots i with
  | none => simp [slotPid, hi]
  | some q =>
    rw [slotPid_runnable hi]
    simp

/-- The slot at a distance that is not a multiple of 64 is another one, and every other slot is at
such a distance. -/
theorem exists_slotAt (i : Fin 64) : ∃ k, 1 ≤ k ∧ k ≤ 64 ∧ s.slotAt k = i ∧ (k = 64 ↔ i = s.start) := by
  refine ⟨if i = s.start then 64 else (i - s.start).val, ?_⟩
  unfold System.slotAt
  split
  next h =>
    subst h
    exact ⟨by omega, le_rfl, add_zero _, by simp⟩
  next h =>
    have hne : i - s.start ≠ 0 := sub_ne_zero.mpr h
    have hpos : (i - s.start).val ≠ 0 := fun hc => hne (Fin.ext hc)
    refine ⟨by omega, (i - s.start).isLt.le, ?_, fun hc => ?_, fun hc => absurd hc h⟩
    · rw [Fin.ofNat_val_eq_self, add_sub_cancel]
    · have := (i - s.start).isLt
      omega

theorem slotAt_self : s.slotAt 64 = s.start := add_zero _

/-- The first pass finds the first process that can run, if it is not in the current slot. -/
theorem schedNext_first (hk : 1 ≤ k) (hlt : k < 64) (hq : s.table.slots (s.slotAt k) = some q)
    (hrun : q.Runnable)
    (hbefore : ∀ j r, 1 ≤ j → j < k → s.table.slots (s.slotAt j) = some r → ¬ r.Runnable) :
    schedNext s = q.pid := by
  have hfound : (slotsAfter s.start).findSome?
      (slotPid s.table fun q => q.state = .ready ∧ q.pid ≠ 2) = some q.pid := by
    rw [slotsAfter, List.findSome?_map]
    refine findSome?_range (k := k - 1) (by omega) ?_ fun j hj => ?_
    · have hslot : s.table.slots (s.start + Fin.ofNat 64 (k - 1 + 1)) = some q := by
        rw [Nat.sub_add_cancel hk]
        exact hq
      rw [Function.comp_apply, slotPid_runnable hslot, if_pos hrun]
    · rw [Function.comp_apply, slotPid_eq_none_iff]
      exact fun r hr => hbefore (j + 1) r (by omega) (by omega) hr
  rw [schedNext, hfound]

/-- If there is a process in another slot that can run, some process other than the idle one is
selected. -/
theorem schedNext_other (hi : s.table.slots i = some q) (hrun : q.Runnable) (hne : i ≠ s.start) :
    schedNext s ≠ 2 := by
  unfold schedNext
  split
  next pid hfound =>
    obtain ⟨j, -, hj⟩ := List.exists_of_findSome?_eq_some hfound
    obtain ⟨r, hr, hready, rfl⟩ := exists_of_slotPid hj
    simp only [Bool.decide_and, Bool.and_eq_true, decide_eq_true_eq] at hready
    exact hready.2
  next hnone =>
    obtain ⟨k, hk, hle, rfl, hself⟩ := exists_slotAt (s := s) i
    have hmem : s.slotAt k ∈ slotsAfter s.start := by
      refine List.mem_map.mpr ⟨k - 1, List.mem_range.mpr ?_, by rw [Nat.sub_add_cancel hk]; rfl⟩
      have : k ≠ 64 := fun hc => hne (hself.mp hc)
      omega
    have hslot := List.findSome?_eq_none_iff.mp hnone _ hmem
    exact absurd hrun (slotPid_eq_none_iff.mp hslot q hi)

/-- If no process in another slot can run, the idle process is selected if it is ready, and the
current PID otherwise. -/
theorem schedNext_alone (hnone : ∀ i q, s.table.slots i = some q → q.Runnable → i = s.start) :
    schedNext s =
      if ∃ i q, s.table.slots i = some q ∧ q.state = .ready ∧ q.pid = 2 then 2 else s.currentPid := by
  have hfirst : (slotsAfter s.start).findSome?
      (slotPid s.table fun q => q.state = .ready ∧ q.pid ≠ 2) = none := by
    refine List.findSome?_eq_none_iff.mpr fun i hi => slotPid_eq_none_iff.mpr fun q hq hrun => ?_
    obtain ⟨k, hk, rfl⟩ := List.mem_map.mp hi
    have hzero : Fin.ofNat 64 (k + 1) = 0 := by
      have := hnone _ q hq hrun
      rwa [add_eq_left] at this
    have hval := congrArg Fin.val hzero
    rw [List.mem_range] at hk
    simp only [Fin.val_ofNat, Fin.val_zero] at hval
    omega
  rw [schedNext, hfirst]
  dsimp only
  split
  next pid hfound =>
    obtain ⟨i, -, hi⟩ := List.exists_of_findSome?_eq_some hfound
    obtain ⟨q, hq, hidle, -⟩ := exists_of_slotPid hi
    simp only [Bool.decide_and, Bool.and_eq_true, decide_eq_true_eq] at hidle
    rw [if_pos ⟨i, q, hq, hidle⟩]
  next hfound =>
    rw [if_neg]
    rintro ⟨i, q, hq, hidle⟩
    have hi := List.findSome?_eq_none_iff.mp hfound i (List.mem_finRange i)
    rw [slotPid, hq, Option.bind_some, if_pos (by simp [hidle])] at hi
    cases hi

/-- **The selection is round-robin** unless the only process that can run is in the current slot: then
it is selected only if it is the current process and the idle process is not ready. -/
theorem selectsInTurn_iff (s : System) :
    s.SelectsInTurn ↔
      ∀ q, s.table.slots s.start = some q → q.Runnable →
        (∃ i r, i ≠ s.start ∧ s.table.slots i = some r ∧ r.Runnable) ∨
          q.pid = s.currentPid ∧ ∀ i r, s.table.slots i = some r → r.pid = 2 → r.state ≠ .ready := by
  have halone : (¬ ∃ i r, i ≠ s.start ∧ s.table.slots i = some r ∧ r.Runnable) →
      ∀ i q, s.table.slots i = some q → q.Runnable → i = s.start := by
    intro hother i q hi hrun
    by_contra hne
    exact hother ⟨i, q, hne, hi, hrun⟩
  constructor
  · intro h q hq hrun
    by_cases hother : ∃ i r, i ≠ s.start ∧ s.table.slots i = some r ∧ r.Runnable
    · exact .inl hother
    · have hself : schedNext s = q.pid := by
        refine h.first 64 q (by omega) le_rfl (slotAt_self ▸ hq) hrun fun j r hj hlt hr hrunr => ?_
        have hstart : s.start + Fin.ofNat 64 j = s.start := halone hother _ r hr hrunr
        rw [add_eq_left] at hstart
        have hval := congrArg Fin.val hstart
        simp only [Fin.val_ofNat, Fin.val_zero] at hval
        omega
      rw [schedNext_alone (halone hother)] at hself
      split at hself
      next => exact absurd hself.symm hrun.2
      next hidle => exact .inr ⟨hself.symm, fun i r hr h2 hready => hidle ⟨i, r, hr, hready, h2⟩⟩
  · intro h
    -- with nobody else, the process in the current slot is selected
    have hself : ∀ q, s.table.slots s.start = some q → q.Runnable →
        (¬ ∃ i r, i ≠ s.start ∧ s.table.slots i = some r ∧ r.Runnable) → schedNext s = q.pid := by
      intro q hq hrun hother
      obtain ⟨hpid, hidle⟩ := (h q hq hrun).resolve_left hother
      rw [schedNext_alone (halone hother), if_neg, hpid]
      rintro ⟨i, r, hr, hready, h2⟩
      exact hidle i r hr h2 hready
    constructor
    case first =>
      intro k q hk hle hq hrun hbefore
      rcases Nat.lt_or_eq_of_le hle with hlt | rfl
      · exact schedNext_first hk hlt hq hrun hbefore
      · rw [slotAt_self] at hq
        refine hself q hq hrun ?_
        rintro ⟨i, r, hne, hr, hrunr⟩
        obtain ⟨j, hj, hjle, rfl, hself⟩ := exists_slotAt (s := s) i
        have hj64 : j ≠ 64 := fun hc => hne (hself.mp hc)
        exact hbefore j r hj (by omega) hr hrunr
    case lastResort =>
      intro hidle i q hq hne hready
      by_cases hother : ∃ i r, i ≠ s.start ∧ s.table.slots i = some r ∧ r.Runnable
      · obtain ⟨j, r, hj, hr, hrunr⟩ := hother
        exact schedNext_other hr hrunr hj hidle
      · obtain rfl := halone hother i q hq ⟨hready, hne⟩
        exact hne ((hself q hq ⟨hready, hne⟩ hother).symm.trans hidle)

/-- **The idle process is selected in place of the current one**: init, interrupted as the only
process that can run. -/
theorem idle_replaces_current :
    ∃ s : System, s.currentPid = 1 ∧
      (s.table.slots 0).map (fun q => (q.pid, q.state)) = some (1, .ready) ∧ schedNext s = 2 ∧
      ¬ s.SelectsInTurn := by
  obtain ⟨s, hs⟩ : ∃ s : System, s = { spawnInit ⟨⟨0, 0, 0x3000, 0⟩, 0, 0, 0, 0⟩ ⟨0, none, true⟩ with
    currentPid := 1 } := ⟨_, rfl⟩
  have hinit : (s.table.slots 0).map (fun q => (q.pid, q.state)) = some (1, .ready) := by
    rw [hs]
    rfl
  have hnext : schedNext s = 2 := by
    rw [hs]
    decide +kernel
  refine ⟨s, by rw [hs], hinit, hnext, fun h => ?_⟩
  obtain ⟨q, hq, hpair⟩ := Option.map_eq_some_iff.mp hinit
  obtain ⟨hpid, hready⟩ := Prod.mk.inj hpair
  exact h.lastResort hnext 0 q hq (by omega) hready

end Selection

end Vibix.Proc
