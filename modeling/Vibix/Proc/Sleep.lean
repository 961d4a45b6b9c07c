import Mathlib.Data.BitVec
import Mathlib.Logic.Function.Iterate

/-! # `nanosleep`

`sys_nanosleep` polls the tick counter of the PIT until enough ticks have passed.  The counter is
advanced by the handler of IRQ0, which the processor runs only while the interrupt flag is set, and
the `SYSCALL` instruction clears the flags in `IA32_FMASK`, the interrupt flag among them.  So the
counter stands still during the call (`polls_frozen`), and the call ends at once or never.  The number
of ticks to wait for is computed in 64 bits, and zero for some long times.

`sleepsRight_iff`: the call is right for times below one tick only. -/

namespace Vibix.Proc

/-- What `sys_nanosleep` depends on: the flags register and `PIT_TICKS`.  `elapsed` is not state of
the kernel: it counts the ticks since boot. -/
structure Clock where
  rflags : BitVec 64
  pitTicks : BitVec 64
  elapsed : ℕ

namespace Clock

/-- `IA32_FMASK`, as `setup_syscall_msrs` sets it. -/
def fmask : BitVec 64 := 0x200#64

/-- The interrupt flag. -/
def interruptible (c : Clock) : Bool := c.rflags.getLsbD 9

/-- The `SYSCALL` instruction. -/
def syscall (c : Clock) : Clock := { c with rflags := c.rflags &&& ~~~fmask }

/-- `pit::tick`. -/
def tick (c : Clock) : Clock := { c with pitTicks := c.pitTicks + 1, elapsed := c.elapsed + 1 }

/-- The PIT asks for IRQ0; the handler runs if the processor can be interrupted. -/
def pulse (c : Clock) : Clock := if c.interruptible then c.tick else c

/-- The loop of `sys_nanosleep`.  The PIT asks for IRQ0 `pulses k` times before the counter is read
for the `k`-th time. -/
def polls (pulses : ℕ → ℕ) (start totalTicks : BitVec 64) : ℕ → ℕ → Clock → Option Clock
  | 0, _, _ => none
  | fuel + 1, k, c =>
    let c := pulse^[pulses k] c
    if totalTicks ≤ c.pitTicks - start then some c else polls pulses start totalTicks fuel (k + 1) c

/-- The number of ticks to wait for. -/
def totalTicks (sec nsec : BitVec 64) : BitVec 64 := sec * 100#64 + nsec / 10000000#64

/-- `sys_nanosleep`, called from user mode; none if it has not returned after `fuel` polls. -/
def nanosleep (pulses : ℕ → ℕ) (sec nsec : BitVec 64) (fuel : ℕ) (c : Clock) :
    Option (Clock × BitVec 64) :=
  let c := c.syscall
  if 1000000000#64 ≤ nsec then some (c, -1#64)
  else (polls pulses c.pitTicks (totalTicks sec nsec) fuel 0 c).map (·, 0#64)

/-- `nanosleep` is right: whenever it is called, and however often the PIT asks for IRQ0, it returns,
and the time has passed. -/
def SleepsRight (sec nsec : BitVec 64) : Prop :=
  ∀ c pulses, ∃ fuel c', nanosleep pulses sec nsec fuel c = some (c', 0#64) ∧
    c.elapsed + (100 * sec.toNat + nsec.toNat / 10000000) ≤ c'.elapsed

section Frozen

variable {c : Clock} {pulses : ℕ → ℕ} {sec nsec : BitVec 64}

theorem syscall_interruptible (c : Clock) : c.syscall.interruptible = false := by
  simp [interruptible, syscall, fmask]

theorem pulse_frozen (h : c.interruptible = false) (n : ℕ) : pulse^[n] c = c := by
  refine Function.iterate_fixed ?_ n
  rw [pulse, h]
  rfl

/-- **The counter stands still** during the call. -/
theorem polls_frozen (h : c.interruptible = false) {total : BitVec 64} (fuel k : ℕ) :
    polls pulses c.pitTicks total fuel k c = if total = 0#64 ∧ fuel ≠ 0 then some c else none := by
  induction fuel generalizing k with
  | zero => simp [polls]
  | succ fuel ih =>
    rw [polls, pulse_frozen h, BitVec.sub_self, ih]
    by_cases hzero : total = 0#64
    · simp [hzero]
    · have hpos : ¬ total ≤ 0#64 := by simpa using hzero
      rw [if_neg hpos, if_neg fun hc => hzero hc.1, if_neg fun hc => hzero hc.1]

/-- The call returns if the number of ticks to wait for is zero, and then no tick has passed. -/
theorem nanosleep_eq (hnsec : nsec.toNat < 1000000000) (fuel : ℕ) :
    nanosleep pulses sec nsec fuel c =
      if totalTicks sec nsec = 0#64 ∧ fuel ≠ 0 then some (c.syscall, 0#64) else none := by
  have hlt : ¬ 1000000000#64 ≤ nsec := by
    rw [BitVec.le_def]
    exact Nat.not_le.mpr hnsec
  rw [nanosleep, if_neg hlt, polls_frozen (syscall_interruptible c)]
  split <;> rfl

/-- **`nanosleep` is right for times below one tick only**: it never returns, or returns at once. -/
theorem sleepsRight_iff (sec nsec : BitVec 64) (hnsec : nsec.toNat < 1000000000) :
    SleepsRight sec nsec ↔ sec = 0#64 ∧ nsec.toNat < 10000000 := by
  constructor
  · intro h
    obtain ⟨fuel, c', hrun, hpassed⟩ := h ⟨0#64, 0#64, 0⟩ fun _ => 0
    rw [nanosleep_eq hnsec] at hrun
    split at hrun
    next =>
      cases hrun
      have hzero : 100 * sec.toNat + nsec.toNat / 10000000 = 0 := by
        simpa [syscall] using hpassed
      refine ⟨BitVec.eq_of_toNat_eq ?_, ?_⟩
      · simp only [BitVec.toNat_ofNat, Nat.zero_mod]
        omega
      · omega
    next => cases hrun
  · rintro ⟨rfl, hsmall⟩ c pulses
    have hdiv : nsec / 10000000#64 = 0#64 := by
      apply BitVec.eq_of_toNat_eq
      rw [BitVec.toNat_udiv]
      exact Nat.div_eq_of_lt hsmall
    have htotal : totalTicks 0#64 nsec = 0#64 := by
      rw [totalTicks, hdiv, BitVec.zero_mul, BitVec.zero_add]
    refine ⟨1, c.syscall, ?_, ?_⟩
    · rw [nanosleep_eq hnsec, if_pos ⟨htotal, Nat.one_ne_zero⟩]
    · rw [Nat.div_eq_of_lt hsmall]
      exact le_rfl

/-- A time of nothing. -/
theorem sleepsRight_iff_zero : SleepsRight 0#64 0#64 :=
  (sleepsRight_iff 0#64 0#64 (by decide)).mpr ⟨rfl, by decide⟩

/-- **`nanosleep` never returns** when it is called for a second, and it returns at once when it is
called for `2 ^ 62` seconds. -/
theorem nanosleep_wrong :
    (∀ c pulses fuel, nanosleep pulses 1#64 0#64 fuel c = none) ∧
      (∀ c pulses, nanosleep pulses (BitVec.ofNat 64 (2 ^ 62)) 0#64 1 c = some (c.syscall, 0#64)) ∧
      ¬ SleepsRight 1#64 0#64 ∧ ¬ SleepsRight (BitVec.ofNat 64 (2 ^ 62)) 0#64 := by
  have hnever : ∀ c pulses fuel, nanosleep pulses 1#64 0#64 fuel c = none := by
    intro c pulses fuel
    rw [nanosleep_eq (by decide), if_neg fun hc => absurd hc.1 (by decide)]
  have honce : ∀ c pulses fuel, fuel ≠ 0 →
      nanosleep pulses (BitVec.ofNat 64 (2 ^ 62)) 0#64 fuel c = some (c.syscall, 0#64) := by
    intro c pulses fuel hfuel
    rw [nanosleep_eq (by decide), if_pos ⟨by decide, hfuel⟩]
  refine ⟨hnever, fun c pulses => honce c pulses 1 Nat.one_ne_zero, fun h => ?_, fun h => ?_⟩
  · obtain ⟨fuel, c', hrun, -⟩ := h ⟨0#64, 0#64, 0⟩ fun _ => 0
    rw [hnever] at hrun
    cases hrun
  · obtain ⟨fuel, c', hrun, hpassed⟩ := h ⟨0#64, 0#64, 0⟩ fun _ => 0
    rw [nanosleep_eq (by decide)] at hrun
    split at hrun
    next =>
      cases hrun
      revert hpassed
      decide
    next => cases hrun

end Frozen

end Clock

end Vibix.Proc
