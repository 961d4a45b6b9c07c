import Mathlib.Data.BitVec
import Mathlib.Tactic

/-! # The process table

`Process`, `ProcessTable` and the functions of `process.rs` that look processes up.  `process(pid)`
and `process_mut(pid)` return the first slot with that PID and panic if there is none; `find` is the
lookup they share.  A change made through `process_mut` is a `put` into the slot found.

A free descriptor (`-1` in the source) is `none`.  The name and the working directory of a process
are left out. -/

namespace Vibix.Proc

instance neZero32 : NeZero 32 := ⟨by decide⟩

instance neZero64 : NeZero 64 := ⟨by decide⟩

/-- `ProcessState`. -/
inductive ProcessState where
  | ready
  | running
  | blocked
  | zombie
deriving DecidableEq, Repr

/-- `SigAction`. -/
structure SigAction where
  handler : BitVec 64
  mask : BitVec 64
  flags : BitVec 64
deriving DecidableEq

/-- `SigAction::default`. -/
def SigAction.default : SigAction := ⟨0#64, 0#64, 0#64⟩

/-- `Process`. -/
structure Process where
  pid : ℕ
  pml4Phys : ℕ
  state : ProcessState
  entry : ℕ
  userRsp : ℕ
  kernelStackTop : ℕ
  kernelRsp : ℕ
  kernelStackBase : ℕ
  parentPid : ℕ
  exitCode : ℕ
  waitForPid : ℕ
  brk : ℕ
  errno : ℤ
  sigPending : BitVec 64
  sigactions : Fin 32 → SigAction
  inSignal : Bool
  sigframeRsp : ℕ
  stackLow : ℕ
  fds : Fin 16 → Option ℕ

/-- `ProcessTable`. -/
structure ProcessTable where
  slots : Fin 64 → Option Process
  nextPid : ℕ
  count : ℕ

/-- `KERNEL_STACK_SIZE`. -/
def kernelStackSize : ℕ := 12288

/-- `BRK_START`. -/
def brkStart : ℕ := 0x5000000

/-- `BRK_MAX`. -/
def brkMax : ℕ := 0x10000000

namespace ProcessTable

variable (t : ProcessTable)

/-- The first slot with the given PID, and the process in it. -/
def find (pid : ℕ) : Option (Fin 64 × Process) :=
  (List.finRange 64).findSome? fun i =>
    (t.slots i).bind fun q => if q.pid = pid then some (i, q) else none

/-- Overwrite slot `i`. -/
def put (i : Fin 64) (o : Option Process) : ProcessTable :=
  { t with slots := Function.update t.slots i o }

/-- The descriptors of all processes. -/
def descriptors : Fin 64 → Fin 16 → Option ℕ := fun i fd => (t.slots i).bind fun q => q.fds fd

/-- `mark_zombie`: the table, and the word that is cleared in the saved frame of a parent that is
woken.  None if there is no such process (a panic). -/
def markZombie (pid code : ℕ) : Option (ProcessTable × Option ℕ) :=
  match t.find pid with
  | none => none
  | some (i, q) =>
    let t := t.put i (some { q with state := .zombie, exitCode := code })
    if q.parentPid = 0 then some (t, none)
    else
      match t.find q.parentPid with
      | none => some (t, none)
      | some (j, parent) =>
        if parent.state = .blocked ∧ parent.waitForPid = pid then
          some (t.put j (some { parent with state := .ready, waitForPid := 0 }),
            if parent.kernelRsp ≠ 0 then some parent.kernelRsp else none)
        else some (t, none)

variable {t} {i j : Fin 64} {q : Process} {o : Option Process} {pid : ℕ}

@[simp] theorem put_same : (t.put i o).slots i = o := Function.update_self _ _ _

theorem put_ne (h : j ≠ i) : (t.put i o).slots j = t.slots j := Function.update_of_ne h _ _

@[simp] theorem put_nextPid : (t.put i o).nextPid = t.nextPid := rfl

@[simp] theorem put_count : (t.put i o).count = t.count := rfl

/-- What is found is there. -/
theorem find_some (h : t.find pid = some (i, q)) : t.slots i = some q ∧ q.pid = pid := by
  obtain ⟨k, -, hk⟩ := List.exists_of_findSome?_eq_some h
  obtain ⟨q', hslot, hq'⟩ := Option.bind_eq_some_iff.mp hk
  split at hq'
  next hpid =>
    cases hq'
    exact ⟨hslot, hpid⟩
  next => cases hq'

/-- If nothing is found there is no such process. -/
theorem find_none (h : t.find pid = none) (hi : t.slots i = some q) : q.pid ≠ pid := by
  have hk := List.findSome?_eq_none_iff.mp h i (List.mem_finRange i)
  rw [hi, Option.bind_some] at hk
  split at hk
  next => cases hk
  next hpid => exact hpid

/-- What is there is found. -/
theorem exists_find (hi : t.slots i = some q) (hpid : q.pid = pid) :
    ∃ r, t.find pid = some r := by
  cases h : t.find pid with
  | none => exact absurd hpid (find_none h hi)
  | some r => exact ⟨r, rfl⟩

theorem put_self (hi : t.slots i = some q) : t.put i (some q) = t := by
  have hup : Function.update t.slots i (some q) = t.slots := by
    rw [← hi, Function.update_eq_self]
  unfold put
  rw [hup]

/-- A slot's row of descriptors. -/
theorem descriptors_some (hi : t.slots i = some q) : t.descriptors i = q.fds := by
  funext fd
  simp [descriptors, hi]

theorem descriptors_none (hi : t.slots i = none) : t.descriptors i = fun _ => none := by
  funext fd
  simp [descriptors, hi]

theorem descriptors_put_some :
    (t.put i (some q)).descriptors = Function.update t.descriptors i q.fds := by
  funext k fd
  by_cases hk : k = i
  · subst hk
    simp [descriptors]
  · simp [descriptors, put_ne hk, Function.update_of_ne hk]

theorem descriptors_put_none :
    (t.put i none).descriptors = Function.update t.descriptors i fun _ => none := by
  funext k fd
  by_cases hk : k = i
  · subst hk
    simp [descriptors]
  · simp [descriptors, put_ne hk, Function.update_of_ne hk]

/-- Changing a process but not its descriptors. -/
theorem descriptors_put_same {q' : Process} (hi : t.slots i = some q) (hfds : q'.fds = q.fds) :
    (t.put i (some q')).descriptors = t.descriptors := by
  rw [descriptors_put_some, hfds, ← descriptors_some hi, Function.update_eq_self]

end ProcessTable

end Vibix.Proc
