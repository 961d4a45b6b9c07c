import Vibix.Proc.Pending

/-! # Frames

The register frame on a kernel stack, as the 22 words that `irq_common` pushes and `iretq` consumes
(`InterruptFrame`), and the four places that make one: an interrupt, `build_init_frame`,
`build_fork_frame`, and the `.exit_or_block` path of `syscall_entry` (`exitOrBlock`).  Entering a signal
handler stores the frame on the user stack, in another order (`signalFrame`), and `sys_sigreturn` copies
it from there to the 18 words that `.exit_or_block` reads (`sigreturnFrame`).

All the words that `sys_sigreturn` reads are user memory.  The selectors of the frame it leads to do not
depend on them, but the flags do, so a process can give itself any flags: `sigreturn_flags` says exactly
when interrupts are on and the I/O privilege level is 0, and `sigreturn_raises_iopl` is a process that
gives itself I/O privilege. -/

namespace Vibix.Proc

open Vfs

/-- `InterruptFrame`: the words from the stack pointer up. -/
abbrev InterruptFrame := Fin 22 → BitVec 64

namespace InterruptFrame

variable (f : InterruptFrame)

/-- `SavedRegisters`: `rax`, `rcx`, `rdx`, `rbx`, `rbp`, `rsi`, `rdi`, `r8` to `r15`. -/
def regs (i : Fin 15) : BitVec 64 := f (i.castLE (by norm_num))
/-- The `rip` field. -/
def rip : BitVec 64 := f 17
/-- The `cs` field. -/
def cs : BitVec 64 := f 18
/-- The `rflags` field. -/
def rflags : BitVec 64 := f 19
/-- The `user_rsp` field. -/
def userRsp : BitVec 64 := f 20
/-- The `ss` field. -/
def ss : BitVec 64 := f 21

/-- What `deliver_pending_signals` reads of a frame to decide what to do. -/
def view : FrameView := ⟨f.cs &&& 3#64 = 3#64, f.userRsp.toNat⟩

/-- The frames have the same registers, instruction pointer, stack pointer and flags. -/
def SameContext (g : InterruptFrame) : Prop :=
  f.regs = g.regs ∧ f.rip = g.rip ∧ f.userRsp = g.userRsp ∧ f.rflags = g.rflags

end InterruptFrame

/-- The words on a stack after the given pushes, from the stack pointer up. -/
def pushed (pushes : List (BitVec 64)) : InterruptFrame := fun i => pushes.reverse.getD i 0#64

/-- `build_init_frame`. -/
def buildInitFrame (userEntry userRsp commandId : BitVec 64) : InterruptFrame :=
  pushed ([0x1B#64, userRsp, 0x202#64, 0x23#64, userEntry, 0#64, 0#64] ++ List.replicate 8 0#64 ++
    [commandId] ++ List.replicate 6 0#64)

/-- `build_fork_frame`. -/
def buildForkFrame (saved : SyscallSavedState) : InterruptFrame :=
  pushed ([0x1B#64, saved.rsp, 0x202#64, 0x23#64, saved.rip, 0#64, 0#64] ++ List.replicate 15 0#64)

/-- The frame that `.exit_or_block` builds from the saved state, the words of `sigreturn_frame` if
`sigreturn_pending` is set, and the result of the call. -/
def exitOrBlock (saved : SyscallSavedState) (pending : Option (Fin 18 → BitVec 64))
    (rax : BitVec 64) : InterruptFrame :=
  let iret := [0x1B#64, saved.rsp, 0x202#64, 0x23#64, saved.rip, 0#64, 0#64]
  match pending with
  | none => pushed (iret ++ List.replicate 14 0#64 ++ [rax])
  | some g =>
    let w := pushed (iret ++ [g 14, g 13, g 12, g 11, g 10, g 9, g 8, g 7, g 6, g 5, g 4, g 3, g 2,
      g 1, g 0])
    -- the words at `rsp + 136`, `rsp + 152` and `rsp + 160` are overwritten
    Function.update (Function.update (Function.update w 17 (g 15)) 19 (g 17)) 20 (g 16)

/-- The 20 words that `deliver_pending_signals` writes on the user stack. -/
def signalFrame (f : InterruptFrame) (sig : Fin 32) (saved : BitVec 64) : Fin 20 → BitVec 64 := fun i =>
  if h : i.val < 15 then f.regs ⟨i, h⟩
  else if i = 15 then f.rflags
  else if i = 16 then f.userRsp
  else if i = 17 then f.rip
  else if i = 18 then BitVec.ofNat 64 sig
  else saved

/-- The words that `sys_sigreturn` copies to `sigreturn_frame`. -/
def sigreturnFrame (buf : Fin 20 → BitVec 64) : Fin 18 → BitVec 64 := fun i =>
  if h : i.val < 15 then buf ⟨i, by omega⟩
  else if i = 15 then buf 17
  else if i = 16 then buf 16
  else buf 15

/-- `sigreturn_pending` and `sigreturn_frame` after `sys_sigreturn`. -/
def sigreturnPending (buf : Fin 20 → BitVec 64) (s : System) : Option (Fin 18 → BitVec 64) :=
  match s.current with
  | none => none
  | some (_, q) => if q.sigframeRsp = 0 then none else some (sigreturnFrame buf)

section Layout

variable (saved : SyscallSavedState) (g : Fin 18 → BitVec 64) (buf : Fin 20 → BitVec 64)
  (pending : Option (Fin 18 → BitVec 64)) (rax : BitVec 64)

@[simp] theorem exitOrBlock_cs : (exitOrBlock saved pending rax).cs = 0x23#64 := by
  cases pending <;> rfl

@[simp] theorem exitOrBlock_ss : (exitOrBlock saved pending rax).ss = 0x1B#64 := by
  cases pending <;> rfl

@[simp] theorem exitOrBlock_none_rflags : (exitOrBlock saved none rax).rflags = 0x202#64 := rfl

@[simp] theorem exitOrBlock_some_rflags : (exitOrBlock saved (some g) rax).rflags = g 17 := rfl

@[simp] theorem exitOrBlock_some_rip : (exitOrBlock saved (some g) rax).rip = g 15 := rfl

@[simp] theorem exitOrBlock_some_userRsp : (exitOrBlock saved (some g) rax).userRsp = g 16 := rfl

@[simp] theorem exitOrBlock_some_regs (i : Fin 15) :
    (exitOrBlock saved (some g) rax).regs i = g (i.castLE (by decide)) := by
  fin_cases i <;> rfl

/-- **The three layouts compose to the identity** on registers, instruction pointer, stack pointer
and flags. -/
theorem exitOrBlock_signalFrame (f : InterruptFrame) (sig : Fin 32) (mask : BitVec 64) :
    (exitOrBlock saved (some (sigreturnFrame (signalFrame f sig mask))) rax).SameContext f := by
  refine ⟨funext fun i => ?_, rfl, rfl, rfl⟩
  rw [exitOrBlock_some_regs]
  simp [sigreturnFrame, signalFrame, i.isLt]

end Layout

/-- Interrupts are on, and the I/O privilege level is 0. -/
def SafeFlags (rflags : BitVec 64) : Prop :=
  rflags.getLsbD 9 = true ∧ rflags.getLsbD 12 = false ∧ rflags.getLsbD 13 = false

instance (rflags : BitVec 64) : Decidable (SafeFlags rflags) := inferInstanceAs (Decidable (_ ∧ _))

/-- **The flags after `sigreturn`.**  The frame that `sys_sigreturn` and `.exit_or_block` build always
has the user selectors; its flags have interrupts on and I/O privilege level 0 iff the current process
has no signal frame, or the flags in its signal frame are so. -/
theorem sigreturn_flags {s : System} {i : Fin 64} {q : Process} (hcur : s.current = some (i, q))
    (buf : Fin 20 → BitVec 64) (rax : BitVec 64) :
    let frame := exitOrBlock s.syscallState (sigreturnPending buf s) rax
    (frame.cs = 0x23#64 ∧ frame.ss = 0x1B#64 ∧ SafeFlags frame.rflags) ↔
      (q.sigframeRsp ≠ 0 → SafeFlags (buf 15)) := by
  simp only [exitOrBlock_cs, exitOrBlock_ss, true_and, sigreturnPending, hcur]
  by_cases hframe : q.sigframeRsp = 0
  · have hsafe : SafeFlags 0x202#64 := by decide
    simp [hframe, hsafe]
  · have h15 : sigreturnFrame buf 17 = buf 15 := rfl
    simp [hframe, h15]

/-- Init is in its handler for `SIGUSR1`. -/
theorem usr1_handler :
    ∃ s i q, Run Step (startScheduler (spawnInit ⟨⟨0, 0, 0x3000, 0⟩, 0, 0, 0, 0⟩ ⟨0, none, true⟩))
      (usr1Events ++ [.irq 0 [] fun _ => ⟨true, 0x3000⟩]) s ∧ s.current = some (i, q) ∧
      q.sigframeRsp = 0x2f60 := by
  have hseen : ∃ s, Run Step
      (startScheduler (spawnInit ⟨⟨0, 0, 0x3000, 0⟩, 0, 0, 0, 0⟩ ⟨0, none, true⟩))
      (usr1Events ++ [.irq 0 [] fun _ => ⟨true, 0x3000⟩]) s ∧
      ∃ r, s.current = some r ∧ r.2.sigframeRsp = 0x2f60 := by
    decide +kernel
  obtain ⟨s, hrun, ⟨i, q⟩, hcur, hq⟩ := hseen
  exact ⟨s, i, q, hrun, hcur, hq⟩

/-- With unchanged flags, the handler returns with safe flags. -/
theorem sigreturn_flags_usr1 :
    ∃ s i q, Run Step (startScheduler (spawnInit ⟨⟨0, 0, 0x3000, 0⟩, 0, 0, 0, 0⟩ ⟨0, none, true⟩))
        (usr1Events ++ [.irq 0 [] fun _ => ⟨true, 0x3000⟩]) s ∧ s.current = some (i, q) ∧
      (q.sigframeRsp ≠ 0 ∧ SafeFlags 0x202#64) ∧
      SafeFlags (exitOrBlock s.syscallState (sigreturnPending (fun _ => 0x202#64) s) 0#64).rflags := by
  obtain ⟨s, i, q, hrun, hcur, hq⟩ := usr1_handler
  have hsafe : SafeFlags 0x202#64 := by decide
  have hiff := sigreturn_flags hcur (fun _ => 0x202#64) 0#64
  exact ⟨s, i, q, hrun, hcur, ⟨by rw [hq]; decide, hsafe⟩, (hiff.mpr fun _ => hsafe).2.2⟩

/-- **`sigreturn` gives I/O privilege**: the handler stores flags with interrupts off and I/O privilege
level 3 in the signal frame, and returns. -/
theorem sigreturn_raises_iopl :
    ∃ s i q, Run Step (startScheduler (spawnInit ⟨⟨0, 0, 0x3000, 0⟩, 0, 0, 0, 0⟩ ⟨0, none, true⟩))
        (usr1Events ++ [.irq 0 [] fun _ => ⟨true, 0x3000⟩]) s ∧ s.current = some (i, q) ∧
      q.sigframeRsp ≠ 0 ∧
      (exitOrBlock s.syscallState (sigreturnPending (fun _ => 0x3002#64) s) 0#64).rflags = 0x3002#64 ∧
      ¬ SafeFlags
        (exitOrBlock s.syscallState (sigreturnPending (fun _ => 0x3002#64) s) 0#64).rflags := by
  obtain ⟨s, i, q, hrun, hcur, hq⟩ := usr1_handler
  have hframe : q.sigframeRsp ≠ 0 := by
    rw [hq]
    decide
  have hflags : (exitOrBlock s.syscallState (sigreturnPending (fun _ => 0x3002#64) s) 0#64).rflags =
      0x3002#64 := by
    simp only [sigreturnPending, hcur, hframe, ↓reduceIte]
    rfl
  refine ⟨s, i, q, hrun, hcur, hframe, hflags, ?_⟩
  rw [hflags]
  decide

end Vibix.Proc
