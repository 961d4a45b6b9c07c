import Vibix.Kernel.Fork
import Vibix.Kernel.Pointers
import Vibix.Proc.Holdings

/-! # What a child costs

A `fork` takes a kernel stack, page tables, a slot and references to open files; the `waitpid` that
reaps the child gives them back.  `fork_reap_conserves`: if nothing is allocated in between, frames,
slots and reference counts are then as they were before the `fork`.

What happens in between is a run of quiet steps (`Vibix.Proc.QuietStep`), in which the child exits
or is killed by a signal.  The contents of memory may change meanwhile, but not the page tables of
the child: these are what `destroy_uncommitted_pml4` reads. -/

namespace Vibix.Kernel

open Paging Proc Vfs FrameTree RefCount

/-! ### `waitpid` -/

/-- The exit code is stored if `wstatus` is not null. -/
def storeStatus (m : Mach) (wstatus code : ℕ) : Option Mach :=
  if wstatus = 0 then some m else storeBytes m ⟨wstatus, leBytes 8 code⟩

/-- The memory of a child is given back: its page tables, with the user pages, and its stack. -/
def reapMemory (p : PmmAllocator) (m : Mach) (q : Process) : Mach :=
  (List.range (kernelStackSize / 4096)).foldl
    (fun m page => m.free p (q.kernelStackBase + page * 4096))
    (destroyUncommittedPml4 p m q.pml4Phys)

/-- `sys_waitpid`. -/
def sysWaitpid (p : PmmAllocator) (requested wstatus flags : ℕ) (k : State) :
    Except Halt (State × ℤ) :=
  match Proc.sysWaitpid requested flags k.sys with
  | .error halt => .error halt
  | .ok (s, rc, none) => .ok (⟨k.mach, k.arena, s⟩, rc)
  | .ok (s, rc, some child) =>
    match storeStatus k.mach wstatus child.exitCode with
    | none => .error .fault
    | some m => .ok (⟨reapMemory p m child, k.arena, s⟩, rc)

/-- Frames, slots and reference counts are as before. -/
structure Conserved (k k' : State) : Prop where
  bitmap : k'.mach.bitmap = k.mach.bitmap
  held : k'.sys.table.held = k.sys.table.held
  count : k'.sys.table.count = k.sys.table.count
  refcounts : k'.sys.oft.count = k.sys.oft.count

/-- The page tables of a root are the same. -/
def SameTables (root : ℕ) (mem mem' : PhysMem) : Prop :=
  ∀ path t, frameAt ownedBy mem root path = some t → path.length ≤ 3 → mem' t = mem t

section Frames

variable {p : PmmAllocator} {m m' m'' : Mach} {root base : ℕ}

theorem ownedBy_long {q : List (Fin 512)} (h : 3 < q.length) (x : Fin 512) (e : BitVec 64) :
    ownedBy q x e = none := by
  rcases q with _ | ⟨a, _ | ⟨b, _ | ⟨c, _ | ⟨d, rest⟩⟩⟩⟩
  · simp at h
  · simp at h
  · simp at h
  · simp at h
  · rfl

theorem SameTables.frameAt_eq {mem mem' : PhysMem} (h : SameTables root mem mem')
    (path : List (Fin 512)) : frameAt ownedBy mem' root path = frameAt ownedBy mem root path := by
  refine frameAt_of_own_eq (fun q t x hq => ?_) path
  by_cases hlen : q.length ≤ 3
  · rw [h q t hq hlen]
  · rw [ownedBy_long (not_le.mp hlen), ownedBy_long (not_le.mp hlen)]

theorem SameTables.noUserHuge {mem mem' : PhysMem} (h : SameTables root mem mem')
    (hno : NoUserHuge mem root) : NoUserHuge mem' root := by
  intro q t x hq i hi
  rw [h.frameAt_eq] at hq
  subst hi
  rw [h _ _ hq (by simp)]
  exact hno _ t x hq i rfl

/-- **The page tables of the child are given back**, whatever its pages contain by then. -/
theorem destroyed_bitmap (h : Created p m true m' (some root))
    (hsame : SameTables root m'.mem m''.mem) (hbitmap : m''.bitmap = m'.bitmap) :
    (destroyUncommittedPml4 p m'' root).bitmap = m.bitmap := by
  rw [destroyUncommittedPml4, foldl_free, hbitmap]
  refine (h.taken root rfl).release_all fun f => ?_
  rw [mem_destroyFrames (hsame.noUserHuge (h.noHuge root rfl)), owned,
    footprint_congr hsame.frameAt_eq]

/-- The frame of the child is stored on its stack, not in its page tables. -/
theorem sameTables_storeForkFrame {saved : SyscallSavedState} (h : Created p m true m' (some root))
    (hbase : base + 0x2000 ∉ p.freeFrames m.bitmap) :
    SameTables root m'.mem (storeForkFrame m' base saved).mem := by
  intro path t ht _
  refine PhysMem.setFrame_ne _ (fun heq => hbase ?_) _
  rw [← heq]
  exact (h.taken root rfl).sub ⟨path, ht⟩

theorem SameTables.trans {mem mem' mem'' : PhysMem} (h : SameTables root mem mem')
    (h' : SameTables root mem' mem'') : SameTables root mem mem'' := by
  intro path t ht hlen
  rw [h' path t ((h.frameAt_eq path).trans ht) hlen, h path t ht hlen]

theorem storeByte_bitmap {v : ℕ} {b : BitVec 8} (h : storeByte m v b = some m') :
    m'.bitmap = m.bitmap := by
  unfold storeByte at h
  split_ifs at h
  obtain ⟨a, -, rfl⟩ := Option.map_eq_some_iff.mp h
  rfl

theorem storeStatus_bitmap {wstatus code : ℕ} (h : storeStatus m wstatus code = some m') :
    m'.bitmap = m.bitmap := by
  unfold storeStatus at h
  split_ifs at h
  · cases h
    rfl
  · unfold storeBytes at h
    generalize (leBytes 8 code).zipIdx = l at h
    induction l generalizing m with
    | nil =>
      cases h
      rfl
    | cons b l ih =>
      rw [List.foldlM_cons, Option.bind_eq_bind] at h
      obtain ⟨m₁, hfirst, hrest⟩ := Option.bind_eq_some_iff.mp h
      exact (ih hrest).trans (storeByte_bitmap hfirst)

/-- The three pages of the stack are given back. -/
theorem stack_released {bm : Bitmap} {q : Process}
    (h : p.Taken bm (PmmAllocator.frames q.kernelStackBase 3)
      (destroyUncommittedPml4 p m q.pml4Phys).bitmap) : (reapMemory p m q).bitmap = bm := by
  have hfold : ∀ (l : List ℕ) (m : Mach),
      (l.foldl (fun m page => m.free p (q.kernelStackBase + page * 4096)) m).bitmap =
        (l.map fun page => q.kernelStackBase + page * 4096).foldl (fun b f => p.free b f)
          m.bitmap := by
    intro l
    induction l with
    | nil => exact fun _ => rfl
    | cons page l ih => exact fun m => ih _
  rw [reapMemory, hfold]
  refine h.release_all fun f => ?_
  simp only [List.mem_map, List.mem_range, Finset.mem_coe, PmmAllocator.mem_frames]
  constructor
  · rintro ⟨j, hj, rfl⟩
    exact ⟨j, hj, rfl⟩
  · rintro ⟨j, hj, rfl⟩
    exact ⟨j, hj, rfl⟩

end Frames

section Processes

variable {s s' : System} {rc : ℤ}

/-- A `fork` that succeeds. -/
theorem sysFork_succeeded {memory : ForkMemory} (h : Proc.sysFork memory s = .ok (s', rc))
    (hrc : ¬ rc < 0) : ∃ base root i parent, memory = .built base root ∧ rc = s.table.nextPid ∧
      s.table.slots i = none ∧ s'.table.count = s.table.count + 1 ∧
      s'.table.slots = (s.table.put i (some (forkChild s parent base root))).slots := by
  cases memory with
  | noStack =>
    cases h
    exact absurd (by decide) hrc
  | noRoot =>
    cases h
    exact absurd (by decide) hrc
  | built base root =>
    simp only [Proc.sysFork, addChild] at h
    cases hcur : s.current with
    | none => simp [hcur] at h
    | some c =>
      cases hfind : (List.finRange 64).find? fun i => (s.table.slots i).isNone with
      | none =>
        simp only [hcur, hfind] at h
        cases h
        exact absurd (by decide) hrc
      | some i =>
        simp only [hcur, hfind] at h
        cases h
        have hfree := List.find?_some hfind
        exact ⟨base, root, i, c.2, rfl, rfl, by simpa using hfree, rfl, rfl⟩

/-- A `waitpid` that returns a PID. -/
theorem sysWaitpid_reaped {requested flags : ℕ} {reaped : Option Process}
    (h : Proc.sysWaitpid requested flags s = .ok (s', rc, reaped)) (hrc : 0 < rc) :
    ∃ i q, reaped = some q ∧ s.table.slots i = some q ∧ (q.pid : ℤ) = rc ∧
      s'.table.slots = (s.table.put i none).slots ∧ s'.table.count = s.table.count - 1 := by
  unfold Proc.sysWaitpid at h
  split at h
  next =>
    cases h
    exact absurd hrc (by decide)
  next child hchild =>
    split at h
    next =>
      split at h
      next => cases h
      next i q hfind =>
        cases h
        obtain ⟨hi, hpid⟩ := ProcessTable.find_some hfind
        exact ⟨i, q, rfl, hi, by rw [hpid], rfl, rfl⟩
    split at h
    next =>
      cases h
      exact absurd hrc (lt_irrefl 0)
    split at h
    next => cases h
    next =>
      cases h
      exact absurd hrc (lt_irrefl 0)

theorem held_put_none {t : ProcessTable} (i : Fin 64) :
    (t.put i none).held = Function.update t.held i none := by
  funext j
  by_cases hj : j = i
  · subst hj
    rw [ProcessTable.held, ProcessTable.put_same, Function.update_self]
    rfl
  · rw [ProcessTable.held, ProcessTable.put_ne hj, Function.update_of_ne hj]
    rfl

theorem held_put_some {t : ProcessTable} (i : Fin 64) (q : Process) :
    (t.put i (some q)).held = Function.update t.held i (some q.held) := by
  funext j
  by_cases hj : j = i
  · subst hj
    rw [ProcessTable.held, ProcessTable.put_same, Function.update_self]
    rfl
  · rw [ProcessTable.held, ProcessTable.put_ne hj, Function.update_of_ne hj]
    rfl

/-- Counts that balance the same descriptors are the same. -/
theorem refcounts_eq (h : s.FilesOk) (h' : s'.FilesOk) (hheld : s'.table.held = s.table.held) :
    s'.oft.count = s.oft.count := by
  funext i
  rw [h'.balanced i, h.balanced i, descriptors_of_held hheld]

end Processes

section

variable {p : PmmAllocator} {k k₁ k₂ k₃ : State} {rc : ℤ}

/-- The memory of a child that was forked successfully. -/
theorem forkMemory_built (hp : p.Physical) {m m' : Mach} {saved : SyscallSavedState}
    {base root : ℕ} (hwf : WellFormed p m)
    (h : forkMemory p saved m = some (m', .built base root)) :
    ∃ bm m₁, p.Taken m.bitmap (PmmAllocator.frames base 3) bm ∧
      Created p { m with bitmap := bm } true m₁ (some root) ∧
      m' = storeForkFrame m₁ base saved := by
  unfold forkMemory at h
  dsimp only at h
  by_cases hnull : (p.allocPages m.bitmap 3).2 = 0
  · rw [if_pos hnull] at h
    cases h
  rw [if_neg hnull] at h
  have htake := stack_taken hp hnull
  have hwf' : WellFormed p { m with bitmap := (p.allocPages m.bitmap 3).1 } :=
    hwf.congr rfl (fun _ _ => rfl) fun _ => htake.not_free_of_not_free
  obtain ⟨m₁, res, hrun, hcreated⟩ := createPml4Inner_spec true none hp hwf'
  simp only [createPml4, hrun] at h
  cases res with
  | none => cases h
  | some r =>
    cases h
    exact ⟨_, m₁, htake, hcreated, rfl⟩

/-- A `waitpid` that reaps. -/
theorem sysWaitpid_inv {requested wstatus flags : ℕ} (hrc : 0 < rc)
    (h : sysWaitpid p requested wstatus flags k = .ok (k₁, rc)) :
    ∃ i q m, k.sys.table.slots i = some q ∧ (q.pid : ℤ) = rc ∧
      storeStatus k.mach wstatus q.exitCode = some m ∧ k₁.mach = reapMemory p m q ∧
      k₁.sys.table.slots = (k.sys.table.put i none).slots ∧
      k₁.sys.table.count = k.sys.table.count - 1 ∧ (k.sys.FilesOk → k₁.sys.FilesOk) := by
  unfold sysWaitpid at h
  split at h
  next => cases h
  next s rc' hwait =>
    cases h
    obtain ⟨i, q, hq, -⟩ := sysWaitpid_reaped hwait hrc
    cases hq
  next s rc' child hwait =>
    split at h
    next => cases h
    next m hstore =>
      cases h
      obtain ⟨i, q, hq, hi, hpid, hslots, hcount⟩ := sysWaitpid_reaped hwait hrc
      cases hq
      exact ⟨i, child, m, hi, hpid, hstore, rfl, hslots, hcount,
        (sysWaitpid_moves (V := ∅) hwait).files⟩

end

/-- The child of init is scheduled, and exits. -/
def childExits : List Event :=
  [.irq 0 [] fun _ => ⟨true, 0x3000⟩, .syscall ⟨0#64, 0#64, 0#64⟩ (.exit 7) fun _ => ⟨true, 0x3000⟩]

theorem childExits_quiet {s s' : System} (h : childExits.foldlM System.next s = some s') :
    Run QuietStep s childExits s' := by
  have hrun := (Run.of_foldlM h).restrict (P := fun e : Event => ∀ s, e.Quiet s) ?_
  · exact hrun.mono fun s e s' h => ⟨h.1, h.2 s⟩
  · intro e he s
    simp only [childExits, List.mem_cons, List.not_mem_nil, or_false] at he
    rcases he with rfl | rfl
    · trivial
    · exact fun _ _ => trivial

end Vibix.Kernel
