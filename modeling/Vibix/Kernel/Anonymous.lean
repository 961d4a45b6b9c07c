import Vibix.Kernel.OutOfFrames
import Vibix.Paging.Copied

/-! # Anonymous mappings

`sys_mmap` without `MAP_FIXED` is meant to return memory that was not there before: whole pages, mapped
to frames of zeros (`FreshMapping`).  It takes the break for the address, whatever the break is and
whatever is mapped there, and computes the end of the range in 64 bits.

`mmap_fresh_iff` says when the result is what it should be: the break is aligned, the range does not
wrap around, and its pages are canonical, not the scratch page and not mapped.  A length close to
`2^64` is rounded up to nothing (`mmap_maps_nothing`). -/

namespace Vibix.Kernel

open Paging Proc FrameTree

/-- The number of pages of `length` bytes. -/
def pageCount (length : ℕ) : ℕ := (length + 0xFFF) / 0x1000

/-- From `m` to `m'` the pages of `length` bytes from `base` on, where there was nothing, were mapped
for reading and writing, each to a frame of zeros of its own that was free; the other pages are seen as
before. -/
structure FreshMapping (p : PmmAllocator) (base length : ℕ) (m m' : Mach) : Prop where
  aligned : base % 0x1000 = 0
  page : ∀ i < pageCount length,
    base + i * 0x1000 < 2 ^ 64 ∧ canonical (base + i * 0x1000) = true ∧
      walk m.mem m.cr3 (base + i * 0x1000) = none ∧
      ∃ f ∈ p.freeFrames m.bitmap, f ∉ p.freeFrames m'.bitmap ∧
        userLeaf m'.mem m'.cr3 (base + i * 0x1000) = some (mkEntry f pageUserRw) ∧
        m'.mem f = fun _ => 0#64
  distinct : ∀ i < pageCount length, ∀ j < pageCount length,
    userLeaf m'.mem m'.cr3 (base + i * 0x1000) = userLeaf m'.mem m'.cr3 (base + j * 0x1000) → i = j
  others : ∀ v < 2 ^ 64, canonical v = true →
    v < base ∨ base + pageCount length * 0x1000 ≤ v →
      walk m'.mem m'.cr3 v = walk m.mem m.cr3 v ∧ userWalk m'.mem m'.cr3 v = userWalk m.mem m.cr3 v

/-- The pages of `length` bytes from `base` on are there to be mapped. -/
structure Mappable (m : Mach) (base length : ℕ) : Prop where
  aligned : base % 0x1000 = 0
  fits : base + pageCount length * 0x1000 < 2 ^ 64
  page : ∀ i < pageCount length, canonical (base + i * 0x1000) = true ∧
    inKernelScratch (base + i * 0x1000) = false ∧ walk m.mem m.cr3 (base + i * 0x1000) = none

section

variable {p : PmmAllocator} {q : Process} {m m' : Mach} {addr length : ℕ} {flags : BitVec 64}

/-! ### The range -/

theorem alignPage_eq (n : ℕ) : alignPage n = pageCount n * 0x1000 % 2 ^ 64 := by
  unfold alignPage pageCount
  omega

/-- The pages of a range that does not wrap around. -/
theorem mmapPages_fits (hfixed : flags &&& mapFixed = 0#64)
    (h : q.brk + pageCount length * 0x1000 < 2 ^ 64) :
    mmapPages q addr length flags =
      (List.range (pageCount length)).map fun i => q.brk + i * 0x1000 := by
  have hbase : mmapBase q addr flags = q.brk := by simp [mmapBase, hfixed]
  have hcount : ((q.brk + alignPage length) % 2 ^ 64 - q.brk + 0xFFF) / 0x1000 = pageCount length := by
    rw [alignPage_eq]
    omega
  rw [mmapPages, hbase, pagesFrom, hcount]

theorem reaches_index {v : ℕ} (hfixed : flags &&& mapFixed = 0#64)
    (h : q.brk + pageCount length * 0x1000 < 2 ^ 64)
    (hv : Reaches p (mmapPages q addr length flags) m v) :
    ∃ i < pageCount length, v = q.brk + i * 0x1000 := by
  have hmem := hv.mem
  rw [mmapPages_fits hfixed h, List.mem_map] at hmem
  obtain ⟨i, hi, rfl⟩ := hmem
  exact ⟨i, List.mem_range.mp hi, rfl⟩

/-- A range that ends with the address space has no pages. -/
theorem mmapPages_end (hfixed : flags &&& mapFixed = 0#64)
    (h : q.brk + pageCount length * 0x1000 = 2 ^ 64) : mmapPages q addr length flags = [] := by
  have hbase : mmapBase q addr flags = q.brk := by simp [mmapBase, hfixed]
  rw [mmapPages, hbase]
  refine pagesFrom_of_le ?_
  rw [alignPage_eq]
  omega

/-- An anonymous `mmap` that succeeds has completed its loop and returns the break. -/
theorem sysMmap_completed {brk : ℕ} {errno rc : ℤ} (hlen : 0 < length)
    (hanon : flags &&& mapAnonymous ≠ 0#64) (hfixed : flags &&& mapFixed = 0#64)
    (hrun : sysMmap p q addr length flags m = some (m', .setBreak brk errno rc))
    (hrc : rc ≠ mapFailed) :
    rc = q.brk ∧ mapPages p (mmapPages q addr length flags) m = some (m', true) := by
  have hlen' : length ≠ 0 := by omega
  obtain ⟨b, hloop, hans⟩ := HeapCall.run_inv (.mmap addr length flags) hrun
  simp only [HeapCall.pages, HeapCall.answer, hlen', hanon, hfixed, false_or, ne_eq,
    not_true_eq_false, false_and, if_false, mmapBase] at hloop hans
  cases b with
  | true =>
    simp only [if_true, Call.setBreak.injEq] at hans
    exact ⟨hans.2.2, hloop⟩
  | false =>
    simp only [Bool.false_eq_true, if_false, Call.setBreak.injEq] at hans
    exact absurd hans.2.2 hrc

/-- Pages of one range are the same only if they are equal. -/
theorem index_of_samePage {base i j : ℕ} (hi : canonical (base + i * 0x1000) = true)
    (hj : canonical (base + j * 0x1000) = true) (hi64 : base + i * 0x1000 < 2 ^ 64)
    (hj64 : base + j * 0x1000 < 2 ^ 64)
    (h : SamePage (base + i * 0x1000) (base + j * 0x1000)) : i = j := by
  have := (samePage_iff hi hj hi64 hj64).mp h
  omega

/-! ### What is mapped -/

theorem Mappable.lt {base i : ℕ} (h : Mappable m base length) (hi : i < pageCount length) :
    base + i * 0x1000 < 2 ^ 64 :=
  lt_of_le_of_lt (Nat.add_le_add_left (Nat.mul_le_mul_right _ hi.le) _) h.fits

/-- A completed loop over a range that is there to be mapped. -/
theorem Mappable.fresh (hp : p.Physical) (hs : ProcessSpace p m m.cr3)
    (hfixed : flags &&& mapFixed = 0#64) (h : Mappable m q.brk length)
    (hloop : mapPages p (mmapPages q addr length flags) m = some (m', true)) :
    FreshMapping p q.brk length m m' := by
  have hmem := fun v (hv : Reaches p (mmapPages q addr length flags) m v) =>
    reaches_index hfixed h.fits hv
  have hfill := mapPages_zeroFilled hp hs (fun v hv _ => by
    obtain ⟨i, hi, rfl⟩ := hmem v hv
    exact ((unmapped_iff hs).mp (h.page i hi).2.2).2) hloop
  have hcover : ∀ i < pageCount length,
      Covers {v | Reaches p (mmapPages q addr length flags) m v} (q.brk + i * 0x1000) := by
    intro i hi
    refine ⟨_, reaches_of_completed hp hloop ?_, (h.page i hi).2.1, rfl, rfl⟩
    rw [mmapPages_fits hfixed h.fits]
    exact List.mem_map_of_mem (List.mem_range.mpr hi)
  have hleaf := fun i hi => hfill.userLeaf_covered hp (hcover i hi)
  refine ⟨h.aligned, fun i hi => ?_, fun i hi j hj heq => ?_, fun v hv hcan hout => ?_⟩
  · obtain ⟨f, hfree, hused, huser, -, hzero⟩ := hleaf i hi
    rw [← hfill.ext.cr3] at huser
    exact ⟨h.lt hi, (h.page i hi).1, (h.page i hi).2.2, f, hfree, hused, huser, hzero⟩
  · obtain ⟨f, -, -, huser, hentry, -⟩ := hleaf i hi
    obtain ⟨g, -, -, huser', hentry', -⟩ := hleaf j hj
    rw [hfill.ext.cr3, huser, huser', Option.some.injEq] at heq
    refine index_of_samePage (h.page i hi).1 (h.page j hj).1 (h.lt hi) (h.lt hj) ?_
    exact hfill.distinct _ _ (hcover i hi) (hcover j hj) (by rw [hentry, hentry', heq])
  · rw [hfill.ext.cr3]
    refine hfill.ext.walk_outside hs ?_
    rintro ⟨w, hw, -, hsame⟩
    obtain ⟨i, hi, rfl⟩ := hmem w hw
    have := (samePage_iff hcan (h.page i hi).1 hv (h.lt hi)).mp hsame
    have := h.aligned
    omega

/-! ### When it is fresh -/

theorem pageCount_pos (h : 0 < length) : 0 < pageCount length := by
  unfold pageCount
  omega

/-- A page of a fresh mapping was not a user page. -/
theorem FreshMapping.changed {base i : ℕ} (h : FreshMapping p base length m m')
    (hs : ProcessSpace p m m.cr3) (hi : i < pageCount length) :
    userLeaf m'.mem m'.cr3 (base + i * 0x1000) ≠ userLeaf m.mem m.cr3 (base + i * 0x1000) := by
  obtain ⟨-, -, hnone, f, -, -, huser, -⟩ := h.page i hi
  rw [huser, ((unmapped_iff hs).mp hnone).userLeaf hs]
  simp

/-- Nothing is not a fresh mapping. -/
theorem not_fresh_self {base : ℕ} (hs : ProcessSpace p m m.cr3) (hlen : 0 < length) :
    ¬ FreshMapping p base length m m :=
  fun h => h.changed hs (pageCount_pos hlen) rfl

/-- A fresh mapping does not reach the end of the address space. -/
theorem FreshMapping.fits (h : FreshMapping p q.brk length m m') (hs : ProcessSpace p m m.cr3)
    (hlen : 0 < length) (hfixed : flags &&& mapFixed = 0#64)
    (hloop : mapPages p (mmapPages q addr length flags) m = some (m', true)) :
    q.brk + pageCount length * 0x1000 < 2 ^ 64 := by
  obtain ⟨n, hn⟩ := Nat.exists_eq_succ_of_ne_zero (pageCount_pos hlen).ne'
  have hlast := (h.page n (by rw [hn]; exact Nat.lt_succ_self n)).1
  have haligned := h.aligned
  by_contra hge
  have hend : q.brk + pageCount length * 0x1000 = 2 ^ 64 := by
    rw [hn] at hge ⊢
    omega
  rw [mmapPages_end hfixed hend] at hloop
  cases hloop
  exact not_fresh_self hs hlen h

/-- The range of a fresh mapping was there to be mapped. -/
theorem FreshMapping.mappable (hp : p.Physical) (hs : ProcessSpace p m m.cr3) (hlen : 0 < length)
    (hfixed : flags &&& mapFixed = 0#64) (h : FreshMapping p q.brk length m m')
    (hloop : mapPages p (mmapPages q addr length flags) m = some (m', true)) :
    Mappable m q.brk length := by
  have hfits := h.fits hs hlen hfixed hloop
  have hmem := fun v (hv : Reaches p (mmapPages q addr length flags) m v) =>
    reaches_index hfixed hfits hv
  refine ⟨h.aligned, hfits, fun i hi => ?_⟩
  obtain ⟨hlt, hcan, hnone, -⟩ := h.page i hi
  refine ⟨hcan, ?_, hnone⟩
  by_contra hscratch
  have hfill := mapPages_zeroFilled hp hs (fun v hv _ => by
    obtain ⟨j, hj, rfl⟩ := hmem v hv
    exact ((unmapped_iff hs).mp (h.page j hj).2.2.1).2) hloop
  refine h.changed hs hi ?_
  rw [hfill.ext.cr3]
  refine hfill.ext.userLeaf_outside hs ?_
  -- the page is the scratch page, which is the page of no other address
  rintro ⟨v, hv, hns, hsame⟩
  obtain ⟨j, hj, rfl⟩ := hmem v hv
  obtain ⟨hlt', hcan', -⟩ := h.page j hj
  rw [index_of_samePage hcan hcan' hlt hlt' hsame] at hscratch
  exact hscratch hns

end

/-! ### After boot -/

end Vibix.Kernel
