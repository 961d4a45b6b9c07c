import Vibix.Lib.Run
import Vibix.Lib.WordBitmap

/-! # The physical memory manager

The bitmap allocator of `pmm.rs`.  One bit per 4 KiB page, `1` for used; page `i` is the frame
at `memory_start + i * 4096`.  Addresses are natural numbers and every `usize` computation that
can leave the 64-bit range is reduced modulo `2 ^ 64`, as in the release build.

* **The code.** `PmmAllocator` holds the two fields of the source (the bound on `total_pages`
  that both initialisers establish is a field of the structure); the bitmap is a separate
  argument because all allocators share the one static `PMM_BITMAP`.  `alloc`, `allocPages`,
  `free`, `reserve`, `initRegion`, `init`, `initAllUsed` follow the source; a null pointer
  is `0`, and `none` is the bounds-check panic of `reserve` and `init_region`.
* **The abstraction.** `freeFrames p bm` is the set of frame addresses the allocator can still
  hand out.  `alloc_spec`, `free_spec` and `allocPages_spec` say what the three operations do
  to this set; `bitmap_ext` says that the set, with the bits outside the managed range,
  determines the bitmap.  Only `Vibix.PmmPages` looks at single bits again.
* **Runs.** `PmmSystem` has the two allocator values that exist at run time, the boot-time local
  and `GLOBAL_PMM`, over the one bitmap, with a ghost list of the allocations handed out.
  `Exclusive` is kept by every step of every run. -/

namespace Vibix

/-- `PMM_PAGE_SIZE`. -/
def pmmPageSize : ℕ := 4096

/-- `PMM_MAX_PAGES`. -/
def pmmMaxPages : ℕ := 0x10000

/-- `BITMAP_SIZE`, in bytes. -/
def bitmapSize : ℕ := pmmMaxPages / 8

/-- The type of the static `PMM_BITMAP`. -/
abbrev Bitmap := WordBitmap 8 bitmapSize

/-- `PmmAllocator`. -/
structure PmmAllocator where
  totalPages : ℕ
  memoryStart : ℕ
  total_le : totalPages ≤ pmmMaxPages

namespace PmmAllocator

/-- `PmmAllocator::new`. -/
def new : PmmAllocator := ⟨0, 0, Nat.zero_le _⟩

/-- The configuration both initialisers store: the number of whole pages of the region,
capped at what the bitmap can track.  The subtraction wraps. -/
def overRegion (memoryStart memoryEnd : ℕ) : PmmAllocator where
  totalPages := min ((memoryEnd + 2 ^ 64 - memoryStart) % 2 ^ 64 / pmmPageSize) pmmMaxPages
  memoryStart := memoryStart
  total_le := Nat.min_le_right _ _

/-- `init`: everything free but the first four pages. -/
def init (memoryStart memoryEnd : ℕ) : PmmAllocator × Bitmap :=
  (overRegion memoryStart memoryEnd, (List.range 4).foldl (fun bm i => bm.set i)
    (WordBitmap.fill 0#8))

/-- `init_all_used`: everything used. -/
def initAllUsed (memoryStart memoryEnd : ℕ) : PmmAllocator × Bitmap :=
  (overRegion memoryStart memoryEnd, WordBitmap.fill 0xFF#8)

/-- The address of page `i`. -/
def frame (self : PmmAllocator) (i : ℕ) : ℕ := (self.memoryStart + i * pmmPageSize) % 2 ^ 64

/-- `alloc`: the first page whose bit is clear, or null. -/
def alloc (self : PmmAllocator) (bm : Bitmap) : Bitmap × ℕ :=
  match (List.range self.totalPages).find? (fun i => !bm.test i) with
  | some i => (bm.set i, self.frame i)
  | none => (bm, 0)

/-- `free`: addresses below the region or past the bitmap are ignored. -/
def free (self : PmmAllocator) (bm : Bitmap) (ptr : ℕ) : Bitmap :=
  if ptr < self.memoryStart then bm
  else if pmmMaxPages ≤ (ptr - self.memoryStart) / pmmPageSize then bm
  else bm.clear ((ptr - self.memoryStart) / pmmPageSize)

/-- The address `first + j * PMM_PAGE_SIZE`. -/
def pageAfter (first j : ℕ) : ℕ := (first + j * pmmPageSize) % 2 ^ 64

/-- Free the pages `first + j * PMM_PAGE_SIZE`, `j < i`. -/
def freePages (self : PmmAllocator) (bm : Bitmap) (first i : ℕ) : Bitmap :=
  (List.range i).foldl (fun b j => self.free b (pageAfter first j)) bm

/-- The loop of `alloc_pages`: `n` pages to go, `i` pages from `first` already taken. -/
def allocPagesFrom (self : PmmAllocator) (first : ℕ) : ℕ → ℕ → Bitmap → Bitmap × ℕ
  | 0, _, bm => (bm, first)
  | n + 1, i, bm =>
    let r := self.alloc bm
    if r.2 = 0 ∨ r.2 ≠ pageAfter first i then
      (self.freePages (if r.2 = 0 then r.1 else self.free r.1 r.2) first i, 0)
    else allocPagesFrom self first n (i + 1) r.1

/-- `alloc_pages`: `count` contiguous pages, or null with everything taken given back. -/
def allocPages (self : PmmAllocator) (bm : Bitmap) (count : ℕ) : Bitmap × ℕ :=
  match count with
  | 0 => (bm, 0)
  | n + 1 =>
    let r := self.alloc bm
    if r.2 = 0 then (r.1, 0) else self.allocPagesFrom r.2 n 1 r.1

/-- The inclusive page range `start_page ..= end_page` that `reserve` and `init_region` visit. -/
def regionPages (self : PmmAllocator) (base size : ℕ) : List ℕ :=
  let startPage := (base - self.memoryStart) / pmmPageSize
  let endPage :=
    if size = 0 then startPage
    else min ((base - self.memoryStart + size - 1) % 2 ^ 64 / pmmPageSize) (pmmMaxPages - 1)
  List.range' startPage (endPage + 1 - startPage)

/-- The common body of `reserve` and `init_region`: update the bit of each page of the region;
`none` is the bounds-check panic. -/
def updateRegion (self : PmmAllocator) (update : Bitmap → ℕ → Bitmap) (bm : Bitmap)
    (base size : ℕ) : Option Bitmap :=
  if base < self.memoryStart then some bm
  else (self.regionPages base size).foldlM
    (fun b i => if i < pmmMaxPages then some (update b i) else none) bm

/-- `reserve`. -/
def reserve (self : PmmAllocator) (bm : Bitmap) (base size : ℕ) : Option Bitmap :=
  self.updateRegion WordBitmap.set bm base size

/-- `init_region`. -/
def initRegion (self : PmmAllocator) (bm : Bitmap) (base size : ℕ) : Option Bitmap :=
  self.updateRegion WordBitmap.clear bm base size

/-- What boot leaves behind: one of the two initialisers over a region that does not end before
it starts, then any `reserve` and `init_region` calls. -/
inductive Initialised : PmmAllocator → Bitmap → Prop
  | init {lo hi : ℕ} : lo ≤ hi → hi < 2 ^ 64 → Initialised (init lo hi).1 (init lo hi).2
  | initAllUsed {lo hi : ℕ} : lo ≤ hi → hi < 2 ^ 64 →
      Initialised (initAllUsed lo hi).1 (initAllUsed lo hi).2
  | reserve {p : PmmAllocator} {bm bm' : Bitmap} {base size : ℕ} : Initialised p bm →
      p.reserve bm base size = some bm' → Initialised p bm'
  | initRegion {p : PmmAllocator} {bm bm' : Bitmap} {base size : ℕ} : Initialised p bm →
      p.initRegion bm base size = some bm' → Initialised p bm'

/-! ### Frames and the free set -/

/-- The managed region is page aligned, does not contain address `0`, and does not wrap. -/
structure Valid (p : PmmAllocator) : Prop where
  aligned : p.memoryStart % 4096 = 0
  pos : 0 < p.memoryStart
  fits : p.memoryStart + p.totalPages * 4096 < 2 ^ 64

/-- A valid region inside the 52-bit physical address space, so that every frame fits the
address field of a page-table entry. -/
structure Physical (p : PmmAllocator) : Prop extends p.Valid where
  top : p.memoryStart + p.totalPages * 4096 ≤ 2 ^ 52

/-- `f` is the address of a managed page. -/
def Managed (self : PmmAllocator) (f : ℕ) : Prop :=
  ∃ i, i < self.totalPages ∧ f = self.memoryStart + i * 4096

/-- The frames whose bit is clear. -/
def freeFrames (self : PmmAllocator) (bm : Bitmap) : Set ℕ :=
  {f | ∃ i, i < self.totalPages ∧ f = self.memoryStart + i * 4096 ∧ bm.test i = false}

/-- Two bitmaps agree on the bits no managed page has. -/
def SameOutside (self : PmmAllocator) (bm bm' : Bitmap) : Prop :=
  ∀ i, self.totalPages ≤ i → bm'.test i = bm.test i

/-- `count` consecutive frames from `base`. -/
def frames (base count : ℕ) : Finset ℕ := (Finset.range count).image fun j => base + j * 4096

theorem mem_frames {base count f : ℕ} :
    f ∈ frames base count ↔ ∃ j, j < count ∧ f = base + j * 4096 := by
  simp only [frames, Finset.mem_image, Finset.mem_range]
  constructor
  · rintro ⟨j, hj, rfl⟩
    exact ⟨j, hj, rfl⟩
  · rintro ⟨j, hj, rfl⟩
    exact ⟨j, hj, rfl⟩

@[simp] theorem frames_zero (base : ℕ) : frames base 0 = ∅ := by simp [frames]

theorem frames_succ (base n : ℕ) :
    frames base (n + 1) = insert (base + n * 4096) (frames base n) := by
  simp [frames, Finset.range_add_one, Finset.image_insert]

theorem frames_one (base : ℕ) : frames base 1 = {base} := by simp [frames]

section

variable {self : PmmAllocator} {bm bm' bm'' : Bitmap} {f g i : ℕ}

theorem index_lt (self : PmmAllocator) (hi : i < self.totalPages) : i < 8 * bitmapSize := by
  have h := self.total_le
  simp only [bitmapSize, pmmMaxPages] at h ⊢
  omega

theorem frame_eq (hv : self.Valid) (hi : i < self.totalPages) :
    self.frame i = self.memoryStart + i * 4096 := by
  have hfits := hv.fits
  have hlt : self.memoryStart + i * 4096 < 2 ^ 64 := by linarith
  exact Nat.mod_eq_of_lt hlt

theorem Managed.pos (hv : self.Valid) (hf : self.Managed f) : 0 < f := by
  obtain ⟨i, _, rfl⟩ := hf
  have := hv.pos
  omega

theorem Managed.aligned (hv : self.Valid) (hf : self.Managed f) : f % 4096 = 0 := by
  obtain ⟨i, _, rfl⟩ := hf
  have := hv.aligned
  omega

theorem Managed.lt (hf : self.Managed f) :
    f + 4096 ≤ self.memoryStart + self.totalPages * 4096 := by
  obtain ⟨i, hi, rfl⟩ := hf
  omega

theorem Managed.le (hf : self.Managed f) : self.memoryStart ≤ f := by
  obtain ⟨i, _, rfl⟩ := hf
  omega

theorem managed_of_mem_freeFrames (hf : f ∈ self.freeFrames bm) : self.Managed f := by
  obtain ⟨i, hi, hfi, _⟩ := hf
  exact ⟨i, hi, hfi⟩

theorem frame_mem_freeFrames (hi : i < self.totalPages) :
    self.memoryStart + i * 4096 ∈ self.freeFrames bm ↔ bm.test i = false := by
  constructor
  · rintro ⟨j, _, hj, hfree⟩
    have : i = j := by omega
    rwa [this]
  · intro hfree
    exact ⟨i, hi, rfl, hfree⟩

/-- The free set and the unmanaged bits determine the bitmap. -/
theorem bitmap_ext (hfree : self.freeFrames bm = self.freeFrames bm')
    (hout : self.SameOutside bm bm') : bm = bm' := by
  apply WordBitmap.ext_test (by norm_num)
  intro i _
  by_cases hi : i < self.totalPages
  · have h₁ : _ ∈ self.freeFrames bm ↔ _ := frame_mem_freeFrames hi
    have h₂ : _ ∈ self.freeFrames bm' ↔ _ := frame_mem_freeFrames hi
    rw [hfree, h₂] at h₁
    cases hb : bm.test i <;> cases hb' : bm'.test i <;> simp_all
  · exact (hout i (by omega)).symm

theorem SameOutside.refl (self : PmmAllocator) (bm : Bitmap) : self.SameOutside bm bm :=
  fun _ _ => rfl

theorem SameOutside.trans (h₁ : self.SameOutside bm bm') (h₂ : self.SameOutside bm' bm'') :
    self.SameOutside bm bm'' :=
  fun i hi => (h₂ i hi).trans (h₁ i hi)

theorem sameOutside_set (hi : i < self.totalPages) : self.SameOutside bm (bm.set i) := by
  intro j hj
  rw [WordBitmap.test_set bm j (by norm_num) (index_lt self hi)]
  simp [show j ≠ i by omega]

theorem sameOutside_clear (hi : i < self.totalPages) : self.SameOutside bm (bm.clear i) := by
  intro j hj
  rw [WordBitmap.test_clear bm j (by norm_num) (index_lt self hi)]
  simp [show j ≠ i by omega]

theorem freeFrames_set (hi : i < self.totalPages) :
    self.freeFrames (bm.set i) = self.freeFrames bm \ {self.memoryStart + i * 4096} := by
  ext f
  simp only [freeFrames, Set.mem_sdiff, Set.mem_ofPred_eq, Set.mem_singleton_iff]
  constructor
  · rintro ⟨j, hj, rfl, hfree⟩
    rw [WordBitmap.test_set bm j (by norm_num) (index_lt self hi)] at hfree
    simp only [Bool.or_eq_false_iff, decide_eq_false_iff_not] at hfree
    exact ⟨⟨j, hj, rfl, hfree.2⟩, by omega⟩
  · rintro ⟨⟨j, hj, rfl, hfree⟩, hne⟩
    refine ⟨j, hj, rfl, ?_⟩
    rw [WordBitmap.test_set bm j (by norm_num) (index_lt self hi)]
    simp [hfree, show j ≠ i by rintro rfl; exact hne rfl]

theorem freeFrames_clear (hi : i < self.totalPages) :
    self.freeFrames (bm.clear i) = insert (self.memoryStart + i * 4096) (self.freeFrames bm) := by
  ext f
  simp only [freeFrames, Set.mem_insert_iff, Set.mem_ofPred_eq]
  constructor
  · rintro ⟨j, hj, rfl, hfree⟩
    rw [WordBitmap.test_clear bm j (by norm_num) (index_lt self hi)] at hfree
    by_cases hji : j = i
    · exact Or.inl (by rw [hji])
    · simp only [hji, decide_false, Bool.not_false, Bool.true_and] at hfree
      exact Or.inr ⟨j, hj, rfl, hfree⟩
  · rintro (rfl | ⟨j, hj, rfl, hfree⟩)
    · refine ⟨i, hi, rfl, ?_⟩
      rw [WordBitmap.test_clear bm i (by norm_num) (index_lt self hi)]
      simp
    · refine ⟨j, hj, rfl, ?_⟩
      rw [WordBitmap.test_clear bm j (by norm_num) (index_lt self hi)]
      simp [hfree]

/-! ### What the operations do to the free set -/

/-- **Allocation**: null leaves the bitmap alone and means that no frame is free; otherwise a
free frame is taken out of the free set and nothing else changes. -/
theorem alloc_spec (self : PmmAllocator) (hv : self.Valid) (bm : Bitmap) :
    ((self.alloc bm).2 = 0 ∧ (self.alloc bm).1 = bm ∧ self.freeFrames bm = ∅) ∨
    ((self.alloc bm).2 ∈ self.freeFrames bm ∧
      self.freeFrames (self.alloc bm).1 = self.freeFrames bm \ {(self.alloc bm).2} ∧
      self.SameOutside bm (self.alloc bm).1) := by
  unfold alloc
  cases hfind : (List.range self.totalPages).find? (fun i => !bm.test i) with
  | none =>
    left
    refine ⟨rfl, rfl, ?_⟩
    rw [List.find?_eq_none] at hfind
    ext f
    simp only [Set.mem_empty_iff_false, iff_false]
    rintro ⟨i, hi, _, hfree⟩
    exact hfind i (List.mem_range.mpr hi) (by simp [hfree])
  | some i =>
    right
    obtain ⟨hfree, hmem, _⟩ := List.find?_range_eq_some.mp hfind
    have hi : i < self.totalPages := List.mem_range.mp hmem
    simp only [frame_eq hv hi]
    exact ⟨⟨i, hi, rfl, by simpa using hfree⟩, freeFrames_set hi, sameOutside_set hi⟩

theorem alloc_null (hv : self.Valid) (h : (self.alloc bm).2 = 0) :
    (self.alloc bm).1 = bm ∧ self.freeFrames bm = ∅ := by
  rcases alloc_spec self hv bm with ⟨_, h₁, h₂⟩ | ⟨hmem, _, _⟩
  · exact ⟨h₁, h₂⟩
  · have := (managed_of_mem_freeFrames hmem).pos hv
    omega

theorem alloc_some (hv : self.Valid) (h : (self.alloc bm).2 ≠ 0) :
    (self.alloc bm).2 ∈ self.freeFrames bm ∧
      self.freeFrames (self.alloc bm).1 = self.freeFrames bm \ {(self.alloc bm).2} ∧
      self.SameOutside bm (self.alloc bm).1 := by
  rcases alloc_spec self hv bm with ⟨h0, _, _⟩ | hsome
  · exact absurd h0 h
  · exact hsome

/-- **Freeing** a managed frame puts it back into the free set. -/
theorem free_spec (self : PmmAllocator) (bm : Bitmap) (hf : self.Managed f) :
    self.freeFrames (self.free bm f) = insert f (self.freeFrames bm) ∧
      self.SameOutside bm (self.free bm f) := by
  obtain ⟨i, hi, rfl⟩ := hf
  have hmax := self.total_le
  have hpage : (self.memoryStart + i * 4096 - self.memoryStart) / pmmPageSize = i := by
    unfold pmmPageSize
    omega
  have hfree : self.free bm (self.memoryStart + i * 4096) = bm.clear i := by
    unfold free
    rw [hpage, if_neg (by omega), if_neg (by omega)]
  rw [hfree]
  exact ⟨freeFrames_clear hi, sameOutside_clear hi⟩

/-! ### Taking and giving back sets of frames -/

/-- From `bm` to `bm'` exactly the frames `S`, all free in `bm`, were taken. -/
structure Taken (p : PmmAllocator) (bm : Bitmap) (S : Set ℕ) (bm' : Bitmap) : Prop where
  sub : S ⊆ p.freeFrames bm
  free : p.freeFrames bm' = p.freeFrames bm \ S
  outside : p.SameOutside bm bm'

theorem Taken.refl (p : PmmAllocator) (bm : Bitmap) : p.Taken bm ∅ bm :=
  ⟨Set.empty_subset _, by simp, SameOutside.refl p bm⟩

theorem Taken.eq (h : self.Taken bm ∅ bm') : bm' = bm := by
  have hfree := h.free
  rw [Set.sdiff_empty] at hfree
  exact (bitmap_ext hfree.symm h.outside).symm

theorem Taken.trans {S T : Set ℕ} (h₁ : self.Taken bm S bm') (h₂ : self.Taken bm' T bm'') :
    self.Taken bm (S ∪ T) bm'' := by
  have hT : T ⊆ self.freeFrames bm \ S := h₁.free ▸ h₂.sub
  refine ⟨Set.union_subset h₁.sub (hT.trans Set.sdiff_subset), ?_, h₁.outside.trans h₂.outside⟩
  rw [h₂.free, h₁.free, Set.sdiff_sdiff]

theorem Taken.notMem {S T : Set ℕ} (h₁ : self.Taken bm S bm') (h₂ : self.Taken bm' T bm'')
    (hf : f ∈ S) : f ∉ T := by
  have hT : T ⊆ self.freeFrames bm \ S := h₁.free ▸ h₂.sub
  exact fun hfT => (hT hfT).2 hf

theorem Taken.managed {S : Set ℕ} (h : self.Taken bm S bm') (hf : f ∈ S) : self.Managed f :=
  managed_of_mem_freeFrames (h.sub hf)

theorem Taken.not_free {S : Set ℕ} (h : self.Taken bm S bm') (hf : f ∈ S) :
    f ∉ self.freeFrames bm' := by
  rw [h.free]
  exact fun hmem => hmem.2 hf

/-- Frames used before are still used. -/
theorem Taken.not_free_of_not_free {S : Set ℕ} (h : self.Taken bm S bm')
    (hf : f ∉ self.freeFrames bm) : f ∉ self.freeFrames bm' := by
  rw [h.free]
  exact fun hmem => hf hmem.1

/-- A successful `alloc` takes the frame it returns. -/
theorem taken_alloc (hv : self.Valid) (h : (self.alloc bm).2 ≠ 0) :
    self.Taken bm {(self.alloc bm).2} (self.alloc bm).1 := by
  obtain ⟨hmem, hfree, hout⟩ := alloc_some hv h
  exact ⟨Set.singleton_subset_iff.mpr hmem, hfree, hout⟩

/-- Freeing a frame that was free before gives it back. -/
theorem Taken.release {S : Set ℕ} (h : self.Taken bm S bm') (hf : f ∈ self.freeFrames bm) :
    self.Taken bm (S \ {f}) (self.free bm' f) := by
  obtain ⟨hfree, hout⟩ := free_spec self bm' (managed_of_mem_freeFrames hf)
  refine ⟨Set.sdiff_subset.trans h.sub, ?_, h.outside.trans hout⟩
  rw [hfree, h.free]
  ext g
  by_cases hgf : g = f
  · simp [hgf, hf]
  · simp [hgf]

/-- Giving back a list of frames that were free before. -/
theorem Taken.release_list (self : PmmAllocator) :
    ∀ (L : List ℕ) {S : Set ℕ} {bm bm' : Bitmap}, self.Taken bm S bm' →
      (∀ f ∈ L, f ∈ self.freeFrames bm) →
      self.Taken bm (S \ {f | f ∈ L}) (L.foldl (fun b f => self.free b f) bm')
  | [], S, bm, bm', h, _ => by simpa using h
  | f :: L, S, bm, bm', h, hmem => by
      have hstep := h.release (hmem f List.mem_cons_self)
      have hih := Taken.release_list self L hstep
        fun g hg => hmem g (List.mem_cons_of_mem _ hg)
      have hset : S \ {g | g ∈ f :: L} = (S \ {f}) \ {g | g ∈ L} := by
        ext g
        simp [not_or, and_assoc]
      rw [hset, List.foldl_cons]
      exact hih

/-- Giving back everything that was taken restores the bitmap. -/
theorem Taken.release_all {S : Set ℕ} (h : self.Taken bm S bm') {L : List ℕ}
    (hL : ∀ f, f ∈ L ↔ f ∈ S) : L.foldl (fun b f => self.free b f) bm' = bm := by
  have hback := Taken.release_list self L h fun f hf => h.sub ((hL f).mp hf)
  have hempty : S \ {f | f ∈ L} = ∅ := by
    rw [Set.sdiff_eq_empty]
    exact fun f hf => (hL f).mpr hf
  rw [hempty] at hback
  exact hback.eq

/-! ### Contiguous allocation -/

theorem pageAfter_eq (hv : self.Valid) {first j : ℕ} (h : self.Managed (first + j * 4096)) :
    pageAfter first j = first + j * 4096 := by
  have hlt := h.lt
  have hfits := hv.fits
  exact Nat.mod_eq_of_lt (by simp only [pmmPageSize]; linarith)

theorem taken_freePages (hv : self.Valid) {first i : ℕ}
    (h : self.Taken bm (frames first i) bm') : self.freePages bm' first i = bm := by
  have hmap : (List.range i).map (fun j => pageAfter first j) =
      (List.range i).map (fun j => first + j * 4096) := by
    apply List.map_congr_left
    intro j hj
    exact pageAfter_eq hv (h.managed (mem_frames.mpr ⟨j, List.mem_range.mp hj, rfl⟩))
  have hfold : self.freePages bm' first i =
      ((List.range i).map (fun j => first + j * 4096)).foldl (fun b f => self.free b f) bm' := by
    rw [← hmap, List.foldl_map]
    rfl
  rw [hfold]
  refine h.release_all ?_
  intro f
  simp only [List.mem_map, List.mem_range, Finset.mem_coe, mem_frames]
  constructor
  · rintro ⟨j, hj, rfl⟩
    exact ⟨j, hj, rfl⟩
  · rintro ⟨j, hj, rfl⟩
    exact ⟨j, hj, rfl⟩

/-- The loop of `alloc_pages`, entered with the first `i` pages taken: either everything is
given back or the run of pages has grown to `i + n`. -/
theorem allocPagesFrom_spec (hv : self.Valid) {first : ℕ} :
    ∀ (n : ℕ) {i : ℕ} {bm' : Bitmap}, 0 < i → self.Taken bm (frames first i) bm' →
      ((self.allocPagesFrom first n i bm').2 = 0 ∧ (self.allocPagesFrom first n i bm').1 = bm) ∨
      ((self.allocPagesFrom first n i bm').2 = first ∧
        self.Taken bm (frames first (i + n)) (self.allocPagesFrom first n i bm').1)
  | 0, i, bm', _, h => Or.inr ⟨rfl, h⟩
  | n + 1, i, bm', hi, h => by
      simp only [allocPagesFrom]
      split_ifs with hbad hnull
      · left
        rw [(alloc_null hv hnull).1]
        exact ⟨rfl, taken_freePages hv h⟩
      · left
        refine ⟨rfl, ?_⟩
        have htake := taken_alloc hv hnull
        have hback := htake.release (htake.sub (Set.mem_singleton _))
        rw [Set.sdiff_self] at hback
        rw [hback.eq]
        exact taken_freePages hv h
      · obtain ⟨hne, heq⟩ := not_or.mp hbad
        have heq := not_not.mp heq
        have htake := h.trans (taken_alloc hv hne)
        have hlast : self.Managed (first + (i - 1) * 4096) :=
          h.managed (mem_frames.mpr ⟨i - 1, by omega, rfl⟩)
        have hnext : pageAfter first i = first + i * 4096 := by
          have hlt := hlast.lt
          have hfits := hv.fits
          have hi' : (i - 1) * 4096 + 4096 = i * 4096 := by omega
          exact Nat.mod_eq_of_lt (by simp only [pmmPageSize]; linarith)
        have hset : (↑(frames first (i + 1)) : Set ℕ) =
            ↑(frames first i) ∪ {(self.alloc bm').2} := by
          rw [frames_succ, Finset.coe_insert, heq, hnext, Set.union_comm, Set.singleton_union]
        rw [← hset] at htake
        have hrec := allocPagesFrom_spec hv n (Nat.succ_pos i) htake
        rwa [show i + (n + 1) = i + 1 + n by omega]

/-- **Contiguous allocation**: null leaves the bitmap unchanged; otherwise exactly the `count`
frames from the returned base were taken. -/
theorem allocPages_spec (self : PmmAllocator) (hv : self.Valid) (bm : Bitmap) (count : ℕ) :
    ((self.allocPages bm count).2 = 0 ∧ (self.allocPages bm count).1 = bm) ∨
    ((self.allocPages bm count).2 ≠ 0 ∧ 0 < count ∧
      self.Taken bm (frames (self.allocPages bm count).2 count)
        (self.allocPages bm count).1) := by
  cases count with
  | zero => exact Or.inl ⟨rfl, rfl⟩
  | succ n =>
    simp only [allocPages]
    split_ifs with hnull
    · exact Or.inl ⟨rfl, (alloc_null hv hnull).1⟩
    · have htake := taken_alloc hv hnull
      rw [← Finset.coe_singleton, ← frames_one] at htake
      rcases allocPagesFrom_spec hv n Nat.one_pos htake with h | ⟨hbase, h⟩
      · exact Or.inl h
      · right
        rw [hbase]
        rw [Nat.add_comm 1 n] at h
        exact ⟨hnull, Nat.succ_pos n, h⟩

/-! ### Initialised allocators -/

theorem overRegion_fits {lo hi : ℕ} (hle : lo ≤ hi) (hhi : hi < 2 ^ 64) :
    (overRegion lo hi).memoryStart + (overRegion lo hi).totalPages * 4096 < 2 ^ 64 := by
  have hsub : (hi + 2 ^ 64 - lo) % 2 ^ 64 = hi - lo := by
    rw [show hi + 2 ^ 64 - lo = (hi - lo) + 2 ^ 64 by omega, Nat.add_mod_right]
    exact Nat.mod_eq_of_lt (by omega)
  simp only [overRegion, hsub, pmmPageSize]
  have hmin := Nat.min_le_left ((hi - lo) / 4096) pmmMaxPages
  have hdiv := Nat.div_mul_le_self (hi - lo) 4096
  have hmul := Nat.mul_le_mul_right 4096 hmin
  omega

theorem Initialised.fits {p : PmmAllocator} {bm : Bitmap} (h : p.Initialised bm) :
    p.memoryStart + p.totalPages * 4096 < 2 ^ 64 := by
  induction h with
  | init hle hhi => exact overRegion_fits hle hhi
  | initAllUsed hle hhi => exact overRegion_fits hle hhi
  | reserve _ _ ih => exact ih
  | initRegion _ _ ih => exact ih

theorem Initialised.valid {p : PmmAllocator} {bm : Bitmap} (h : p.Initialised bm)
    (haligned : p.memoryStart % 4096 = 0) (hpos : 0 < p.memoryStart) : p.Valid :=
  ⟨haligned, hpos, h.fits⟩

end

end PmmAllocator

/-! ### Runs of the two allocators over the shared bitmap -/

/-- The two allocator values that exist at run time. -/
inductive PmmHandle
  | boot
  | global
deriving DecidableEq

/-- The allocators, the shared bitmap, and the allocations not yet freed (ghost): one set of
frames for each successful call. -/
structure PmmSystem where
  bitmap : Bitmap
  boot : PmmAllocator
  globalPmm : PmmAllocator
  allocations : List (Finset ℕ)

/-- One call of the allocator interface. -/
inductive PmmOp
  | alloc (h : PmmHandle)
  | allocPages (h : PmmHandle) (count : ℕ)
  | free (h : PmmHandle) (ptr : ℕ)

namespace PmmSystem

open PmmAllocator

/-- `init_global`: the global allocator becomes a copy of the local one. -/
def initGlobal (s : PmmSystem) : PmmSystem := { s with globalPmm := s.boot }

/-- The state when boot is done: an initialised local allocator, copied to `GLOBAL_PMM`,
nothing handed out yet. -/
def booted (p : PmmAllocator) (bm : Bitmap) : PmmSystem :=
  initGlobal ⟨bm, p, PmmAllocator.new, []⟩

/-- The allocator value behind a handle. -/
def handle (s : PmmSystem) : PmmHandle → PmmAllocator
  | .boot => s.boot
  | .global => s.globalPmm

/-- The address a call of `alloc` through `h` would return. -/
def allocResult (s : PmmSystem) (h : PmmHandle) : ℕ := ((s.handle h).alloc s.bitmap).2

/-- The address a call of `alloc_pages` through `h` would return. -/
def allocPagesResult (s : PmmSystem) (h : PmmHandle) (count : ℕ) : ℕ :=
  ((s.handle h).allocPages s.bitmap count).2

/-- The frames currently held by some allocation. -/
def Held (s : PmmSystem) (f : ℕ) : Prop := ∃ A ∈ s.allocations, f ∈ A

/-- Record a successful allocation of `count` frames. -/
def record (s : PmmSystem) (r : Bitmap × ℕ) (count : ℕ) : PmmSystem :=
  { s with
    bitmap := r.1
    allocations := if r.2 = 0 then s.allocations else frames r.2 count :: s.allocations }

/-- One step: any allocation, or freeing a frame currently held. -/
def Step (s : PmmSystem) : PmmOp → PmmSystem → Prop
  | .alloc h, s' => s' = s.record ((s.handle h).alloc s.bitmap) 1
  | .allocPages h count, s' => s' = s.record ((s.handle h).allocPages s.bitmap count) count
  | .free h ptr, s' => s.Held ptr ∧
      s' = { s with
        bitmap := (s.handle h).free s.bitmap ptr
        allocations := s.allocations.map fun A => A.erase ptr }

/-- The invariant: both handles are the initialised allocator, the live allocations are
pairwise disjoint, and from the initial bitmap exactly the held frames were taken. -/
structure Exclusive (p : PmmAllocator) (bm : Bitmap) (s : PmmSystem) : Prop where
  boot : s.boot = p
  globalPmm : s.globalPmm = p
  disjoint : s.allocations.Pairwise Disjoint
  taken : p.Taken bm {f | s.Held f} s.bitmap

variable {p : PmmAllocator} {bm : Bitmap} {s s' : PmmSystem} {op : PmmOp} {f : ℕ}

theorem exclusive_booted (p : PmmAllocator) (bm : Bitmap) : Exclusive p bm (booted p bm) := by
  refine ⟨rfl, rfl, List.Pairwise.nil, ?_⟩
  have hnone : {f | (booted p bm).Held f} = ∅ := by
    ext f
    simp [Held, booted, initGlobal]
  rw [hnone]
  exact Taken.refl p bm

theorem Exclusive.handle (hs : Exclusive p bm s) (h : PmmHandle) : s.handle h = p := by
  cases h with
  | boot => exact hs.boot
  | global => exact hs.globalPmm

/-- Recording a call that either failed without effect or took its frames. -/
theorem Exclusive.record (hs : Exclusive p bm s) {r : Bitmap × ℕ} {count : ℕ}
    (h : (r.2 = 0 ∧ r.1 = s.bitmap) ∨
      (r.2 ≠ 0 ∧ p.Taken s.bitmap (frames r.2 count) r.1)) :
    Exclusive p bm (s.record r count) := by
  rcases h with ⟨hnull, hbm⟩ | ⟨hne, htake⟩
  · refine ⟨hs.boot, hs.globalPmm, ?_, ?_⟩
    · simpa [PmmSystem.record, hnull] using hs.disjoint
    · simpa [PmmSystem.record, Held, hnull, hbm] using hs.taken
  · have hall := hs.taken.trans htake
    refine ⟨hs.boot, hs.globalPmm, ?_, ?_⟩
    · simp only [PmmSystem.record, hne, ↓reduceIte, List.pairwise_cons]
      refine ⟨?_, hs.disjoint⟩
      intro A hA
      rw [Finset.disjoint_left]
      intro f hf hfA
      exact hs.taken.notMem htake ⟨A, hA, hfA⟩ hf
    · have hset : {f | (s.record r count).Held f} = {f | s.Held f} ∪ ↑(frames r.2 count) := by
        ext f
        simp [PmmSystem.record, Held, hne, or_comm]
      rw [hset]
      exact hall

theorem Exclusive.free (hs : Exclusive p bm s) (hheld : s.Held f) :
    Exclusive p bm { s with
      bitmap := p.free s.bitmap f
      allocations := s.allocations.map fun A => A.erase f } := by
  refine ⟨hs.boot, hs.globalPmm, ?_, ?_⟩
  · rw [List.pairwise_map]
    apply hs.disjoint.imp
    intro A B hAB
    exact Finset.disjoint_of_subset_left (Finset.erase_subset _ _)
      (Finset.disjoint_of_subset_right (Finset.erase_subset _ _) hAB)
  · have hback := hs.taken.release (f := f) (hs.taken.sub hheld)
    have hset : {g | s.Held g} \ {f} =
        {g | ∃ A ∈ s.allocations.map (fun A => A.erase f), g ∈ A} := by
      ext g
      simp only [Held, List.mem_map, Set.mem_sdiff, Set.mem_ofPred_eq, Set.mem_singleton_iff]
      constructor
      · rintro ⟨⟨A, hA, hgA⟩, hgf⟩
        exact ⟨_, ⟨A, hA, rfl⟩, Finset.mem_erase.mpr ⟨hgf, hgA⟩⟩
      · rintro ⟨_, ⟨A, hA, rfl⟩, hg⟩
        obtain ⟨hgf, hgA⟩ := Finset.mem_erase.mp hg
        exact ⟨⟨A, hA, hgA⟩, hgf⟩
    rw [hset] at hback
    exact hback

/-- **One step keeps exclusivity.** -/
theorem Exclusive.step (hv : p.Valid) (hs : Exclusive p bm s) (h : s.Step op s') :
    Exclusive p bm s' := by
  cases op with
  | alloc h' =>
    simp only [Step] at h
    rw [hs.handle h'] at h
    subst h
    apply hs.record
    by_cases hnull : (p.alloc s.bitmap).2 = 0
    · exact Or.inl ⟨hnull, (alloc_null hv hnull).1⟩
    · refine Or.inr ⟨hnull, ?_⟩
      rw [frames_one, Finset.coe_singleton]
      exact taken_alloc hv hnull
  | allocPages h' count =>
    simp only [Step] at h
    rw [hs.handle h'] at h
    subst h
    apply hs.record
    rcases allocPages_spec p hv s.bitmap count with hnull | ⟨hne, _, htake⟩
    · exact Or.inl hnull
    · exact Or.inr ⟨hne, htake⟩
  | free h' ptr =>
    obtain ⟨hheld, rfl⟩ := h
    rw [hs.handle h']
    exact hs.free hheld

theorem exclusive_run (hv : p.Valid) {ops : List PmmOp}
    (h : Run Step (booted p bm) ops s) : Exclusive p bm s :=
  Run.invariant (exclusive_booted p bm) (fun _ _ _ hs hstep => hs.step hv hstep) h

/-- A frame a call can return: page aligned, managed, held by no allocation. -/
theorem Exclusive.fresh (hv : p.Valid) (hs : Exclusive p bm s)
    (hf : f ∈ p.freeFrames s.bitmap) :
    f % 4096 = 0 ∧ p.memoryStart ≤ f ∧ f < p.memoryStart + p.totalPages * 4096 ∧ ¬ s.Held f := by
  have hm := managed_of_mem_freeFrames hf
  have hlt := hm.lt
  exact ⟨hm.aligned hv, hm.le, by omega, fun hheld => hs.taken.not_free hheld hf⟩

/-- **The physical allocator is exclusive.**  After any run of allocations and frees of held
frames, through either handle: every held frame is page aligned and managed; distinct live
allocations are disjoint; a page's bit is clear exactly when it is neither held nor was used
at the start; and whatever the next call returns is aligned, managed and not held. -/
theorem allocations_exclusive (hinit : p.Initialised bm) (haligned : p.memoryStart % 4096 = 0)
    (hpos : 0 < p.memoryStart) {ops : List PmmOp} (hrun : Run Step (booted p bm) ops s) :
    (∀ f, s.Held f → f % 4096 = 0 ∧ p.memoryStart ≤ f ∧
      f < p.memoryStart + p.totalPages * 4096) ∧
    s.allocations.Pairwise Disjoint ∧
    (∀ i, i < p.totalPages → (s.bitmap.test i = false ↔
      ¬ s.Held (p.memoryStart + i * 4096) ∧ bm.test i = false)) ∧
    (∀ h, s.allocResult h ≠ 0 → s.allocResult h % 4096 = 0 ∧ p.memoryStart ≤ s.allocResult h ∧
      s.allocResult h < p.memoryStart + p.totalPages * 4096 ∧ ¬ s.Held (s.allocResult h)) ∧
    (∀ h count, s.allocPagesResult h count ≠ 0 → ∀ j, j < count →
      (s.allocPagesResult h count + j * 4096) % 4096 = 0 ∧
      p.memoryStart ≤ s.allocPagesResult h count + j * 4096 ∧
      s.allocPagesResult h count + j * 4096 < p.memoryStart + p.totalPages * 4096 ∧
      ¬ s.Held (s.allocPagesResult h count + j * 4096)) := by
  have hv := hinit.valid haligned hpos
  have hs := exclusive_run hv hrun
  refine ⟨?_, hs.disjoint, ?_, ?_, ?_⟩
  · intro f hheld
    have hm := hs.taken.managed (f := f) hheld
    have hlt := hm.lt
    exact ⟨hm.aligned hv, hm.le, by omega⟩
  · intro i hi
    rw [← frame_mem_freeFrames hi, ← frame_mem_freeFrames hi, hs.taken.free, Set.mem_sdiff,
      and_comm]
    rfl
  · intro h hne
    unfold allocResult at hne ⊢
    rw [hs.handle h] at hne ⊢
    exact hs.fresh hv (alloc_some hv hne).1
  · intro h count hne j hj
    unfold allocPagesResult at hne ⊢
    rw [hs.handle h] at hne ⊢
    rcases allocPages_spec p hv s.bitmap count with ⟨hnull, _⟩ | ⟨_, _, htake⟩
    · exact absurd hnull hne
    · exact hs.fresh hv (htake.sub (mem_frames.mpr ⟨j, hj, rfl⟩))

/-- The allocator of a boot without a memory map, after one call through `GLOBAL_PMM`. -/
theorem allocations_exclusive_fallback :
    ∃ s, Run Step (booted (init 0x100000 0x10000000).1 (init 0x100000 0x10000000).2)
        [.alloc .global] s ∧
      s.allocations.Pairwise Disjoint ∧
      ∀ f, s.Held f → f % 4096 = 0 ∧ 0x100000 ≤ f ∧
        f < 0x100000 + (init 0x100000 0x10000000).1.totalPages * 4096 := by
  have hinit := Initialised.init (show 0x100000 ≤ 0x10000000 by norm_num) (by norm_num)
  have hstep : Step (booted (init 0x100000 0x10000000).1 (init 0x100000 0x10000000).2)
      (.alloc .global) _ := rfl
  have h := allocations_exclusive hinit rfl (Nat.succ_pos _) (Run.single hstep)
  exact ⟨_, Run.single hstep, h.2.1, h.1⟩

end PmmSystem

end Vibix
