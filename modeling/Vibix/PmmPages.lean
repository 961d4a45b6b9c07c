import Vibix.Pmm

/-! # Contiguous allocation, bit by bit

`alloc_pages` of `pmm.rs` takes single pages with `alloc` and gives everything back at the first
page that does not follow the one before it.  This module says what that does to the individual
bits, for every allocator value and every bitmap, aligned or not.

* **The search.** `FirstFree p bm a`: page `a` is the lowest free page.  `alloc` takes that page
  (`alloc_firstFree`) and no other; it returns null with nothing changed when there is none.
* **The loop.** `Marked bm a n bm'`: from `bm` to `bm'` exactly the bits of the pages
  `a .. a + n` were set.  `allocPagesFrom_marked` is the loop of `alloc_pages`: it goes on as
  long as the pages after the lowest free one are free too and do not have address `0`.
* **The results.** `allocPages_marked` decides the call by the lowest free page alone.  From it
  `allocPages_finds_iff`: a run further up is never found, so that null means "no run" exactly
  when the lowest free page begins a run or there is no run at all; and `allocPages_exact`: the
  call takes exactly the pages it returns or leaves the bitmap as it was. -/

namespace Vibix
namespace PmmAllocator

variable {self : PmmAllocator} {bm bm' : Bitmap} {a i j k n : ℕ}

/-- The pages `i .. i + count` are managed and free. -/
def FreeRun (self : PmmAllocator) (bm : Bitmap) (i count : ℕ) : Prop :=
  i + count ≤ self.totalPages ∧ ∀ j, j < count → bm.test (i + j) = false

/-- Page `a` is the lowest free page. -/
structure FirstFree (p : PmmAllocator) (bm : Bitmap) (a : ℕ) : Prop where
  managed : a < p.totalPages
  free : bm.test a = false
  below : ∀ k, k < a → bm.test k = true

/-- From `bm` to `bm'` exactly the bits of the pages `a .. a + n` were set. -/
def Marked (bm : Bitmap) (a n : ℕ) (bm' : Bitmap) : Prop :=
  ∀ k, bm'.test k = (bm.test k || decide (a ≤ k ∧ k < a + n))

/-- Page `k` can be handed out: it is managed, free, and its address is not null. -/
def Takeable (self : PmmAllocator) (bm : Bitmap) (k : ℕ) : Prop :=
  k < self.totalPages ∧ bm.test k = false ∧ self.frame k ≠ 0

/-! ### Bits -/

theorem page_lt (self : PmmAllocator) (hk : k < self.totalPages) : k < 8 * bitmapSize :=
  Nat.lt_of_lt_of_le hk (Nat.le_trans self.total_le (by decide))

theorem marked_zero (bm : Bitmap) (a : ℕ) : Marked bm a 0 bm := by
  intro k
  simp [show ¬ (a ≤ k ∧ k < a) by omega]

theorem Marked.eq (h : Marked bm a 0 bm') : bm' = bm := by
  refine WordBitmap.ext_test (by norm_num) fun k _ => ?_
  rw [h k]
  simp [show ¬ (a ≤ k ∧ k < a) by omega]

/-- Setting the bit after the marked pages. -/
theorem Marked.set (h : Marked bm a n bm') (hn : a + n < self.totalPages) :
    Marked bm a (n + 1) (bm'.set (a + n)) := by
  intro k
  rw [WordBitmap.test_set bm' k (by norm_num) (page_lt self hn), h k]
  by_cases hk : k = a + n
  · simp [hk]
  · have hiff : (a ≤ k ∧ k < a + (n + 1)) ↔ (a ≤ k ∧ k < a + n) := by omega
    simp [hk, hiff]

/-- Clearing the lowest marked bit, which was clear before. -/
theorem Marked.clear (h : Marked bm a (n + 1) bm') (ha : a < self.totalPages)
    (hfree : bm.test a = false) : Marked bm (a + 1) n (bm'.clear a) := by
  intro k
  rw [WordBitmap.test_clear bm' k (by norm_num) (page_lt self ha), h k]
  by_cases hk : k = a
  · simp [hk, hfree]
  · have hiff : (a ≤ k ∧ k < a + (n + 1)) ↔ (a + 1 ≤ k ∧ k < a + 1 + n) := by omega
    simp [hk, hiff]

/-- Setting a clear bit and clearing it again. -/
theorem clear_set (hk : k < self.totalPages) (hfree : bm.test k = false) :
    (bm.set k).clear k = bm := by
  refine WordBitmap.ext_test (by norm_num) fun j _ => ?_
  rw [WordBitmap.test_clear _ j (by norm_num) (page_lt self hk),
    WordBitmap.test_set bm j (by norm_num) (page_lt self hk)]
  by_cases hj : j = k
  · simp [hj, hfree]
  · simp [hj]

/-! ### Addresses -/

theorem pageAfter_frame (self : PmmAllocator) (a i : ℕ) :
    pageAfter (self.frame a) i = self.frame (a + i) := by
  unfold pageAfter frame
  rw [Nat.mod_add_mod, Nat.add_mul, Nat.add_assoc]

/-- Two managed pages have different addresses, even in a region that wraps. -/
theorem frame_injective (ha : a < self.totalPages) (hk : k < self.totalPages)
    (h : self.frame a = self.frame k) : a = k := by
  have hmax := self.total_le
  unfold frame pmmPageSize at h
  unfold pmmMaxPages at hmax
  omega

section Fits

variable (hpos : 0 < self.memoryStart)
  (hfits : self.memoryStart + self.totalPages * pmmPageSize ≤ 2 ^ 64)

include hfits in
theorem frame_of_fits (hk : k < self.totalPages) :
    self.frame k = self.memoryStart + k * pmmPageSize := by
  unfold frame
  refine Nat.mod_eq_of_lt ?_
  unfold pmmPageSize at hfits ⊢
  omega

include hpos hfits in
theorem frame_ne_zero (hk : k < self.totalPages) : self.frame k ≠ 0 := by
  rw [frame_of_fits hfits hk]
  omega

include hfits in
theorem free_frame (hk : k < self.totalPages) (bm : Bitmap) :
    self.free bm (self.frame k) = bm.clear k := by
  have hmax := self.total_le
  rw [frame_of_fits hfits hk]
  have hpage : (self.memoryStart + k * pmmPageSize - self.memoryStart) / pmmPageSize = k := by
    unfold pmmPageSize
    omega
  unfold free
  rw [hpage, if_neg (by omega), if_neg (by omega)]

include hfits in
/-- Giving back `j` of the `i` marked pages, from the lowest on. -/
theorem freePages_marked (h : Marked bm a i bm') (hrun : self.FreeRun bm a i) :
    ∀ j, j ≤ i → Marked bm (a + j) (i - j) (self.freePages bm' (self.frame a) j)
  | 0, _ => h
  | j + 1, hj => by
      have hle := hrun.1
      have ih := freePages_marked h hrun j (Nat.le_of_succ_le hj)
      have hlt : a + j < self.totalPages := by omega
      have hstep : self.freePages bm' (self.frame a) (j + 1) =
          (self.freePages bm' (self.frame a) j).clear (a + j) := by
        unfold freePages
        rw [List.range_succ, List.foldl_append, List.foldl_cons, List.foldl_nil,
          pageAfter_frame, free_frame hfits hlt]
      rw [hstep]
      rw [show i - j = i - (j + 1) + 1 by omega] at ih
      exact ih.clear hlt (hrun.2 j hj)

include hfits in
/-- The rollback of `alloc_pages` restores every bit. -/
theorem freePages_restores (h : Marked bm a i bm') (hrun : self.FreeRun bm a i) :
    self.freePages bm' (self.frame a) i = bm := by
  have hall := freePages_marked hfits h hrun i (Nat.le_refl i)
  rw [Nat.sub_self] at hall
  exact hall.eq

end Fits

/-! ### The search of `alloc` -/

theorem alloc_firstFree (h : self.FirstFree bm a) :
    self.alloc bm = (bm.set a, self.frame a) := by
  have hfind : (List.range self.totalPages).find? (fun i => !bm.test i) = some a := by
    rw [List.find?_range_eq_some]
    refine ⟨by simp [h.free], List.mem_range.mpr h.managed, fun k hk => ?_⟩
    simp [h.below k hk]
  unfold alloc
  rw [hfind]

/-- Either nothing is free, or there is a lowest free page. -/
theorem alloc_cases (self : PmmAllocator) (bm : Bitmap) :
    (self.alloc bm = (bm, 0) ∧ ∀ k, k < self.totalPages → bm.test k = true) ∨
      ∃ a, self.FirstFree bm a := by
  cases hfind : (List.range self.totalPages).find? (fun i => !bm.test i) with
  | none =>
    left
    refine ⟨by unfold alloc; rw [hfind], fun k hk => ?_⟩
    have hused := List.find?_eq_none.mp hfind k (List.mem_range.mpr hk)
    simpa using hused
  | some a =>
    right
    obtain ⟨hfree, hmem, hbelow⟩ := List.find?_range_eq_some.mp hfind
    exact ⟨a, List.mem_range.mp hmem, by simpa using hfree,
      fun k hk => by simpa using hbelow k hk⟩

/-- With the first pages of a run marked, the search goes on behind them. -/
theorem FirstFree.next (h : self.FirstFree bm a) (hm : Marked bm a i bm')
    (hnext : self.Takeable bm (a + i)) : self.FirstFree bm' (a + i) := by
  refine ⟨hnext.1, ?_, fun k hk => ?_⟩
  · rw [hm (a + i), hnext.2.1]
    simp
  · rw [hm k]
    by_cases hka : k < a
    · simp [h.below k hka]
    · simp [show a ≤ k ∧ k < a + i by omega]

/-! ### The loop of `alloc_pages` -/

/-- The next round of the loop fails: the page behind the run cannot be taken.  Null is
returned, and in a region that does not wrap every bit is restored. -/
theorem allocPagesFrom_stop (hm : Marked bm a i bm') (hrun : self.FreeRun bm a i)
    (hnext : ¬ self.Takeable bm (a + i)) (n : ℕ) :
    (self.allocPagesFrom (self.frame a) (n + 1) i bm').2 = 0 ∧
      (0 < self.memoryStart → self.memoryStart + self.totalPages * pmmPageSize ≤ 2 ^ 64 →
        (self.allocPagesFrom (self.frame a) (n + 1) i bm').1 = bm) := by
  simp only [allocPagesFrom, pageAfter_frame]
  rcases alloc_cases self bm' with ⟨hnone, _⟩ | ⟨b, hb⟩
  · simp only [hnone, ne_eq, true_or, ↓reduceIte, true_and]
    exact fun _ hfits => freePages_restores hfits hm hrun
  · have hfreeb : bm.test b = false := by
      have hbit := hb.free
      rw [hm b] at hbit
      exact (Bool.or_eq_false_iff.mp hbit).1
    simp only [alloc_firstFree hb]
    -- The page found is the wanted one only if its address is null.
    have hbad : self.frame b = 0 ∨ self.frame b ≠ self.frame (a + i) := by
      by_contra hcon
      obtain ⟨hne, heq⟩ := not_or.mp hcon
      have heq := not_not.mp heq
      by_cases hlt : a + i < self.totalPages
      · have hab := frame_injective hb.managed hlt heq
        rw [hab] at hfreeb hne
        exact hnext ⟨hlt, hfreeb, hne⟩
      · have hmax := self.total_le
        have hle := hrun.1
        have hbt := hb.managed
        unfold frame pmmPageSize at heq
        unfold pmmMaxPages at hmax
        omega
    rw [if_pos hbad]
    refine ⟨rfl, fun hpos hfits => ?_⟩
    rw [if_neg (frame_ne_zero hpos hfits hb.managed), free_frame hfits hb.managed,
      clear_set hb.managed hb.free]
    exact freePages_restores hfits hm hrun

/-- **The loop**, entered with `i` pages from the lowest free page marked. -/
theorem allocPagesFrom_marked (hfirst : self.FirstFree bm a) :
    ∀ (n i : ℕ) (bm' : Bitmap), Marked bm a i bm' →
      (∀ j, j < i → self.Takeable bm (a + j)) → self.FreeRun bm a i →
      ((∀ j, j < i + n → self.Takeable bm (a + j)) ∧
        (self.allocPagesFrom (self.frame a) n i bm').2 = self.frame a ∧
        Marked bm a (i + n) (self.allocPagesFrom (self.frame a) n i bm').1) ∨
      ((∃ j, j < i + n ∧ ¬ self.Takeable bm (a + j)) ∧
        (self.allocPagesFrom (self.frame a) n i bm').2 = 0 ∧
        (0 < self.memoryStart → self.memoryStart + self.totalPages * pmmPageSize ≤ 2 ^ 64 →
          (self.allocPagesFrom (self.frame a) n i bm').1 = bm))
  | 0, i, bm', hm, htake, _ => Or.inl ⟨htake, rfl, hm⟩
  | n + 1, i, bm', hm, htake, hrun => by
      by_cases hnext : self.Takeable bm (a + i)
      · have hstep : self.allocPagesFrom (self.frame a) (n + 1) i bm' =
            self.allocPagesFrom (self.frame a) n (i + 1) (bm'.set (a + i)) := by
          simp only [allocPagesFrom, pageAfter_frame, alloc_firstFree (hfirst.next hm hnext)]
          rw [if_neg (by simp [hnext.2.2])]
        have htake' : ∀ j, j < i + 1 → self.Takeable bm (a + j) := by
          intro j hj
          rcases Nat.lt_succ_iff_lt_or_eq.mp hj with hlt | rfl
          · exact htake j hlt
          · exact hnext
        have hrun' : self.FreeRun bm a (i + 1) :=
          ⟨hnext.1, fun j hj => (htake' j hj).2.1⟩
        rw [hstep, show i + (n + 1) = i + 1 + n by omega]
        exact allocPagesFrom_marked hfirst n (i + 1) _ (hm.set hnext.1) htake' hrun'
      · exact Or.inr ⟨⟨i, by omega, hnext⟩, allocPagesFrom_stop hm hrun hnext n⟩

/-- **Contiguous allocation is decided by the lowest free page**: the `count` pages from there
are marked and returned if all of them can be taken, and the call fails otherwise. -/
theorem allocPages_marked (hfirst : self.FirstFree bm a) (hn : 0 < n) :
    ((∀ j, j < n → self.Takeable bm (a + j)) ∧ (self.allocPages bm n).2 = self.frame a ∧
        Marked bm a n (self.allocPages bm n).1) ∨
      ((∃ j, j < n ∧ ¬ self.Takeable bm (a + j)) ∧ (self.allocPages bm n).2 = 0 ∧
        (0 < self.memoryStart → self.memoryStart + self.totalPages * pmmPageSize ≤ 2 ^ 64 →
          (self.allocPages bm n).1 = bm)) := by
  obtain ⟨n, rfl⟩ : ∃ m, n = m + 1 := ⟨n - 1, by omega⟩
  simp only [allocPages, alloc_firstFree hfirst]
  by_cases hzero : self.frame a = 0
  · rw [if_pos hzero]
    exact Or.inr ⟨⟨0, Nat.succ_pos n, fun h => h.2.2 hzero⟩, rfl,
      fun hpos hfits => absurd hzero (frame_ne_zero hpos hfits hfirst.managed)⟩
  · rw [if_neg hzero, Nat.add_comm n 1]
    have htake : ∀ j, j < 1 → self.Takeable bm (a + j) := by
      intro j hj
      obtain rfl : j = 0 := by omega
      exact ⟨hfirst.managed, hfirst.free, hzero⟩
    have hrun : self.FreeRun bm a 1 := ⟨hfirst.managed, fun j hj => (htake j hj).2.1⟩
    exact allocPagesFrom_marked hfirst n 1 _
      ((marked_zero bm a).set hfirst.managed) htake hrun

/-! ### When a run is found -/

theorem firstFree_of_freeRun (h : self.FreeRun bm i n) (hn : 0 < n) :
    ∃ a, self.FirstFree bm a := by
  rcases alloc_cases self bm with ⟨_, hall⟩ | hex
  · have hused := hall (i + 0) (by have := h.1; omega)
    rw [h.2 0 hn] at hused
    exact absurd hused (by simp)
  · exact hex

/-- **Null means "no run" only for the lowest free page**: for a given bitmap and count the call
fails only if there is no run of `count` free pages exactly when a run, if there is one at all,
begins at the lowest free page (and does not contain the page with the null address). -/
theorem allocPages_finds_iff (self : PmmAllocator) (bm : Bitmap) (count : ℕ)
    (hcount : 1 ≤ count) :
    ((self.allocPages bm count).2 = 0 → ¬ ∃ i, self.FreeRun bm i count) ↔
      ((∃ i, self.FreeRun bm i count) →
        ∃ a, self.FirstFree bm a ∧ self.FreeRun bm a count ∧
          ∀ j, j < count → self.frame (a + j) ≠ 0) := by
  constructor
  · rintro hnull ⟨i, hi⟩
    obtain ⟨a, ha⟩ := firstFree_of_freeRun hi hcount
    rcases allocPages_marked ha hcount with ⟨htake, _, _⟩ | ⟨_, hzero, _⟩
    · have hlast := (htake (count - 1) (by omega)).1
      exact ⟨a, ha, ⟨by omega, fun j hj => (htake j hj).2.1⟩, fun j hj => (htake j hj).2.2⟩
    · exact absurd ⟨i, hi⟩ (hnull hzero)
  · rintro hfound hnull hex
    obtain ⟨a, ha, hrun, hne⟩ := hfound hex
    rcases allocPages_marked ha hcount with ⟨_, hbase, _⟩ | ⟨⟨j, hj, hnot⟩, _, _⟩
    · exact hne 0 hcount (hbase ▸ hnull)
    · have hle := hrun.1
      exact hnot ⟨by omega, hrun.2 j hj, hne j hj⟩

/-- An eight-page region. -/
def smallPmm : PmmAllocator := overRegion 0x100000 0x108000

/-- The bitmap after `init`, two calls of `alloc` and a `free` of the first page: page `4` is
free, page `5` is used, the pages `6` and `7` are free. -/
def fragmented : Bitmap :=
  let bm := (init 0x100000 0x108000).2
  let r := smallPmm.alloc bm
  smallPmm.free (smallPmm.alloc r.1).1 r.2

theorem allocPages_finds_iff_fragmented :
    1 ≤ 1 ∧ (((smallPmm.allocPages fragmented 1).2 = 0 →
        ¬ ∃ i, smallPmm.FreeRun fragmented i 1) ↔
      ((∃ i, smallPmm.FreeRun fragmented i 1) →
        ∃ a, smallPmm.FirstFree fragmented a ∧ smallPmm.FreeRun fragmented a 1 ∧
          ∀ j, j < 1 → smallPmm.frame (a + j) ≠ 0)) :=
  ⟨Nat.le_refl 1, allocPages_finds_iff smallPmm fragmented 1 (Nat.le_refl 1)⟩

/-- Two free pages follow each other, and a call for two pages returns null. -/
theorem allocPages_misses_run :
    smallPmm.FreeRun fragmented 6 2 ∧ (smallPmm.allocPages fragmented 2).2 = 0 := by
  refine ⟨⟨by decide, ?_⟩, by decide +kernel⟩
  intro j hj
  interval_cases j
  · decide +kernel
  · decide +kernel

/-! ### Exactness -/

/-- **Exact or nothing**: in a region that lies in the address space above `0`, a non-null
result is the base of `count` pages that were free and are now used, with every other bit as it
was; a null result leaves the whole bitmap as it was. -/
theorem allocPages_exact (self : PmmAllocator) (hpos : 0 < self.memoryStart)
    (hfits : self.memoryStart + self.totalPages * pmmPageSize ≤ 2 ^ 64)
    (bm : Bitmap) (count : ℕ) :
    ((self.allocPages bm count).2 ≠ 0 →
      ∃ a, (self.allocPages bm count).2 = self.memoryStart + a * pmmPageSize ∧ 0 < count ∧
        self.FreeRun bm a count ∧ Marked bm a count (self.allocPages bm count).1) ∧
    ((self.allocPages bm count).2 = 0 → (self.allocPages bm count).1 = bm) := by
  cases count with
  | zero => exact ⟨fun h => absurd rfl h, fun _ => rfl⟩
  | succ n =>
    rcases alloc_cases self bm with ⟨hnone, _⟩ | ⟨a, ha⟩
    · have hcall : self.allocPages bm (n + 1) = (bm, 0) := by
        simp only [allocPages, hnone, ↓reduceIte]
      rw [hcall]
      exact ⟨fun h => absurd rfl h, fun _ => rfl⟩
    · rcases allocPages_marked ha (Nat.succ_pos n) with ⟨htake, hbase, hm⟩ | ⟨_, hnull, hsame⟩
      · have hlast := (htake n (Nat.lt_succ_self n)).1
        have hrun : self.FreeRun bm a (n + 1) :=
          ⟨by omega, fun j hj => (htake j hj).2.1⟩
        rw [hbase]
        exact ⟨fun _ => ⟨a, frame_of_fits hfits ha.managed, Nat.succ_pos n, hrun, hm⟩,
          fun h => absurd h (frame_ne_zero hpos hfits ha.managed)⟩
      · exact ⟨fun h => absurd hnull h, fun _ => hsame hpos hfits⟩

theorem allocPages_exact_fragmented :
    (smallPmm.allocPages fragmented 1).2 ≠ 0 ∧
      ∃ a, (smallPmm.allocPages fragmented 1).2 = smallPmm.memoryStart + a * pmmPageSize ∧
        0 < 1 ∧ smallPmm.FreeRun fragmented a 1 ∧
        Marked fragmented a 1 (smallPmm.allocPages fragmented 1).1 := by
  have hne : (smallPmm.allocPages fragmented 1).2 ≠ 0 := by decide +kernel
  exact ⟨hne, (allocPages_exact smallPmm (by decide) (by decide) fragmented 1).1 hne⟩

end PmmAllocator
end Vibix
