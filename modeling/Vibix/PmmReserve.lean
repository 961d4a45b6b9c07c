import Vibix.PmmPages

/-! # Reserved memory

`reserve` and `init_region` of `pmm.rs` visit the pages of a range and set or clear their bits.  Page
`i` meets a range (`Meets`) if they have an address in common; from a range that starts in the managed
memory the two visit exactly the pages that meet it (`mem_regionPages`), so that `reserve` sets the bits
of these pages (`reserve_test`) and `init_region` clears them (`initRegion_test`).

A bit that is set stays set until the page is freed (`Request.keeps`), whatever is requested meanwhile.
So a reserved page is not handed out before.  But a range that starts below the managed memory is not
reserved at all: `reserve_withholds_iff` says exactly when the allocator respects a reservation. -/

namespace Vibix
namespace PmmAllocator

variable {self : PmmAllocator} {bm bm' : Bitmap} {a b base size i k n : ℕ}

/-- Page `i` has an address in `[base, base + size)`. -/
def Meets (self : PmmAllocator) (i base size : ℕ) : Prop :=
  self.memoryStart + i * 4096 < base + size ∧ base < self.memoryStart + i * 4096 + 4096

instance (self : PmmAllocator) (i base size : ℕ) : Decidable (self.Meets i base size) :=
  inferInstanceAs (Decidable (_ ∧ _))

/-! ### The pages of a range -/

/-- The two loops never leave the bitmap. -/
theorem updateRegion_eq {update : Bitmap → ℕ → Bitmap} (hstart : self.memoryStart ≤ base)
    (hsize : 0 < size) :
    self.updateRegion update bm base size = some ((self.regionPages base size).foldl update bm) := by
  have hall : ∀ i ∈ self.regionPages base size, i < pmmMaxPages := by
    intro i hi
    simp only [regionPages, if_neg hsize.ne', List.mem_range'_1, pmmMaxPages] at hi ⊢
    omega
  rw [updateRegion, if_neg (by omega)]
  generalize self.regionPages base size = l at hall
  induction l generalizing bm with
  | nil => rfl
  | cons i l ih =>
    rw [List.forall_mem_cons] at hall
    rw [List.foldlM_cons, if_pos hall.1, Option.bind_eq_bind, Option.bind_some, ih hall.2]
    rfl

/-- **The pages that are visited** are those that meet the range. -/
theorem mem_regionPages (hstart : self.memoryStart ≤ base) (hsize : 0 < size)
    (hfits : base + size < 2 ^ 64) :
    i ∈ self.regionPages base size ↔ i < pmmMaxPages ∧ self.Meets i base size := by
  have hmod : (base - self.memoryStart + size - 1) % 2 ^ 64 = base - self.memoryStart + size - 1 :=
    Nat.mod_eq_of_lt (by omega)
  simp only [regionPages, if_neg hsize.ne', List.mem_range'_1, hmod, Meets, pmmMaxPages, pmmPageSize]
  omega

theorem lt_bits (h : i < pmmMaxPages) : i < 8 * bitmapSize := Nat.lt_of_lt_of_le h (by decide)

theorem foldl_set_test {l : List ℕ} (hl : ∀ i ∈ l, i < pmmMaxPages) :
    (l.foldl WordBitmap.set bm).test k = (bm.test k || decide (k ∈ l)) := by
  induction l generalizing bm with
  | nil => simp
  | cons i l ih =>
    rw [List.forall_mem_cons] at hl
    rw [List.foldl_cons, ih hl.2, WordBitmap.test_set bm k (by norm_num) (lt_bits hl.1)]
    by_cases hk : k = i
    · simp [hk]
    · simp [hk]

theorem foldl_clear_test {l : List ℕ} (hl : ∀ i ∈ l, i < pmmMaxPages) :
    (l.foldl WordBitmap.clear bm).test k = (bm.test k && !decide (k ∈ l)) := by
  induction l generalizing bm with
  | nil => simp
  | cons i l ih =>
    rw [List.forall_mem_cons] at hl
    rw [List.foldl_cons, ih hl.2, WordBitmap.test_clear bm k (by norm_num) (lt_bits hl.1)]
    by_cases hk : k = i
    · simp [hk]
    · simp [hk]

section Region

variable (hstart : self.memoryStart ≤ base) (hsize : 0 < size) (hfits : base + size < 2 ^ 64)

include hstart hsize hfits

/-- `reserve` sets the bits of the pages that meet the range. -/
theorem reserve_test (bm : Bitmap) :
    ∃ bm', self.reserve bm base size = some bm' ∧
      ∀ k < pmmMaxPages, bm'.test k = (bm.test k || decide (self.Meets k base size)) := by
  refine ⟨_, updateRegion_eq hstart hsize, fun k hk => ?_⟩
  rw [foldl_set_test fun i hi => ((mem_regionPages hstart hsize hfits).mp hi).1]
  congr 1
  rw [decide_eq_decide, mem_regionPages hstart hsize hfits, and_iff_right hk]

/-- `init_region` clears the bits of the pages that meet the range. -/
theorem initRegion_test (bm : Bitmap) :
    ∃ bm', self.initRegion bm base size = some bm' ∧
      ∀ k < pmmMaxPages, bm'.test k = (bm.test k && !decide (self.Meets k base size)) := by
  refine ⟨_, updateRegion_eq hstart hsize, fun k hk => ?_⟩
  rw [foldl_clear_test fun i hi => ((mem_regionPages hstart hsize hfits).mp hi).1]
  congr 2
  rw [decide_eq_decide, mem_regionPages hstart hsize hfits, and_iff_right hk]

end Region

/-! ### Bits that stay set -/

theorem alloc_keeps (h : bm.test k = true) : (self.alloc bm).1.test k = true := by
  rcases alloc_cases self bm with ⟨hnone, -⟩ | ⟨a, ha⟩
  · rw [hnone]
    exact h
  · rw [alloc_firstFree ha, WordBitmap.test_set bm k (by norm_num) (page_lt self ha.managed), h]
    simp

/-- Freeing an address clears the bit of its page at most. -/
theorem free_keeps {ptr : ℕ} (h : bm.test k = true)
    (hptr : ¬ (self.memoryStart + k * 4096 ≤ ptr ∧ ptr < self.memoryStart + k * 4096 + 4096)) :
    (self.free bm ptr).test k = true := by
  unfold free
  split_ifs with hlow hhigh
  · exact h
  · exact h
  · have hpage : k ≠ (ptr - self.memoryStart) / pmmPageSize := by
      unfold pmmPageSize
      omega
    rw [WordBitmap.test_clear bm k (by norm_num) (lt_bits (by omega)), h]
    simp [hpage]

section Fits

variable (hfits : self.memoryStart + self.totalPages * pmmPageSize ≤ 2 ^ 64)

include hfits

theorem freePages_keeps (h : bm.test k = true) (hle : a + n ≤ self.totalPages)
    (hk : ¬ (a ≤ k ∧ k < a + n)) : (self.freePages bm (self.frame a) n).test k = true := by
  induction n with
  | zero => exact h
  | succ n ih =>
    have hlt : a + n < self.totalPages := by omega
    have hstep : self.freePages bm (self.frame a) (n + 1) =
        (self.freePages bm (self.frame a) n).clear (a + n) := by
      unfold freePages
      rw [List.range_succ, List.foldl_append, List.foldl_cons, List.foldl_nil, pageAfter_frame,
        free_frame hfits hlt]
    rw [hstep, WordBitmap.test_clear _ k (by norm_num) (page_lt self hlt),
      ih (by omega) (by omega)]
    simp [show k ≠ a + n by omega]

/-- The loop of `alloc_pages` gives back only what it took. -/
theorem allocPagesFrom_keeps (hk : bm.test k = true) :
    ∀ (n i : ℕ) (bm' : Bitmap), a + i ≤ self.totalPages → (∀ j < i, bm.test (a + j) = false) →
      (∀ j, bm.test j = true → bm'.test j = true) →
      (self.allocPagesFrom (self.frame a) n i bm').1.test k = true
  | 0, i, bm', _, _, hsub => hsub k hk
  | n + 1, i, bm', hle, hfree, hsub => by
      have hout : ¬ (a ≤ k ∧ k < a + i) := by
        rintro ⟨hak, hki⟩
        have hbit := hfree (k - a) (by omega)
        rw [Nat.add_sub_cancel' hak, hk] at hbit
        cases hbit
      simp only [allocPagesFrom, pageAfter_frame]
      rcases alloc_cases self bm' with ⟨hnone, -⟩ | ⟨b, hb⟩
      · simp only [hnone, true_or, ↓reduceIte]
        exact freePages_keeps hfits (hsub k hk) hle hout
      · have hset : (bm'.set b).test k = true := by
          rw [WordBitmap.test_set bm' k (by norm_num) (page_lt self hb.managed), hsub k hk]
          simp
        have hkb : k ≠ b := by
          rintro rfl
          have hbit := hb.free
          rw [hsub k hk] at hbit
          cases hbit
        simp only [alloc_firstFree hb]
        split_ifs with hbad hnull
        · exact freePages_keeps hfits hset hle hout
        · refine freePages_keeps hfits ?_ hle hout
          rw [free_frame hfits hb.managed,
            WordBitmap.test_clear _ k (by norm_num) (page_lt self hb.managed), hset]
          simp [hkb]
        · -- the page found is the one behind the run
          have heq : self.frame b = self.frame (a + i) := not_not.mp (not_or.mp hbad).2
          have hbt := hb.managed
          have hab : b = a + i := by
            have hmax := self.total_le
            unfold frame pmmPageSize at heq
            unfold pmmMaxPages at hmax
            omega
          subst hab
          refine allocPagesFrom_keeps hk n (i + 1) _ hbt (fun j hj => ?_) fun j hj => ?_
          · rcases Nat.lt_succ_iff_lt_or_eq.mp hj with hlt | rfl
            · exact hfree j hlt
            · rw [← Bool.not_eq_true]
              intro htrue
              have hbit := hb.free
              rw [hsub _ htrue] at hbit
              cases hbit
          · rw [WordBitmap.test_set bm' j (by norm_num) (page_lt self hbt), hsub j hj]
            simp

theorem allocPages_keeps (hk : bm.test k = true) (n : ℕ) :
    (self.allocPages bm n).1.test k = true := by
  cases n with
  | zero => exact hk
  | succ n =>
    simp only [allocPages]
    rcases alloc_cases self bm with ⟨hnone, -⟩ | ⟨a, ha⟩
    · simp only [hnone, ↓reduceIte]
      exact hk
    · simp only [alloc_firstFree ha]
      have hset : ∀ j, bm.test j = true → (bm.set a).test j = true := by
        intro j hj
        rw [WordBitmap.test_set bm j (by norm_num) (page_lt self ha.managed), hj]
        simp
      split_ifs with hnull
      · exact hset k hk
      · refine allocPagesFrom_keeps hfits hk n 1 _ ha.managed (fun j hj => ?_) hset
        obtain rfl : j = 0 := by omega
        exact ha.free

end Fits

/-! ### Requests -/

/-- What callers ask of an allocator. -/
inductive Request where
  | alloc
  | allocPages (count : ℕ)
  | free (ptr : ℕ)
  deriving DecidableEq

/-- A request served: the bitmap afterwards, and the address returned. -/
def Request.serve (self : PmmAllocator) (bm : Bitmap) : Request → Bitmap × ℕ
  | .alloc => self.alloc bm
  | .allocPages count => self.allocPages bm count
  | .free ptr => (self.free bm ptr, 0)

/-- The pages a request hands out. -/
def Request.returns (self : PmmAllocator) (bm : Bitmap) : Request → Set ℕ
  | .alloc => {f | f = (self.alloc bm).2 ∧ f ≠ 0}
  | .allocPages count =>
    {f | (self.allocPages bm count).2 ≠ 0 ∧ f ∈ frames (self.allocPages bm count).2 count}
  | .free _ => ∅

/-- The request frees an address of page `k`. -/
def Request.Frees (self : PmmAllocator) (k : ℕ) (r : Request) : Prop :=
  ∃ ptr, r = .free ptr ∧ self.memoryStart + k * 4096 ≤ ptr ∧
    ptr < self.memoryStart + k * 4096 + 4096

/-- One request. -/
def Served (self : PmmAllocator) (bm : Bitmap) (r : Request) (bm' : Bitmap) : Prop :=
  bm' = (r.serve self bm).1

section Fits

variable (hfits : self.memoryStart + self.totalPages * pmmPageSize ≤ 2 ^ 64)

include hfits

/-- Only a request that frees the page clears its bit. -/
theorem Request.keeps {r : Request} (hk : bm.test k = true) (hr : ¬ r.Frees self k) :
    (r.serve self bm).1.test k = true := by
  cases r with
  | alloc => exact alloc_keeps hk
  | allocPages count => exact allocPages_keeps hfits hk count
  | free ptr => exact free_keeps hk fun hin => hr ⟨ptr, rfl, hin⟩

/-- Only free pages are handed out. -/
theorem Request.returns_free {r : Request} {f : ℕ} (hf : f ∈ r.returns self bm) :
    ∃ k < self.totalPages, f = self.memoryStart + k * 4096 ∧ bm.test k = false := by
  cases r with
  | alloc =>
    obtain ⟨rfl, hne⟩ := hf
    rcases alloc_cases self bm with ⟨hnone, -⟩ | ⟨a, ha⟩
    · rw [hnone] at hne
      exact absurd rfl hne
    · rw [alloc_firstFree ha]
      exact ⟨a, ha.managed, frame_of_fits hfits ha.managed, ha.free⟩
  | allocPages count =>
    obtain ⟨hne, hmem⟩ := hf
    obtain ⟨j, hj, rfl⟩ := mem_frames.mp hmem
    rcases alloc_cases self bm with ⟨hnone, -⟩ | ⟨a, ha⟩
    · have hnull : (self.allocPages bm count).2 = 0 := by
        cases count with
        | zero => rfl
        | succ n => simp only [PmmAllocator.allocPages, hnone, ↓reduceIte]
      exact absurd hnull hne
    · rcases allocPages_marked ha (Nat.zero_lt_of_lt hj) with ⟨htake, hbase, -⟩ | ⟨-, hnull, -⟩
      · obtain ⟨hlt, hfree, -⟩ := htake j hj
        refine ⟨a + j, hlt, ?_, hfree⟩
        rw [hbase, frame_of_fits hfits ha.managed, pmmPageSize]
        ring
      · exact absurd hnull hne
  | free ptr => exact hf.elim

/-- **Over a run**: a bit stays set, or the page has been freed. -/
theorem served_keeps {reqs : List Request} (hk : bm.test k = true)
    (hrun : Run self.Served bm reqs bm') :
    bm'.test k = true ∨ ∃ r ∈ reqs, Request.Frees self k r := by
  induction hrun with
  | nil => exact Or.inl hk
  | @snoc t u as r _ hlast ih =>
    rcases ih with hset | ⟨r', hr', hfrees⟩
    · by_cases hr : r.Frees self k
      · exact Or.inr ⟨r, List.mem_append_right _ (List.mem_singleton_self r), hr⟩
      · left
        rw [show u = (r.serve self t).1 from hlast]
        exact Request.keeps hfits hset hr
    · exact Or.inr ⟨r', List.mem_append_left _ hr', hfrees⟩

end Fits

/-- Enough calls of `alloc` use up every page below page `i`, and no other. -/
theorem exists_allocs (bm : Bitmap) (hi : i ≤ self.totalPages) :
    ∃ n bm', Run self.Served bm (List.replicate n .alloc) bm' ∧
      (∀ k < i, bm'.test k = true) ∧ ∀ k, i ≤ k → bm'.test k = bm.test k := by
  induction i with
  | zero => exact ⟨0, bm, Run.nil bm, fun k hk => absurd hk (Nat.not_lt_zero k), fun _ _ => rfl⟩
  | succ i ih =>
    obtain ⟨n, bm', hrun, hbelow, habove⟩ := ih (by omega)
    cases hbit : bm'.test i with
    | true =>
      refine ⟨n, bm', hrun, fun k hk => ?_, fun k hk => habove k (by omega)⟩
      rcases Nat.lt_succ_iff_lt_or_eq.mp hk with hlt | rfl
      · exact hbelow k hlt
      · exact hbit
    | false =>
      have hfirst : self.FirstFree bm' i := ⟨hi, hbit, hbelow⟩
      have hset := fun k => WordBitmap.test_set bm' k (by norm_num) (page_lt self hi)
      have hstep : self.Served bm' .alloc (bm'.set i) := by
        rw [Served, Request.serve, alloc_firstFree hfirst]
      refine ⟨n + 1, bm'.set i, ?_, fun k hk => ?_, fun k hk => ?_⟩
      · rw [List.replicate_succ']
        exact Run.snoc hrun hstep
      · rw [hset k]
        rcases Nat.lt_succ_iff_lt_or_eq.mp hk with hlt | rfl
        · simp [hbelow k hlt]
        · simp
      · rw [hset k, habove k (by omega)]
        simp [show k ≠ i by omega]

/-- A free page is handed out at some time. -/
theorem exists_returned (hfits : self.memoryStart + self.totalPages * pmmPageSize ≤ 2 ^ 64)
    (hpos : 0 < self.memoryStart) (hi : i < self.totalPages) (hfree : bm.test i = false) :
    ∃ n bm', Run self.Served bm (List.replicate n .alloc) bm' ∧
      self.memoryStart + i * 4096 ∈ Request.alloc.returns self bm' := by
  obtain ⟨n, bm', hrun, hbelow, habove⟩ := exists_allocs bm hi.le
  have hfirst : self.FirstFree bm' i := ⟨hi, (habove i le_rfl).trans hfree, hbelow⟩
  refine ⟨n, bm', hrun, ?_, by omega⟩
  rw [alloc_firstFree hfirst]
  exact (frame_of_fits hfits hi).symm

/-! ### Reservations -/

/-- Whatever is requested from `bm` on, a page that has an address in the range is handed out only
after it has been freed. -/
def Withholds (self : PmmAllocator) (bm : Bitmap) (base size : ℕ) : Prop :=
  ∀ (reqs : List Request) (bm' : Bitmap), Run self.Served bm reqs bm' →
    ∀ (r : Request), ∀ f ∈ r.returns self bm', f < base + size → base < f + 4096 →
      ∃ ptr, .free ptr ∈ reqs ∧ f ≤ ptr ∧ ptr < f + 4096

/-- Pages in use are withheld. -/
theorem withholds_of_used (hfits : self.memoryStart + self.totalPages * pmmPageSize ≤ 2 ^ 64)
    (hused : ∀ k < self.totalPages, self.Meets k base size → bm.test k = true) :
    self.Withholds bm base size := by
  intro reqs bm' hrun r f hmem hlow hhigh
  obtain ⟨k, hk, rfl, hfree⟩ := Request.returns_free hfits hmem
  rcases served_keeps hfits (hused k hk ⟨hlow, hhigh⟩) hrun with hset | ⟨_, hreq, ptr, rfl, hin⟩
  · rw [hset] at hfree
    cases hfree
  · exact ⟨ptr, hreq, hin⟩

/-- **Reservations**: after `reserve(base, size)` no page that meets the range is handed out before
it has been freed, exactly if the range does not begin below the managed memory, or none of its pages
was free anyway. -/
theorem reserve_withholds_iff (hinit : self.Initialised bm) (hsize : 0 < size)
    (hrange : base + size < 2 ^ 64) :
    ∃ bm', self.reserve bm base size = some bm' ∧
      (self.Withholds bm' base size ↔ self.memoryStart ≤ base ∨
        ∀ k < self.totalPages, self.Meets k base size → bm.test k = true) := by
  have hfits : self.memoryStart + self.totalPages * pmmPageSize ≤ 2 ^ 64 := hinit.fits.le
  by_cases hstart : self.memoryStart ≤ base
  · obtain ⟨bm', hres, htest⟩ := reserve_test hstart hsize hrange bm
    refine ⟨bm', hres, iff_of_true (withholds_of_used hfits fun k hk hmeets => ?_) (Or.inl hstart)⟩
    rw [htest k (Nat.lt_of_lt_of_le hk self.total_le)]
    simp [hmeets]
  · refine ⟨bm, by rw [reserve, updateRegion, if_pos (by omega)], fun hwith => Or.inr ?_, ?_⟩
    · intro k hk hmeets
      cases hbit : bm.test k with
      | true => rfl
      | false =>
        obtain ⟨n, bm', hrun, hmem⟩ := exists_returned hfits (by omega) hk hbit
        obtain ⟨ptr, hreq, -⟩ := hwith _ bm' hrun .alloc _ hmem hmeets.1 hmeets.2
        cases List.eq_of_mem_replicate hreq
    · rintro (hle | hused)
      · exact absurd hle hstart
      · exact withholds_of_used hfits hused

/-- The last page of the eight-page region, and the two behind it. -/
theorem reserve_withholds_iff_past_end :
    ∃ bm', smallPmm.reserve (init 0x100000 0x108000).2 0x107800 0x2000 = some bm' ∧
      (smallPmm.Withholds bm' 0x107800 0x2000 ↔ smallPmm.memoryStart ≤ 0x107800 ∨
        ∀ k < smallPmm.totalPages, smallPmm.Meets k 0x107800 0x2000 →
          (init 0x100000 0x108000).2.test k = true) :=
  reserve_withholds_iff (.init (by decide) (by decide)) (by decide) (by decide)

/-- A reservation of `[0xF0000, 0x108000)` in the memory from 1 MiB on: nothing is reserved, and the
first call of `alloc` returns a page of it. -/
theorem reserve_below_start :
    ∃ bm', smallPmm.reserve (init 0x100000 0x108000).2 0xF0000 0x18000 = some bm' ∧
      (smallPmm.alloc bm').2 = 0x104000 ∧ ¬ smallPmm.Withholds bm' 0xF0000 0x18000 := by
  have halloc : (smallPmm.alloc (init 0x100000 0x108000).2).2 = 0x104000 := by decide +kernel
  refine ⟨_, rfl, halloc, fun hwith => ?_⟩
  obtain ⟨ptr, hreq, -⟩ := hwith [] _ (Run.nil _) .alloc 0x104000 ⟨halloc.symm, by decide⟩
    (by decide) (by decide)
  cases hreq

end PmmAllocator
end Vibix
