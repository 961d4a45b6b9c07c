import Vibix.PmmReserve

/-! # The memory map

`multiboot.rs`: the boot loader leaves a list of memory regions, and `apply_mmap_to_pmm` makes the
available ones allocatable.

* **The code.** The map is bytes in memory.  Both loops of `apply_mmap_to_pmm` walk over its entries
  (`mmapLoop`, with the body as a parameter); all 32-bit offsets wrap, so that a malformed map may keep
  the loop going for ever, and the fuel then runs out.  The first loop (`scanEntry`) determines the
  range that is managed, the second one (`releaseEntry`) calls `init_region` for the part of each
  available entry in that range.
* **What is freed.** A loop over the map is a fold over its entries (`mmapLoop_eq`), which gives the
  state after the call (`applyMmap_spec`): the managed memory begins at 1 MiB or above and ends at
  256 MiB or below, and a page is free exactly if it has an address in an available entry.
* **What is allocated.** `init_region` rounds to the outside.  `applyMmap_available_iff`: every page
  `alloc` can return lies inside available entries exactly if that holds for every managed page that
  has an address in one. -/

namespace Vibix
namespace Multiboot

open PmmAllocator

/-! ### The code -/

/-- `MmapEntry`. -/
structure MmapEntry where
  size : ℕ
  baseLow : ℕ
  baseHigh : ℕ
  lengthLow : ℕ
  lengthHigh : ℕ
  regionType : ℕ
deriving DecidableEq

namespace MmapEntry

/-- `base`. -/
def base (e : MmapEntry) : ℕ := e.baseLow + e.baseHigh * 2 ^ 32

/-- `length`. -/
def length (e : MmapEntry) : ℕ := e.lengthLow + e.lengthHigh * 2 ^ 32

/-- `base + length`, which wraps. -/
def limit (e : MmapEntry) : ℕ := (e.base + e.length) % 2 ^ 64

end MmapEntry

/-- A 32-bit load. -/
def readU32 (mem : ℕ → BitVec 8) (a : ℕ) : ℕ :=
  (mem a).toNat + (mem (a + 1)).toNat * 2 ^ 8 + (mem (a + 2)).toNat * 2 ^ 16 +
    (mem (a + 3)).toNat * 2 ^ 24

/-- The entry at an address. -/
def readEntry (mem : ℕ → BitVec 8) (a : ℕ) : MmapEntry where
  size := readU32 mem a
  baseLow := readU32 mem (a + 4)
  baseHigh := readU32 mem (a + 8)
  lengthLow := readU32 mem (a + 12)
  lengthHigh := readU32 mem (a + 16)
  regionType := readU32 mem (a + 20)

/-- `has_mmap`. -/
def hasMmap (mem : ℕ → BitVec 8) (mbi : ℕ) : Bool :=
  if mbi = 0 then false else (readU32 mem mbi).testBit 6

/-- The address and the length of the map. -/
structure Mmap where
  addr : ℕ
  length : ℕ

/-- The fields `mmap_addr` and `mmap_length` of the information structure. -/
def mmapAt (mem : ℕ → BitVec 8) (mbi : ℕ) : Mmap :=
  ⟨readU32 mem (mbi + 48), readU32 mem (mbi + 44)⟩

/-- The loop over the entries from `offset` on; `none` if the fuel does not suffice, or if the body
fails. -/
def mmapLoop {σ : Type*} (mem : ℕ → BitVec 8) (map : Mmap) (body : σ → MmapEntry → Option σ) :
    ℕ → ℕ → σ → Option σ
  | 0, offset, s => if offset < map.length then none else some s
  | fuel + 1, offset, s =>
    if offset < map.length then
      let entry := readEntry mem ((map.addr + offset) % 2 ^ 32)
      let entrySize := (entry.size + 4) % 2 ^ 32
      (body s entry).bind fun s' => mmapLoop mem map body fuel ((offset + entrySize) % 2 ^ 32) s'
    else some s

/-- The body of the first loop, on `first_avail_base` and `highest_end`. -/
def scanEntry (s : Option ℕ × ℕ) (entry : MmapEntry) : Option ℕ × ℕ :=
  if entry.regionType = 1 then
    (if s.1.isNone then some entry.base else s.1, if entry.limit > s.2 then entry.limit else s.2)
  else s

/-- `memory_start`, from the base of the first available entry. -/
def memoryStart (base : ℕ) : ℕ :=
  let pageBase := base - base % 0x1000
  if pageBase < 0x100000 then 0x100000 else pageBase

/-- `memory_end`, from the highest end of an available entry. -/
def memoryEnd (highestEnd : ℕ) : ℕ := min highestEnd 0x10000000

/-- The body of the second loop. -/
def releaseEntry (pmm : PmmAllocator) (memoryStart memoryEnd : ℕ) (bm : Bitmap) (entry : MmapEntry) :
    Option Bitmap :=
  if entry.regionType = 1 then
    let clampBase := if entry.base < memoryStart then memoryStart else entry.base
    let clampEnd := min entry.limit memoryEnd
    if clampEnd > clampBase then pmm.initRegion bm clampBase (clampEnd - clampBase) else some bm
  else some bm

/-- `apply_mmap_to_pmm`: the allocator, the bitmap and the result. -/
def applyMmapToPmm (fuel : ℕ) (mem : ℕ → BitVec 8) (pmm : PmmAllocator) (bm : Bitmap) (mbi : ℕ) :
    Option (PmmAllocator × Bitmap × Bool) :=
  if hasMmap mem mbi = false then some (pmm, bm, false)
  else
    let map := mmapAt mem mbi
    (mmapLoop mem map (fun s e => some (scanEntry s e)) fuel 0 (none, 0)).bind fun s =>
      match s.1 with
      | none => some (pmm, bm, false)
      | some base =>
        let start := memoryStart base
        let stop := memoryEnd s.2
        let r := initAllUsed start stop
        (mmapLoop mem map (releaseEntry r.1 start stop) fuel 0 r.2).map fun bm' => (r.1, bm', true)

/-! ### The entries of the map -/

/-- The entries the loops visit. -/
def mmapEntries (mem : ℕ → BitVec 8) (map : Mmap) : ℕ → ℕ → Option (List MmapEntry)
  | 0, offset => if offset < map.length then none else some []
  | fuel + 1, offset =>
    if offset < map.length then
      let entry := readEntry mem ((map.addr + offset) % 2 ^ 32)
      (mmapEntries mem map fuel ((offset + (entry.size + 4) % 2 ^ 32) % 2 ^ 32)).map (entry :: ·)
    else some []

section

variable {σ : Type*} {mem : ℕ → BitVec 8} {map : Mmap} {body : σ → MmapEntry → Option σ}
  {es : List MmapEntry} {fuel offset a k : ℕ} {s t : σ}

/-- **A loop over the map** is a loop over its entries. -/
theorem mmapLoop_eq (h : mmapLoop mem map body fuel offset s = some t) :
    ∃ es, mmapEntries mem map fuel offset = some es ∧ es.foldlM body s = some t := by
  induction fuel generalizing offset s with
  | zero =>
    simp only [mmapLoop, mmapEntries] at h ⊢
    split_ifs at h ⊢
    · exact ⟨[], rfl, h⟩
  | succ fuel ih =>
    simp only [mmapLoop, mmapEntries] at h ⊢
    split_ifs at h ⊢
    · obtain ⟨s', hbody, hrest⟩ := Option.bind_eq_some_iff.mp h
      obtain ⟨es, hes, hfold⟩ := ih hrest
      refine ⟨_, by rw [hes, Option.map_some], ?_⟩
      rw [List.foldlM_cons, hbody]
      exact hfold
    · exact ⟨[], rfl, h⟩

/-- The address is in an available entry. -/
def Available (es : List MmapEntry) (a : ℕ) : Prop :=
  ∃ e ∈ es, e.regionType = 1 ∧ e.base ≤ a ∧ a < e.base + e.length

/-- The address is in an available entry, with its end as it is computed. -/
def Seen (es : List MmapEntry) (a : ℕ) : Prop :=
  ∃ e ∈ es, e.regionType = 1 ∧ e.base ≤ a ∧ a < e.limit

/-- The address is on page `k`. -/
def OnPage (p : PmmAllocator) (k a : ℕ) : Prop :=
  p.memoryStart + k * 4096 ≤ a ∧ a < p.memoryStart + k * 4096 + 4096

/-- The range found by the first loop. -/
def scan (es : List MmapEntry) : Option ℕ × ℕ := es.foldl scanEntry (none, 0)

end

/-! ### What is freed -/

section Release

variable {p : PmmAllocator} {bm bm' : Bitmap} {e : MmapEntry} {es : List MmapEntry} {stop k : ℕ}

theorem limit_lt (e : MmapEntry) : e.limit < 2 ^ 64 := Nat.mod_lt _ (by norm_num)

/-- A page meets a range that is not empty if they have an address in common. -/
theorem meets_iff {lo hi : ℕ} (h : lo < hi) :
    p.Meets k lo (hi - lo) ↔ ∃ a, OnPage p k a ∧ lo ≤ a ∧ a < hi := by
  unfold Meets OnPage
  constructor
  · rintro ⟨hlow, hhigh⟩
    exact ⟨max lo (p.memoryStart + k * 4096), by omega, by omega, by omega⟩
  · rintro ⟨a, hpage, hlo, hhi⟩
    omega

/-- One entry of the second loop. -/
theorem releaseEntry_test (p : PmmAllocator) (stop : ℕ) (bm : Bitmap) (e : MmapEntry) :
    ∃ bm', releaseEntry p p.memoryStart stop bm e = some bm' ∧
      ∀ k < pmmMaxPages, bm'.test k = false ↔
        bm.test k = false ∨ ∃ a, OnPage p k a ∧ a < stop ∧ e.regionType = 1 ∧ e.base ≤ a ∧
          a < e.limit := by
  unfold releaseEntry
  by_cases htype : e.regionType = 1
  · rw [if_pos htype]
    dsimp only
    generalize hlo : (if e.base < p.memoryStart then p.memoryStart else e.base) = lo
    have hmax : lo = max p.memoryStart e.base := by
      rw [← hlo]
      split_ifs
      · omega
      · omega
    have hlimit := limit_lt e
    split_ifs with hclamp
    · obtain ⟨bm', hinit, htest⟩ := initRegion_test
        (show p.memoryStart ≤ lo by omega) (show 0 < min e.limit stop - lo by omega)
        (by omega) bm
      refine ⟨bm', hinit, fun k hk => ?_⟩
      rw [htest k hk, Bool.and_eq_false_iff, Bool.not_eq_false', decide_eq_true_iff,
        meets_iff hclamp]
      refine or_congr_right (exists_congr fun a => ?_)
      unfold OnPage
      omega
    · refine ⟨bm, rfl, fun k _ => (or_iff_left ?_).symm⟩
      rintro ⟨a, hpage, hstop, -, hbase, hend⟩
      unfold OnPage at hpage
      omega
  · rw [if_neg htype]
    refine ⟨bm, rfl, fun k _ => (or_iff_left ?_).symm⟩
    rintro ⟨a, -, -, ht, -⟩
    exact htype ht

/-- The second loop. -/
theorem release_test (p : PmmAllocator) (stop : ℕ) (es : List MmapEntry) (bm : Bitmap) :
    ∃ bm', es.foldlM (releaseEntry p p.memoryStart stop) bm = some bm' ∧
      ∀ k < pmmMaxPages, bm'.test k = false ↔
        bm.test k = false ∨ ∃ a, OnPage p k a ∧ a < stop ∧ Seen es a := by
  induction es generalizing bm with
  | nil => exact ⟨bm, rfl, fun k _ => by simp [Seen]⟩
  | cons e es ih =>
    obtain ⟨bm₁, hhead, htest₁⟩ := releaseEntry_test p stop bm e
    obtain ⟨bm₂, htail, htest₂⟩ := ih bm₁
    refine ⟨bm₂, by rw [List.foldlM_cons, hhead]; exact htail, fun k hk => ?_⟩
    rw [htest₂ k hk, htest₁ k hk, or_assoc, ← exists_or]
    refine or_congr_right (exists_congr fun a => ?_)
    simp only [Seen, List.exists_mem_cons_iff]
    tauto

end Release

section Apply

variable {mem : ℕ → BitVec 8} {pmm p : PmmAllocator} {bm₀ bm : Bitmap} {fuel mbi : ℕ}

/-- **The memory map applied**: everything in the range is used, but the pages with an address in an
available entry. -/
theorem applyMmap_spec (h : applyMmapToPmm fuel mem pmm bm₀ mbi = some (p, bm, true)) :
    ∃ es base, mmapEntries mem (mmapAt mem mbi) fuel 0 = some es ∧ (scan es).1 = some base ∧
      p = overRegion (memoryStart base) (memoryEnd (scan es).2) ∧
      ∀ k < pmmMaxPages, bm.test k = false ↔
        ∃ a, OnPage p k a ∧ a < memoryEnd (scan es).2 ∧ Seen es a := by
  unfold applyMmapToPmm at h
  split_ifs at h
  · simp only [Option.some.injEq, Prod.mk.injEq, Bool.false_eq_true, and_false] at h
  · obtain ⟨s, hscan, h⟩ := Option.bind_eq_some_iff.mp h
    obtain ⟨es, hes, hfold⟩ := mmapLoop_eq hscan
    have hs : s = scan es := by
      have hpure : es.foldlM (fun s e => pure (scanEntry s e)) (none, 0) = some s := hfold
      rw [List.foldlM_pure] at hpure
      exact (Option.some.inj hpure).symm
    subst hs
    cases hbase : (scan es).1 with
    | none =>
      simp only [hbase, Option.some.injEq, Prod.mk.injEq, Bool.false_eq_true, and_false] at h
    | some base =>
      simp only [hbase, Option.map_eq_some_iff, Prod.mk.injEq] at h
      obtain ⟨bm', hloop, rfl, rfl, -⟩ := h
      obtain ⟨es', hes', hrelease⟩ := mmapLoop_eq hloop
      obtain rfl : es = es' := Option.some.inj (hes.symm.trans hes')
      obtain ⟨bm₁, hfold₁, htest⟩ := release_test
        (overRegion (memoryStart base) (memoryEnd (scan es).2)) (memoryEnd (scan es).2) es
        (WordBitmap.fill 0xFF#8)
      obtain rfl : bm₁ = bm' := Option.some.inj (hfold₁.symm.trans hrelease)
      refine ⟨es, base, hes, hbase, rfl, fun k hk => ?_⟩
      rw [htest k hk]
      refine or_iff_right ?_
      have hones : (WordBitmap.fill 0xFF#8 : Bitmap).test k = true :=
        WordBitmap.test_fill_ones (by norm_num) (lt_bits hk)
      simp [hones]

theorem memoryStart_ge (base : ℕ) : 0x100000 ≤ memoryStart base := by
  simp only [memoryStart]
  split_ifs with h
  · exact le_rfl
  · omega

theorem memoryStart_aligned (base : ℕ) : memoryStart base % 4096 = 0 := by
  simp only [memoryStart]
  split_ifs with h
  · rfl
  · omega

end Apply

/-! ### What is allocated -/

/-- Every page `alloc` can return, through either handle and after any calls, lies between 1 MiB and
256 MiB and in available entries. -/
def AllocatesAvailable (es : List MmapEntry) (p : PmmAllocator) (bm : Bitmap) : Prop :=
  ∀ (ops : List PmmOp) (s : PmmSystem), Run PmmSystem.Step (PmmSystem.booted p bm) ops s →
    ∀ h, s.allocResult h ≠ 0 → 0x100000 ≤ s.allocResult h ∧ s.allocResult h + 4096 ≤ 0x10000000 ∧
      ∀ a, s.allocResult h ≤ a → a < s.allocResult h + 4096 → Available es a

section Allocated

variable {p : PmmAllocator} {bm bm' : Bitmap} {s : PmmSystem} {ops : List PmmOp} {f k : ℕ}

/-- Calls of `alloc`, made through the boot-time handle. -/
theorem run_allocs {n : ℕ} (hrun : Run p.Served bm (List.replicate n .alloc) bm') :
    ∃ ops s, Run PmmSystem.Step (PmmSystem.booted p bm) ops s ∧ s.boot = p ∧ s.bitmap = bm' := by
  generalize hreqs : List.replicate n Request.alloc = reqs at hrun
  induction hrun generalizing n with
  | nil => exact ⟨[], _, Run.nil _, rfl, rfl⟩
  | @snoc t u as r _ hlast ih =>
    obtain rfl : r = .alloc := by
      refine List.eq_of_mem_replicate (n := n) ?_
      rw [hreqs]
      exact List.mem_append_right _ (List.mem_singleton_self r)
    have hlen : as = List.replicate (n - 1) .alloc := by
      have hdrop := congrArg List.dropLast hreqs
      rw [List.dropLast_replicate, List.dropLast_concat] at hdrop
      exact hdrop.symm
    obtain ⟨ops, s, hs, hboot, hbm⟩ := ih hlen.symm
    have hstep : s.Step (.alloc .boot) (s.record (s.boot.alloc s.bitmap) 1) := rfl
    refine ⟨ops ++ [.alloc .boot], s.record (s.boot.alloc s.bitmap) 1, Run.snoc hs hstep, hboot, ?_⟩
    have hu : u = (p.alloc t).1 := hlast
    rw [hu, ← hbm, ← hboot, PmmSystem.record]

/-- In a valid region only pages free at boot are ever returned. -/
theorem allocResult_free (hv : p.Valid) (hrun : Run PmmSystem.Step (PmmSystem.booted p bm) ops s)
    {h : PmmHandle} (hne : s.allocResult h ≠ 0) : s.allocResult h ∈ p.freeFrames bm := by
  have hs := PmmSystem.exclusive_run hv hrun
  unfold PmmSystem.allocResult at hne ⊢
  rw [hs.handle h] at hne ⊢
  have hmem := (alloc_some hv hne).1
  rw [hs.taken.free] at hmem
  exact hmem.1

/-- A bitmap without a free page stays as it is, and nothing is ever returned. -/
theorem run_full (hfull : ∀ k < p.totalPages, bm.test k = true)
    (hrun : Run PmmSystem.Step (PmmSystem.booted p bm) ops s) (h : PmmHandle) :
    s.allocResult h = 0 := by
  have hnone : p.alloc bm = (bm, 0) := by
    rcases alloc_cases p bm with ⟨hnone, -⟩ | ⟨a, ha⟩
    · exact hnone
    · have hfree := ha.free
      rw [hfull a ha.managed] at hfree
      cases hfree
  have hpages : ∀ n, p.allocPages bm n = (bm, 0) := by
    intro n
    cases n with
    | zero => rfl
    | succ n => simp only [allocPages, hnone, ↓reduceIte]
  have hinv : s = PmmSystem.booted p bm := by
    refine hrun.invariant (P := fun t : PmmSystem => t = PmmSystem.booted p bm) rfl
      fun t op u ht hstep => ?_
    subst ht
    have hhandle : ∀ h, (PmmSystem.booted p bm).handle h = p := by
      intro h
      cases h with
      | boot => rfl
      | global => rfl
    have hbm : (PmmSystem.booted p bm).bitmap = bm := rfl
    cases op with
    | alloc h =>
      rw [PmmSystem.Step, hhandle, hbm, hnone] at hstep
      exact hstep
    | allocPages h n =>
      rw [PmmSystem.Step, hhandle, hbm, hpages] at hstep
      exact hstep
    | free h ptr =>
      obtain ⟨⟨A, hA, -⟩, -⟩ := hstep
      cases hA
  subst hinv
  have hboot : (PmmSystem.booted p bm).handle h = p := by
    cases h with
    | boot => rfl
    | global => rfl
  rw [PmmSystem.allocResult, hboot]
  exact congrArg Prod.snd hnone

/-- A page free at boot is returned by some call. -/
theorem exists_allocResult (hv : p.Valid) (hk : k < p.totalPages) (hfree : bm.test k = false) :
    ∃ ops s, Run PmmSystem.Step (PmmSystem.booted p bm) ops s ∧
      s.allocResult .boot = p.memoryStart + k * 4096 := by
  obtain ⟨n, bm', hrun, hmem, -⟩ := exists_returned (Nat.le_of_lt hv.fits) hv.pos hk hfree
  obtain ⟨ops, s, hs, hboot, hbm⟩ := run_allocs hrun
  refine ⟨ops, s, hs, ?_⟩
  rw [PmmSystem.allocResult, PmmSystem.handle, hboot, hbm]
  exact hmem.symm

end Allocated

section Main

variable {mem : ℕ → BitVec 8} {pmm p : PmmAllocator} {bm₀ bm : Bitmap} {fuel mbi : ℕ}

/-- The region that is managed is valid, unless it ends before it begins. -/
theorem overRegion_valid {base highest : ℕ} (h : memoryStart base ≤ memoryEnd highest) :
    (overRegion (memoryStart base) (memoryEnd highest)).Valid := by
  have hstart := memoryStart_ge base
  have hstop : memoryEnd highest ≤ 0x10000000 := Nat.min_le_right _ _
  exact ⟨memoryStart_aligned base, by simp only [overRegion]; omega,
    overRegion_fits h (by omega)⟩

/-- The pages end where the region ends. -/
theorem overRegion_top {lo hi : ℕ} (hle : lo ≤ hi) (hhi : hi < 2 ^ 64) :
    lo + (overRegion lo hi).totalPages * 4096 ≤ hi := by
  have hsub : (hi + 2 ^ 64 - lo) % 2 ^ 64 = hi - lo := by
    rw [show hi + 2 ^ 64 - lo = (hi - lo) + 2 ^ 64 by omega, Nat.add_mod_right]
    exact Nat.mod_eq_of_lt (by omega)
  simp only [overRegion, hsub, pmmPageSize]
  omega

/-- **Only available memory is allocated**, exactly if every page of the managed range that has an
address in an available entry lies inside such entries as a whole. -/
theorem applyMmap_available_iff (h : applyMmapToPmm fuel mem pmm bm₀ mbi = some (p, bm, true)) :
    ∃ es, mmapEntries mem (mmapAt mem mbi) fuel 0 = some es ∧
      (AllocatesAvailable es p bm ↔
        ∀ k < p.totalPages, (∃ a, OnPage p k a ∧ a < memoryEnd (scan es).2 ∧ Seen es a) →
          ∀ a, OnPage p k a → Available es a) := by
  obtain ⟨es, base, hes, -, rfl, htest⟩ := applyMmap_spec h
  refine ⟨es, hes, ?_⟩
  have hstop : memoryEnd (scan es).2 ≤ 0x10000000 := Nat.min_le_right _ _
  have hmax := (overRegion (memoryStart base) (memoryEnd (scan es).2)).total_le
  have hlow := memoryStart_ge base
  by_cases hle : memoryStart base ≤ memoryEnd (scan es).2
  · have hv := overRegion_valid hle
    have htop := overRegion_top hle (by omega)
    constructor
    · intro hall k hk hseen a ha
      obtain ⟨ops, s, hrun, hres⟩ :=
        exists_allocResult hv hk ((htest k (Nat.lt_of_lt_of_le hk hmax)).mpr hseen)
      have hpos := hv.pos
      have hpage := (hall ops s hrun .boot (by omega)).2.2 a
      rw [hres] at hpage
      exact hpage ha.1 ha.2
    · intro hcond ops s hrun h hne
      obtain ⟨k, hk, hres, hfree⟩ := allocResult_free hv hrun hne
      rw [hres]
      simp only [overRegion] at hk htop ⊢
      refine ⟨by omega, by omega, fun a hlo hhi => ?_⟩
      exact hcond k hk ((htest k (Nat.lt_of_lt_of_le hk hmax)).mp hfree) a ⟨hlo, hhi⟩
  · -- the range is empty: nothing is freed
    have hnone : ∀ k, ¬ ∃ a, OnPage (overRegion (memoryStart base) (memoryEnd (scan es).2)) k a ∧
        a < memoryEnd (scan es).2 ∧ Seen es a := by
      rintro k ⟨a, ⟨hlo, -⟩, hlt, -⟩
      simp only [overRegion] at hlo
      omega
    have hfull : ∀ k < (overRegion (memoryStart base) (memoryEnd (scan es).2)).totalPages,
        bm.test k = true := by
      intro k hk
      rw [← Bool.not_eq_false, htest k (Nat.lt_of_lt_of_le hk hmax)]
      exact hnone k
    refine iff_of_true (fun ops s hrun h hne => ?_) fun k _ hseen => absurd hseen (hnone k)
    exact absurd (run_full hfull hrun h) hne

/-- A map with one available entry, of the given base and length, for an information structure at
`0x9000` with its map at `0xA000`. -/
def oneEntry (base length : ℕ) (a : ℕ) : BitVec 8 :=
  let word := match a - a % 4 with
    | 0x9000 => 0x40
    | 0x902C => 24
    | 0x9030 => 0xA000
    | 0xA000 => 20
    | 0xA004 => base
    | 0xA00C => length
    | 0xA014 => 1
    | _ => 0
  BitVec.ofNat 8 (word >>> (8 * (a % 4)))

/-- A page-aligned entry. -/
theorem applyMmap_available_iff_aligned :
    ∃ p bm, applyMmapToPmm 1 (oneEntry 0x100000 0x2000) PmmAllocator.new (WordBitmap.fill 0#8)
        0x9000 = some (p, bm, true) ∧
      ∃ es, mmapEntries (oneEntry 0x100000 0x2000) (mmapAt (oneEntry 0x100000 0x2000) 0x9000) 1 0 =
          some es ∧
        (AllocatesAvailable es p bm ↔
          ∀ k < p.totalPages, (∃ a, OnPage p k a ∧ a < memoryEnd (scan es).2 ∧ Seen es a) →
            ∀ a, OnPage p k a → Available es a) := by
  have hboot : ∃ r, applyMmapToPmm 1 (oneEntry 0x100000 0x2000) PmmAllocator.new (WordBitmap.fill 0#8)
      0x9000 = some r ∧ r.2.2 = true := by
    decide +kernel
  obtain ⟨⟨p, bm, b⟩, hr, hb⟩ := hboot
  obtain rfl : b = true := hb
  exact ⟨p, bm, hr, applyMmap_available_iff hr⟩

/-- An available entry from `0x100800` on: the first call of `alloc` returns `0x100000`, half of which
is not available. -/
theorem applyMmap_unaligned :
    ∃ p bm es, applyMmapToPmm 1 (oneEntry 0x100800 0x1800) PmmAllocator.new (WordBitmap.fill 0#8)
        0x9000 = some (p, bm, true) ∧
      mmapEntries (oneEntry 0x100800 0x1800) (mmapAt (oneEntry 0x100800 0x1800) 0x9000) 1 0 =
        some es ∧
      (p.alloc bm).2 = 0x100000 ∧ ¬ Available es 0x100000 ∧ ¬ AllocatesAvailable es p bm := by
  have hboot : ∃ r, applyMmapToPmm 1 (oneEntry 0x100800 0x1800) PmmAllocator.new (WordBitmap.fill 0#8)
      0x9000 = some r ∧ r.2.2 = true ∧ (r.1.alloc r.2.1).2 = 0x100000 := by
    decide +kernel
  obtain ⟨⟨p, bm, b⟩, hr, hb, halloc⟩ := hboot
  obtain rfl : b = true := hb
  have hes : mmapEntries (oneEntry 0x100800 0x1800) (mmapAt (oneEntry 0x100800 0x1800) 0x9000) 1 0 =
      some [⟨20, 0x100800, 0, 0x1800, 0, 1⟩] := by decide +kernel
  have hnot : ¬ Available [⟨20, 0x100800, 0, 0x1800, 0, 1⟩] 0x100000 := by
    rintro ⟨e, he, -, hle, -⟩
    rw [List.mem_singleton] at he
    subst he
    exact absurd hle (by decide)
  refine ⟨p, bm, _, hr, hes, halloc, hnot, fun hall => hnot ?_⟩
  have hres : (PmmSystem.booted p bm).allocResult .boot = 0x100000 := halloc
  have hpage := (hall [] _ (Run.nil _) .boot (by rw [hres]; decide)).2.2 0x100000
  rw [hres] at hpage
  exact hpage le_rfl (by decide)

end Main

end Multiboot
end Vibix
