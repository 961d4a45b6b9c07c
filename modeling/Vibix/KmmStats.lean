import Vibix.KmmClient

/-! # Heap statistics

`dump_stats` walks the free list twice, for its bytes (`compute_free_bytes`) and for its blocks.
In every state of a run both walks end, and the numbers agree with the live allocations
(`heap_stats`). -/

/-- The cells of a tiling fill it. -/
theorem Tiles.sum_size {τ : Type*} {hi : ℕ} : ∀ {L : List (Cell τ)} {lo : ℕ}, Tiles lo hi L →
    lo + (L.map Cell.size).sum = hi
  | [], _, h => h
  | c :: L, lo, ⟨hs, _, hL⟩ => by
      have hsum := Tiles.sum_size hL
      simp only [Cell.stop] at hsum
      simp only [List.map_cons, List.sum_cons]
      omega

/-- A sum modulo `n` that stays below `n`. -/
theorem foldl_add_mod {n : ℕ} (f : ℕ → ℕ) : ∀ (L : List ℕ) (acc : ℕ), acc + (L.map f).sum < n →
    L.foldl (fun total a => (total + f a) % n) acc = acc + (L.map f).sum
  | [], _, _ => rfl
  | a :: L, acc, h => by
      simp only [List.map_cons, List.sum_cons] at h
      rw [List.foldl_cons, Nat.mod_eq_of_lt (by omega), foldl_add_mod f L _ (by omega)]
      simp only [List.map_cons, List.sum_cons]
      omega

namespace Vibix

namespace Kmm

/-- A walk along the free list; `none` when the fuel runs out. -/
def walkFree (s : Kmm) (f : ℕ → ℕ → ℕ) : ℕ → ℕ → ℕ → Option ℕ
  | 0, _, _ => none
  | fuel + 1, curr, acc =>
    if curr = 0 then some acc else s.walkFree f fuel (s.next curr) (f acc curr)

/-- `compute_free_bytes`. -/
def computeFreeBytes (fuel : ℕ) (s : Kmm) : Option ℕ :=
  s.walkFree (fun total curr => (total + s.size curr) % 2 ^ 64) fuel s.freeList 0

/-- The numbers that `dump_stats` prints. -/
structure Stats where
  totalBytes : ℕ
  usedBytes : ℕ
  freeBytes : ℕ
  count : ℕ

/-- `dump_stats`. -/
def dumpStats (fuel : ℕ) (s : Kmm) : Option Stats := do
  let freeBytes ← computeFreeBytes fuel s
  let totalBytes := (s.heapHigh + 2 ^ 64 - s.heapLow) % 2 ^ 64
  let usedBytes := (totalBytes + 2 ^ 64 - freeBytes) % 2 ^ 64
  let count ← s.walkFree (fun count _ => (count + 1) % 2 ^ 64) fuel s.freeList 0
  return ⟨totalBytes, usedBytes, freeBytes, count⟩

/-- A walk along a chain ends, and visits its nodes. -/
theorem walkFree_spec (s : Kmm) (f : ℕ → ℕ → ℕ) : ∀ (M : List ℕ) (fuel : ℕ) {curr acc : ℕ},
    Chain s.nextPtr (toPtr curr) M → M.length < fuel →
    s.walkFree f fuel curr acc = some (M.foldl f acc)
  | [], fuel, curr, acc, hchain, hfuel => by
      obtain ⟨fuel, rfl⟩ := Nat.exists_eq_succ_of_ne_zero (Nat.ne_of_gt hfuel)
      simp [walkFree, toPtr_eq_none.mp hchain]
  | b :: M, fuel, curr, acc, ⟨hb, hchain⟩, hfuel => by
      obtain ⟨fuel, rfl⟩ := Nat.exists_eq_succ_of_ne_zero (Nat.ne_of_gt (Nat.zero_lt_of_lt hfuel))
      obtain ⟨rfl, hne⟩ := toPtr_eq_some.mp hb
      rw [walkFree, if_neg hne, walkFree_spec s f M fuel hchain (by simpa using hfuel)]
      rfl

/-- Between two free blocks there is a live one. -/
theorem freeStarts_le_live : ∀ {L : List Block}, L.IsChain NotBothFree →
    (freeStarts L).length ≤ (liveBlocks L).length + 1 ∧
      ((∀ c ∈ L.head?, c.tag ≠ none) → (freeStarts L).length ≤ (liveBlocks L).length)
  | [], _ => by simp
  | c :: L, h => by
      obtain ⟨hnext, hL⟩ := List.isChain_cons.mp h
      obtain ⟨hle, hlive⟩ := freeStarts_le_live hL
      cases htag : c.tag with
      | some m =>
        rw [freeStarts_cons_live htag, liveBlocks_cons_live htag]
        simp only [List.length_cons]
        omega
      | none =>
        have hrest := hlive fun d hd hfree => hnext d hd ⟨htag, hfree⟩
        rw [freeStarts_cons_free htag, liveBlocks_cons_free htag]
        simp [htag]
        omega

end Kmm

namespace HeapSystem

open Kmm

variable {p : PmmAllocator} {bm : Bitmap} {mem : PhysMem} {s : HeapSystem} {ops : List HeapOp}

/-- The bytes of the free blocks and of the live ones are the heap. -/
theorem Stores.sum_sizes {L : List Block} (h : s.Stores L) :
    s.heap.heapLow + (((freeStarts L).map s.heap.size).sum +
      (s.live.map fun x => s.heap.size (x.1 - 24)).sum) = s.heap.heapHigh := by
  have hall := ((blocks_perm s.heap L).map Cell.size).sum_eq
  have hlive := (h.2.map fun x => s.heap.size (x.1 - 24)).sum_eq
  have hsum := h.1.tiles.sum_size
  rw [← List.map_congr_left h.1.size] at hsum
  simp only [List.map_append, List.map_map, List.sum_append] at hall
  change (L.map fun c => s.heap.size c.start).sum =
    ((liveBlocks L).map fun x => s.heap.size (x.1 - 24)).sum + ((freeStarts L).map s.heap.size).sum
    at hall
  omega

/-- What `dump_stats` prints about a tiling. -/
theorem Stores.dumpStats {L : List Block} {fuel : ℕ} (h : s.Stores L)
    (hfuel : (freeStarts L).length < fuel) :
    Kmm.dumpStats fuel s.heap = some ⟨s.heap.heapHigh - s.heap.heapLow,
      (s.live.map fun x => s.heap.size (x.1 - 24)).sum, ((freeStarts L).map s.heap.size).sum,
      (freeStarts L).length⟩ := by
  have hsum := h.sum_sizes
  have hhigh := h.1.high
  have hcells := h.1.tiles.length_le
  have hlen := freeStarts_length_le L
  have hbytes := foldl_add_mod s.heap.size (freeStarts L) 0 (n := 2 ^ 64) (by omega)
  have hcount := foldl_add_mod (fun _ => 1) (freeStarts L) 0 (n := 2 ^ 64) (by simp; omega)
  simp only [Kmm.dumpStats, computeFreeBytes, walkFree_spec _ _ _ _ h.1.chain hfuel, hbytes, hcount,
    Option.bind_eq_bind, Option.bind_some, Option.pure_def, List.map_const', List.sum_replicate,
    smul_eq_mul, mul_one, Nat.zero_add]
  congr 2 <;> omega

/-- **The statistics are right.**  After any run of `kmalloc`, `kfree` and client stores,
`dump_stats` returns.  The bytes in use are those of the live blocks, which have room for what was
requested; used and free bytes make up the heap; and there is at most one free block more than there
are allocations. -/
theorem heap_stats (hinit : p.Initialised bm) (haligned : p.memoryStart % 4096 = 0)
    (hpos : 0 < p.memoryStart) (hrun : Run Step (boot p bm mem) ops s) :
    ∃ N, ∀ fuel ≥ N, ∃ st, Kmm.dumpStats fuel s.heap = some st ∧
      st.usedBytes = (s.live.map fun x => s.heap.size (x.1 - 24)).sum ∧
      (s.live.map fun x => x.2 + 24).sum ≤ st.usedBytes ∧
      st.freeBytes + st.usedBytes = st.totalBytes ∧
      s.heap.heapLow + st.totalBytes = s.heap.heapHigh ∧ st.count ≤ s.live.length + 1 := by
  obtain ⟨L, hstores⟩ : ∃ L, s.Stores L := represented_run (hinit.valid haligned hpos) hrun
  have hsum := hstores.sum_sizes
  have hroom : (s.live.map fun x => x.2 + 24).sum ≤
      (s.live.map fun x => s.heap.size (x.1 - 24)).sum := by
    refine List.sum_le_sum fun x hx => ?_
    obtain ⟨c, hc, htag, hptr⟩ := mem_liveBlocks.mp (hstores.2.mem_iff.mpr hx)
    have hpay := (hstores.1.ok c hc).payload x.2 htag
    rwa [show x.1 - 24 = c.start by omega, hstores.1.size c hc]
  have hle := (freeStarts_le_live hstores.1.coalesced).1
  rw [hstores.2.length_eq] at hle
  refine ⟨(freeStarts L).length + 1, fun fuel hfuel =>
    ⟨_, hstores.dumpStats hfuel, rfl, hroom, ?_, ?_, hle⟩⟩ <;> dsimp only <;> omega

/-- The heap of a boot without a memory map, after a request for 100 bytes. -/
theorem heap_stats_fallback :
    ∃ s, Run Step (boot (PmmAllocator.init 0x100000 0x10000000).1
        (PmmAllocator.init 0x100000 0x10000000).2 fun _ _ => 0#64) [.kmalloc 100] s ∧
      ∃ fuel st, dumpStats fuel s.heap = some st ∧ st.freeBytes + st.usedBytes = st.totalBytes := by
  have hinit := PmmAllocator.Initialised.init (show 0x100000 ≤ 0x10000000 by norm_num)
    (by norm_num)
  obtain ⟨s', ptr, halloc, -⟩ := alloc_spec (m := 100)
    (represented_boot (hinit.valid rfl (Nat.succ_pos _)) _ fun _ _ => 0#64) (by norm_num)
  obtain ⟨r, hr, -⟩ := Option.map_eq_some_iff.mp halloc
  have hstep : Step (boot _ _ fun _ _ => 0#64) (.kmalloc 100) _ := ⟨by norm_num, _, r, hr, rfl⟩
  obtain ⟨N, hstats⟩ := heap_stats hinit rfl (Nat.succ_pos _) (.single hstep)
  obtain ⟨st, hst, -, -, hall, -⟩ := hstats N le_rfl
  exact ⟨_, .single hstep, N, st, hst, hall⟩

end HeapSystem

end Vibix
