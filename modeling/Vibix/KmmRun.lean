import Vibix.KmmHeap

/-! # Runs of the kernel heap

`HeapSystem` is the heap with its clients' view: the pointers `kmalloc` has returned and
`kfree` has not taken back, each with the size requested.  A step is one call of `kmalloc` or
`kfree`, or any writes of the clients into the payloads they own.

`Represented` is the invariant: the heap stores some tiling whose live blocks are the clients'
pointers.  It holds after `init` (`represented_boot`) and is kept by every step
(`Represented.step`). -/

namespace Vibix

open Kmm

/-- The heap and the live allocations: payload pointer and size requested. -/
structure HeapSystem where
  heap : Kmm
  live : List (ℕ × ℕ)

/-- One event at the heap. -/
inductive HeapOp
  | kmalloc (size : ℕ)
  | kfree (ptr : ℕ)
  | store

namespace HeapSystem

/-- The system after `kmm::init`. -/
def boot (p : PmmAllocator) (bm : Bitmap) (mem : PhysMem) : HeapSystem :=
  ⟨(Kmm.init p bm mem).2, []⟩

/-- The word at `a` belongs to the payload of a live allocation. -/
def InPayload (s : HeapSystem) (a : ℕ) : Prop := ∃ x ∈ s.live, x.1 ≤ a ∧ a < x.1 + x.2

/-- One step: a call that returns, or stores of the clients. -/
def Step (s : HeapSystem) : HeapOp → HeapSystem → Prop
  | .kmalloc m, s' => m ≤ 2 ^ 63 ∧ ∃ fuel r, kmalloc fuel s.heap m = some r ∧
      s' = ⟨r.1, if r.2 = 0 then s.live else (r.2, m) :: s.live⟩
  | .kfree ptr, s' => ∃ m fuel h, (ptr, m) ∈ s.live ∧ kfree fuel s.heap ptr = some h ∧
      s' = ⟨h, s.live.erase (ptr, m)⟩
  | .store, s' => ∃ mem, s' = ⟨{ s.heap with mem := mem }, s.live⟩ ∧
      ∀ a, a % 8 = 0 → ¬ s.InPayload a → mem.readWord a = s.heap.mem.readWord a

/-- The heap stores a tiling whose live blocks are the live allocations. -/
def Represented (s : HeapSystem) : Prop :=
  ∃ L, HeapInv s.heap L ∧ (liveBlocks L).Perm s.live

/-- The heap stores the tiling `L`, whose live blocks are the live allocations. -/
def Stores (s : HeapSystem) (L : List Block) : Prop :=
  HeapInv s.heap L ∧ (liveBlocks L).Perm s.live

/-! ### Fuel -/

section Fuel

variable {s : Kmm} {n m fuel k prev curr block ptr : ℕ}

theorem findFit_mono : ∀ {fuel prev curr : ℕ} {r : ℕ × ℕ},
    s.findFit n fuel prev curr = some r → s.findFit n (fuel + k) prev curr = some r
  | 0, _, _, _, h => by simp [findFit] at h
  | fuel + 1, prev, curr, r, h => by
      rw [Nat.add_right_comm]
      simp only [findFit] at h ⊢
      split_ifs at h ⊢ with h0 h1
      · exact h
      · exact h
      · exact findFit_mono h

theorem findSpot_mono : ∀ {fuel prev curr : ℕ} {r : ℕ × ℕ},
    s.findSpot block fuel prev curr = some r → s.findSpot block (fuel + k) prev curr = some r
  | 0, _, _, _, h => by simp [findSpot] at h
  | fuel + 1, prev, curr, r, h => by
      rw [Nat.add_right_comm]
      simp only [findSpot] at h ⊢
      split_ifs at h ⊢ with h0
      · exact findSpot_mono h
      · exact h

/-- A call that returns returns the same with more fuel. -/
theorem kmalloc_mono {r : Kmm × ℕ} (h : kmalloc fuel s m = some r) :
    kmalloc (fuel + k) s m = some r := by
  unfold kmalloc at h ⊢
  split_ifs at h ⊢ with h0
  · exact h
  · cases hfind : s.findFit (needed m) fuel 0 s.freeList with
    | none => simp [hfind] at h
    | some q =>
      rw [hfind] at h
      rw [findFit_mono hfind]
      exact h

theorem kfree_mono {r : Kmm} (h : kfree fuel s ptr = some r) :
    kfree (fuel + k) s ptr = some r := by
  simp only [kfree] at h ⊢
  split_ifs at h ⊢ with h0 h1
  · exact h
  · exact h
  · cases hfind : s.findSpot ((ptr + 2 ^ 64 - headerSize) % 2 ^ 64) fuel 0 s.freeList with
    | none =>
      rw [hfind] at h
      cases h
    | some q =>
      rw [hfind] at h
      rw [findSpot_mono hfind]
      exact h

end Fuel

/-! ### The invariant -/

section Invariant

variable {p : PmmAllocator} {bm : Bitmap} {mem : PhysMem} {s s' : HeapSystem} {op : HeapOp}

theorem represented_boot (hv : p.Valid) (bm : Bitmap) (mem : PhysMem) :
    Represented (boot p bm mem) := by
  simp only [boot, Kmm.init]
  rcases p.allocPages_spec hv bm initialHeapPages with ⟨hnull, _⟩ | ⟨hne, _, htake⟩
  · rw [if_pos hnull]
    refine ⟨[], ⟨⟨rfl, by norm_num, by simp, by simp, by simp⟩, ?_, List.IsChain.nil⟩, by simp⟩
    simp
  · rw [if_neg hne]
    set base := (p.allocPages bm initialHeapPages).2
    have hfirst : p.Managed base :=
      htake.managed (PmmAllocator.mem_frames.mpr ⟨0, by norm_num [initialHeapPages], by simp⟩)
    have hlast : p.Managed (base + 255 * 4096) :=
      htake.managed (PmmAllocator.mem_frames.mpr ⟨255, by norm_num [initialHeapPages], rfl⟩)
    have haligned := hfirst.aligned hv
    have hpos := hfirst.pos hv
    have hlt := hlast.lt
    have hfits := hv.fits
    have hhigh : base + 256 * 4096 < 2 ^ 64 := by linarith
    have hmod : (base + 256 * 4096) % 2 ^ 64 = base + 256 * 4096 := Nat.mod_eq_of_lt hhigh
    simp only [initialHeapPages, pmmPageSize, hmod]
    refine ⟨[⟨base, 256 * 4096, none⟩], ⟨⟨?_, ?_, ?_, ?_, ?_⟩, ?_, List.IsChain.singleton _⟩, ?_⟩
    · exact ⟨rfl, by norm_num, rfl⟩
    · exact hhigh
    · simp only [List.mem_singleton, forall_eq]
      exact ⟨hpos, by simp only; omega, by norm_num, by norm_num, by simp⟩
    · simp only [List.mem_singleton, forall_eq, size_eq_header, header_freeList,
        header_setNext_self, header_setSize_self]
      norm_num
    · simp only [List.mem_singleton, forall_eq, magic_eq_header, header_freeList,
        header_setNext_self, header_setSize_self, header_setMagic_self]
    · rw [freeStarts_cons_free rfl]
      refine ⟨by simp; omega, ?_⟩
      simp only [freeStarts_nil, Chain.nil_iff, nextPtr, next_eq_header, header_freeList,
        header_setNext_self]
      norm_num
    · rw [liveBlocks_cons_free rfl, liveBlocks_nil]

theorem Represented.kmalloc {m fuel : ℕ} {r : Kmm × ℕ} (h : s.Represented) (hm : m ≤ 2 ^ 63)
    (hr : Kmm.kmalloc fuel s.heap m = some r) :
    Represented ⟨r.1, if r.2 = 0 then s.live else (r.2, m) :: s.live⟩ := by
  obtain ⟨L, hinv, hperm⟩ := h
  have hmore := kmalloc_mono (k := L.length + 1) hr
  rcases kmalloc_inv hinv hm (show L.length < fuel + (L.length + 1) by omega) with
    hnull | ⟨heap', ptr, L', hsome, hne, hinv', hperm'⟩
  · obtain rfl : (s.heap, 0) = r := Option.some.inj (hnull.symm.trans hmore)
    exact ⟨L, hinv, by simpa using hperm⟩
  · obtain rfl : (heap', ptr) = r := Option.some.inj (hsome.symm.trans hmore)
    refine ⟨L', hinv', ?_⟩
    rw [if_neg hne]
    exact hperm'.trans (hperm.cons _)

theorem Represented.kfree {ptr m fuel : ℕ} {heap' : Kmm} (h : s.Represented)
    (hlive : (ptr, m) ∈ s.live) (hr : Kmm.kfree fuel s.heap ptr = some heap') :
    Represented ⟨heap', s.live.erase (ptr, m)⟩ := by
  obtain ⟨L, hinv, hperm⟩ := h
  have hmore := kfree_mono (k := L.length + 1) hr
  obtain ⟨heap'', L', hsome, hinv', hperm'⟩ := kfree_inv hinv (hperm.mem_iff.mpr hlive)
    (show L.length < fuel + (L.length + 1) by omega)
  obtain rfl : heap'' = heap' := Option.some.inj (hsome.symm.trans hmore)
  refine ⟨L', hinv', ?_⟩
  have hall := hperm'.symm.trans hperm
  have herase := hall.erase (ptr, m)
  rwa [List.erase_cons_head] at herase

/-- Client stores do not reach any header. -/
theorem Stores.store {mem : PhysMem} {L : List Block} (h : s.Stores L)
    (hmem : ∀ a, a % 8 = 0 → ¬ s.InPayload a → mem.readWord a = s.heap.mem.readWord a) :
    Stores ⟨{ s.heap with mem := mem }, s.live⟩ L := by
  obtain ⟨hinv, hperm⟩ := h
  have hfield : ∀ c ∈ L, ∀ k, k < 3 →
      ({ s.heap with mem := mem } : Kmm).field c.start k = s.heap.field c.start k := by
    intro c hc k hk
    have hok := hinv.ok c hc
    have hmod := hok.start_mod
    have hmin := hok.size_le
    refine hmem _ (by omega) ?_
    rintro ⟨x, hx, hlo, hhi⟩
    obtain ⟨d, hd, htag, hptr⟩ := mem_liveBlocks.mp (hperm.mem_iff.mpr hx)
    have hpay := (hinv.ok d hd).payload x.2 htag
    by_cases hcd : c = d
    · subst hcd
      omega
    · rcases hinv.tiles.apart hc hd hcd with hle | hle
      · simp only [Cell.stop] at hle
        omega
      · simp only [Cell.stop] at hle
        omega
  refine ⟨⟨⟨hinv.tiles, hinv.high, hinv.ok, ?_, ?_⟩, ?_, hinv.coalesced⟩, hperm⟩
  · intro c hc
    rw [Kmm.size, hfield c hc 1 (by norm_num)]
    exact hinv.size c hc
  · intro c hc
    rw [Kmm.magic, hfield c hc 0 (by norm_num)]
    exact hinv.magic c hc
  · refine hinv.chain.congr ?_
    intro a ha
    obtain ⟨c, hc, _, rfl⟩ := mem_freeStarts.mp ha
    rw [nextPtr, nextPtr, Kmm.next, hfield c hc 2 (by norm_num)]
    rfl

theorem Represented.store {mem : PhysMem} (h : s.Represented)
    (hmem : ∀ a, a % 8 = 0 → ¬ s.InPayload a → mem.readWord a = s.heap.mem.readWord a) :
    Represented ⟨{ s.heap with mem := mem }, s.live⟩ := by
  obtain ⟨L, hstores⟩ : ∃ L, s.Stores L := h
  exact ⟨L, hstores.store hmem⟩

/-- **One step keeps the representation.** -/
theorem Represented.step (h : s.Represented) (hstep : s.Step op s') : s'.Represented := by
  cases op with
  | kmalloc m =>
    obtain ⟨hm, fuel, r, hr, rfl⟩ := hstep
    exact h.kmalloc hm hr
  | kfree ptr =>
    obtain ⟨m, fuel, heap', hlive, hr, rfl⟩ := hstep
    exact h.kfree hlive hr
  | store =>
    obtain ⟨mem, rfl, hmem⟩ := hstep
    exact h.store hmem

theorem represented_run (hv : p.Valid) {ops : List HeapOp}
    (h : Run Step (boot p bm mem) ops s) : s.Represented :=
  Run.invariant (represented_boot hv bm mem) (fun _ _ _ hs hstep => hs.step hstep) h

/-! ### What the representation says about memory -/

/-- The block with header at `b`, as an interval. -/
def blockAt (k : Kmm) (b : ℕ) : Cell Unit := ⟨b, k.size b, ()⟩

theorem tiles_blockAt {k : Kmm} {hi : ℕ} : ∀ {L : List Block} {lo : ℕ}, Tiles lo hi L →
    (∀ c ∈ L, k.size c.start = c.size) → Tiles lo hi (L.map fun c => blockAt k c.start)
  | [], _, h, _ => h
  | c :: L, _, ⟨hs, hpos, hL⟩, hsize => by
      have hc := hsize c List.mem_cons_self
      refine ⟨hs, by simpa [blockAt, hc] using hpos, ?_⟩
      have hstop : (blockAt k c.start).stop = c.stop := by simp [blockAt, Cell.stop, hc]
      rw [hstop]
      exact tiles_blockAt hL fun d hd => hsize d (List.mem_cons_of_mem _ hd)

/-- Every block is live or free. -/
theorem blocks_perm (k : Kmm) : ∀ L : List Block,
    (L.map fun c => blockAt k c.start).Perm
      (((liveBlocks L).map fun x => blockAt k (x.1 - 24)) ++ (freeStarts L).map (blockAt k))
  | [] => by simp
  | c :: L => by
      cases htag : c.tag with
      | none =>
        rw [liveBlocks_cons_free htag, freeStarts_cons_free htag]
        simp only [List.map_cons]
        exact ((blocks_perm k L).cons _).trans List.perm_middle.symm
      | some m =>
        rw [liveBlocks_cons_live htag, freeStarts_cons_live htag]
        simp only [List.map_cons, List.cons_append, Nat.add_sub_cancel]
        exact (blocks_perm k L).cons _

/-- The starts of the free blocks ascend. -/
theorem freeStarts_sorted {lo hi : ℕ} {L : List Block} (h : Tiles lo hi L) :
    (freeStarts L).Pairwise (· < ·) :=
  h.starts_lt.sublist (List.filter_sublist.map _)

/-- Free blocks of a coalesced tiling are not adjacent: between two of them lies a live one. -/
theorem free_not_adjacent {lo hi : ℕ} {L : List Block} {c d : Block} (h : Tiles lo hi L)
    (hco : L.IsChain NotBothFree) (hc : c ∈ L) (hd : d ∈ L) (hcf : c.tag = none)
    (hdf : d.tag = none) : c.stop ≠ d.start := by
  intro hadj
  obtain ⟨A, B, rfl⟩ := List.append_of_mem hc
  obtain ⟨htA, hpos, htB⟩ := h.split
  have hdB : d ∈ B := by
    rcases List.mem_append.mp hd with hdA | hdB
    · have hb := (htA.bounds hdA).2
      simp only [Cell.stop] at hb hadj
      omega
    · rcases List.mem_cons.mp hdB with rfl | hdB
      · simp only [Cell.stop] at hadj
        omega
      · exact hdB
  cases B with
  | nil => simp at hdB
  | cons e B =>
    have he : e.start = d.start := htB.1.trans hadj
    have hed : e = d := htB.eq_of_start List.mem_cons_self hdB he
    exact (coalesced_around hcf hco).1 e rfl (hed ▸ hdf)

/-- **The kernel heap representation.**  After any run of `kmalloc` (requests up to `2 ^ 63`),
`kfree` of live pointers and client stores, starting from `init` on an initialised PMM:

* from `FREE_LIST` the links visit a finite list of blocks (so it is acyclic), in strictly
  ascending order, no two of them adjacent;
* the live blocks and the free blocks together tile `[HEAP_LOW, HEAP_HIGH)` exactly;
* every live block lies inside the heap, its payload is 8-byte aligned and at least as large
  as requested;
* every further call of `kmalloc`, and of `kfree` on a live pointer, returns. -/
theorem heap_representation (hinit : p.Initialised bm) (haligned : p.memoryStart % 4096 = 0)
    (hpos : 0 < p.memoryStart) {ops : List HeapOp} (hrun : Run Step (boot p bm mem) ops s) :
    (∃ free : List ℕ, Chain s.heap.nextPtr (toPtr s.heap.freeList) free ∧ free.Nodup ∧
      free.Pairwise (· < ·) ∧ (∀ a ∈ free, ∀ b ∈ free, a + s.heap.size a ≠ b) ∧
      ∃ T, Tiles s.heap.heapLow s.heap.heapHigh T ∧
        T.Perm ((s.live.map fun x => blockAt s.heap (x.1 - 24)) ++ free.map (blockAt s.heap))) ∧
    (∀ x ∈ s.live, s.heap.heapLow + 24 ≤ x.1 ∧
      x.1 - 24 + s.heap.size (x.1 - 24) ≤ s.heap.heapHigh ∧ x.1 % 8 = 0 ∧
      x.2 ≤ s.heap.size (x.1 - 24) - 24) ∧
    (∀ m, m ≤ 2 ^ 63 → ∃ fuel r, kmalloc fuel s.heap m = some r) ∧
    (∀ x ∈ s.live, ∃ fuel r, kfree fuel s.heap x.1 = some r) := by
  have hv := hinit.valid haligned hpos
  obtain ⟨L, hinv, hperm⟩ := represented_run hv hrun
  refine ⟨⟨freeStarts L, hinv.chain, hinv.chain.nodup, freeStarts_sorted hinv.tiles, ?_, ?_⟩,
    ?_, ?_, ?_⟩
  · intro a ha b hb
    obtain ⟨c, hc, hcf, rfl⟩ := mem_freeStarts.mp ha
    obtain ⟨d, hd, hdf, rfl⟩ := mem_freeStarts.mp hb
    rw [hinv.size c hc]
    exact free_not_adjacent hinv.tiles hinv.coalesced hc hd hcf hdf
  · refine ⟨_, tiles_blockAt hinv.tiles hinv.size, ?_⟩
    exact (blocks_perm s.heap L).trans ((hperm.map _).append_right _)
  · intro x hx
    obtain ⟨c, hc, htag, hptr⟩ := mem_liveBlocks.mp (hperm.mem_iff.mpr hx)
    have hok := hinv.ok c hc
    have hmod := hok.start_mod
    have hpay := hok.payload x.2 htag
    obtain ⟨hlo, hhi⟩ := hinv.tiles.bounds hc
    rw [show x.1 - 24 = c.start by omega, hinv.size c hc]
    simp only [Cell.stop] at hhi
    omega
  · intro m hm
    rcases kmalloc_inv hinv hm (Nat.lt_succ_self _) with hnull | ⟨s', ptr, _, hsome, _⟩
    · exact ⟨_, _, hnull⟩
    · exact ⟨_, _, hsome⟩
  · intro x hx
    obtain ⟨h', _, hsome, _⟩ := kfree_inv hinv (hperm.mem_iff.mpr hx) (Nat.lt_succ_self _)
    exact ⟨_, h', hsome⟩

/-- The heap of a boot without a memory map, after one request for 100 bytes. -/
theorem heap_representation_fallback :
    ∃ s, Run Step (boot (PmmAllocator.init 0x100000 0x10000000).1
        (PmmAllocator.init 0x100000 0x10000000).2 fun _ _ => 0#64) [.kmalloc 100] s ∧
      (∀ x ∈ s.live, x.1 % 8 = 0 ∧ x.2 ≤ s.heap.size (x.1 - 24) - 24) := by
  have hinit := PmmAllocator.Initialised.init (show 0x100000 ≤ 0x10000000 by norm_num)
    (by norm_num)
  have hnil := heap_representation hinit rfl (Nat.succ_pos _)
    (Run.nil (boot _ _ fun _ _ => 0#64))
  obtain ⟨fuel, r, hr⟩ := hnil.2.2.1 100 (by norm_num)
  have hstep : Step (boot _ _ fun _ _ => 0#64) (.kmalloc 100) _ :=
    ⟨by norm_num, fuel, r, hr, rfl⟩
  have h := heap_representation hinit rfl (Nat.succ_pos _) (Run.single hstep)
  exact ⟨_, Run.single hstep, fun x hx => (h.2.1 x hx).2.2⟩

end Invariant

end HeapSystem

end Vibix
