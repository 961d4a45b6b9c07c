import Vibix.KmmClient

/-! # The free list is determined by the live blocks

`kfree` merges a block with its free neighbours, so the free blocks are exactly the gaps between the
live ones.  Hence the free list, with its sizes and links, depends on nothing but the live blocks:
`sameFreeList_of_live` for two heap states that store tilings of one heap.

* **One call.** `kmalloc` adds one block to the live ones and `kfree` takes one away, both without a
  change to any other (`kmalloc_cells`, `kfree_cells`).
* **What is owed.** `Owes s t xs`: since `s` the allocations `xs` were made and not yet returned.
  With nothing owed, the free list is that of `s` (`Owes.sameFreeList`).
* **Runs.** So whatever was obtained (`obtained_owes`) and then returned in any order
  (`returned_owes`) leaves the free list of the beginning (`free_restores`).
* **Sizes.** `kmalloc_provides_iff` is about requests near `2 ^ 64`, where the block size that is
  needed wraps. -/

namespace Vibix

namespace Kmm

variable {s t s' : Kmm} {L M : List Block} {c : Block} {fuel m ptr : ℕ}

/-- From `FREE_LIST` on, the links lead through the same blocks, of the same sizes. -/
def SameFreeList (s t : Kmm) : Prop :=
  s.freeList = t.freeList ∧ ∃ F, Chain s.nextPtr (toPtr s.freeList) F ∧
    Chain t.nextPtr (toPtr t.freeList) F ∧ ∀ a ∈ F, s.size a = t.size a ∧ s.next a = t.next a

/-! ### Tilings and free lists -/

theorem toPtr_injective {p q : ℕ} (h : toPtr p = toPtr q) : p = q := by
  by_cases hp : p = 0
  · have hq : toPtr q = none := h ▸ toPtr_eq_none.mpr hp
    rw [hp, toPtr_eq_none.mp hq]
  · exact (toPtr_eq_some.mp (h ▸ toPtr_eq_some.mpr ⟨rfl, hp⟩)).1.symm

/-- Two chains through the same nodes have the same links. -/
theorem chain_links {F : List ℕ} {p q : Option ℕ} (hs : Chain s.nextPtr p F)
    (ht : Chain t.nextPtr q F) : p = q ∧ ∀ a ∈ F, s.next a = t.next a := by
  induction F generalizing p q with
  | nil => exact ⟨hs.trans ht.symm, by simp⟩
  | cons b F ih =>
    obtain ⟨hp, hs⟩ := hs
    obtain ⟨hq, ht⟩ := ht
    obtain ⟨hnext, hrest⟩ := ih hs ht
    refine ⟨hp.trans hq.symm, fun a ha => ?_⟩
    rcases List.mem_cons.mp ha with rfl | ha
    · exact toPtr_injective hnext
    · exact hrest a ha

theorem freeStarts_alike (h : List.Forall₂ (Cell.Alike fun c : Block => c.tag = none) L M) :
    freeStarts L = freeStarts M := by
  induction h with
  | nil => rfl
  | @cons c d L M hcd _ ih =>
    obtain ⟨hstart, -, hfree⟩ := hcd
    cases htag : c.tag with
    | none => rw [freeStarts_cons_free htag, freeStarts_cons_free (hfree.mp htag), hstart, ih]
    | some m =>
      cases htag' : d.tag with
      | none =>
        rw [hfree.mpr htag'] at htag
        cases htag
      | some m' => rw [freeStarts_cons_live htag, freeStarts_cons_live htag', ih]

/-- **The live blocks determine the free list.** -/
theorem sameFreeList_of_live (hs : HeapInv s L) (ht : HeapInv t M) (hbounds : t.bounds = s.bounds)
    (hLM : FixedIn (fun c : Block => c.tag = none) L M)
    (hML : FixedIn (fun c : Block => c.tag = none) M L) : SameFreeList s t := by
  obtain ⟨hlow, hhigh⟩ := Prod.mk.inj hbounds
  have htiles := ht.tiles
  rw [hlow, hhigh] at htiles
  have halike := hs.tiles.alike htiles hs.coalesced ht.coalesced hLM hML
  have hfree := freeStarts_alike halike
  have hchain := ht.chain
  rw [← hfree] at hchain
  obtain ⟨hhead, hnext⟩ := chain_links hs.chain hchain
  refine ⟨toPtr_injective hhead, freeStarts L, hs.chain, hchain, fun a ha => ⟨?_, hnext a ha⟩⟩
  obtain ⟨c, hc, -, rfl⟩ := mem_freeStarts.mp ha
  obtain ⟨d, hd, hstart, hsize, -⟩ := exists_alike halike hc
  rw [hs.size c hc, hsize, hstart, ht.size d hd]

/-- The same live blocks, in whatever order. -/
theorem fixedIn_of_perm (h : (liveCells L).Perm (liveCells M)) :
    FixedIn (fun c : Block => c.tag = none) L M := by
  intro c hc hlive
  obtain ⟨m, hm⟩ := Option.ne_none_iff_exists'.mp hlive
  have hmem := h.mem_iff.mp (mem_liveCells.mpr ⟨hc, m, hm⟩)
  exact ⟨c, (mem_liveCells.mp hmem).1, hlive, rfl, rfl⟩

/-! ### One call -/

/-- A successful request adds a block to the live ones. -/
theorem kmalloc_cells (h : HeapInv s L) (hm : m ≤ 2 ^ 63)
    (hr : kmalloc fuel s m = some (s', ptr)) (hne : ptr ≠ 0) :
    s'.bounds = s.bounds ∧ ∃ L' c, HeapInv s' L' ∧ c.start + 24 = ptr ∧ c.tag = some m ∧
      (liveCells L').Perm (c :: liveCells L) := by
  have hmore := HeapSystem.kmalloc_mono (k := L.length + 1) hr
  have hfuel : L.length < fuel + (L.length + 1) := by omega
  refine ⟨(kmalloc_frame h hm hfuel hmore).1, ?_⟩
  rcases kmalloc_tiling h (show m ≤ 2 ^ 64 - 32 by omega) hfuel with
    hnull | ⟨A, c, B, s₁, rfl, hc, hsome, hinv⟩
  · cases hnull.symm.trans hmore
    exact absurd rfl hne
  · cases hsome.symm.trans hmore
    have hcells := allocated_cells (n := needed m) (m := m) c
    generalize (if minBlockSize ≤ c.size - needed m then needed m else c.size) = n at hcells
    refine ⟨_, ⟨c.start, n, some m⟩, hinv, rfl, rfl, ?_⟩
    rw [liveCells_append, liveCells_append, hcells, liveCells_append, liveCells_cons_free hc]
    simp only [List.append_assoc, List.singleton_append]
    exact List.perm_middle

/-- Returning a live pointer takes its block away from the live ones. -/
theorem kfree_cells (h : HeapInv s L) (hlive : (ptr, m) ∈ liveBlocks L)
    (hr : kfree fuel s ptr = some s') :
    s'.bounds = s.bounds ∧ ∃ L' c, HeapInv s' L' ∧ c.start + 24 = ptr ∧ c.tag = some m ∧
      (liveCells L).Perm (c :: liveCells L') := by
  have hmore := HeapSystem.kfree_mono (k := L.length + 1) hr
  have hfuel : L.length < fuel + (L.length + 1) := by omega
  refine ⟨(kfree_frame h hlive hfuel hmore).1, ?_⟩
  obtain ⟨c, hcL, hc, rfl⟩ := mem_liveBlocks.mp hlive
  obtain ⟨s₁, L', hfree, hinv, hperm⟩ := kfree_tiling h hcL hc hfuel
  cases hfree.symm.trans hmore
  exact ⟨L', c, hinv, rfl, hc, hperm⟩

end Kmm

namespace HeapSystem

open Kmm

/-- A call of `kmalloc` that succeeds, with the pointer it returns and the size requested. -/
def Obtains (s : HeapSystem) (x : ℕ × ℕ) (s' : HeapSystem) : Prop :=
  x.2 ≤ 2 ^ 63 ∧ x.1 ≠ 0 ∧ ∃ fuel heap, kmalloc fuel s.heap x.2 = some (heap, x.1) ∧
    s' = ⟨heap, x :: s.live⟩

/-- A call of `kfree` with a live pointer. -/
def Returns (s : HeapSystem) (ptr : ℕ) (s' : HeapSystem) : Prop := s.Step (.kfree ptr) s'

variable {s t t' : HeapSystem} {L M : List Block} {xs ys : List (ℕ × ℕ)} {ptrs : List ℕ}
  {fuel ptr m : ℕ}

/-! ### What is owed to the heap -/

/-- From `s` to `t` the allocations `xs` were made: the live blocks of `t` are those of `s` and the
blocks of `xs`. -/
def Owes (s t : HeapSystem) (xs : List (ℕ × ℕ)) : Prop :=
  t.heap.bounds = s.heap.bounds ∧ ∃ L L' cs, s.Stores L ∧ t.Stores L' ∧
    (liveCells L').Perm (cs ++ liveCells L) ∧ (liveBlocks cs).Perm xs

theorem Represented.owes (h : s.Represented) : s.Owes s [] := by
  obtain ⟨L, hstores⟩ : ∃ L, s.Stores L := h
  exact ⟨rfl, L, L, [], hstores, hstores, List.Perm.refl _, List.Perm.refl _⟩

theorem Owes.represented (h : s.Owes t xs) : t.Represented := by
  obtain ⟨-, -, L', -, -, hstores, -⟩ := h
  exact ⟨L', hstores⟩

theorem Owes.perm (h : s.Owes t xs) (hperm : xs.Perm ys) : s.Owes t ys := by
  obtain ⟨hbounds, L, L', cs, hs, ht, hcells, hxs⟩ := h
  exact ⟨hbounds, L, L', cs, hs, ht, hcells, hxs.trans hperm⟩

/-- What is owed is live. -/
theorem Owes.mem_live {x : ℕ × ℕ} (h : s.Owes t xs) (hx : x ∈ xs) : x ∈ t.live := by
  obtain ⟨-, L, L', cs, -, ht, hcells, hxs⟩ := h
  obtain ⟨c, hc, htag, hptr⟩ := mem_liveBlocks.mp (hxs.mem_iff.mpr hx)
  refine ht.2.mem_iff.mp (mem_liveBlocks.mpr ⟨c, ?_, htag, hptr⟩)
  exact (mem_liveCells.mp (hcells.mem_iff.mpr (List.mem_append_left _ hc))).1

/-- **Nothing is owed**: the free list is what it was. -/
theorem Owes.sameFreeList (h : s.Owes t []) : SameFreeList s.heap t.heap := by
  obtain ⟨hbounds, L, L', cs, hs, ht, hcells, hxs⟩ := h
  obtain rfl : cs = [] := by
    cases cs with
    | nil => rfl
    | cons c cs =>
      obtain ⟨m, hm⟩ := (mem_liveCells.mp (hcells.mem_iff.mpr List.mem_cons_self)).2
      rw [liveBlocks_cons_live hm] at hxs
      cases hxs.eq_nil
  exact sameFreeList_of_live hs.1 ht.1 hbounds (fixedIn_of_perm hcells.symm) (fixedIn_of_perm hcells)

/-- A request adds to what is owed. -/
theorem Owes.kmalloc {heap : Kmm} (h : s.Owes t xs) (hm : m ≤ 2 ^ 63)
    (hr : Kmm.kmalloc fuel t.heap m = some (heap, ptr)) (hne : ptr ≠ 0) :
    s.Owes ⟨heap, (ptr, m) :: t.live⟩ ((ptr, m) :: xs) := by
  obtain ⟨hbounds, L, L', cs, hs, ht, hcells, hxs⟩ := h
  obtain ⟨hbounds', L₂, c, hinv, rfl, hc, hcells'⟩ := kmalloc_cells ht.1 hm hr hne
  refine ⟨hbounds'.trans hbounds, L, L₂, c :: cs, hs, ⟨hinv, ?_⟩, hcells'.trans (hcells.cons c), ?_⟩
  · rw [← liveCells_cons_live hc] at hcells'
    have hall := liveBlocks_perm hcells'
    rw [liveBlocks_cons_live hc] at hall
    exact hall.trans (ht.2.cons _)
  · rw [liveBlocks_cons_live hc]
    exact hxs.cons _

/-- Returning a pointer that is owed. -/
theorem Owes.kfree {heap : Kmm} (h : s.Owes t xs) (hx : (ptr, m) ∈ xs)
    (hr : Kmm.kfree fuel t.heap ptr = some heap) :
    s.Owes ⟨heap, t.live.erase (ptr, m)⟩ (xs.erase (ptr, m)) := by
  have hlive := h.mem_live hx
  obtain ⟨hbounds, L, L', cs, hs, ht, hcells, hxs⟩ := h
  obtain ⟨hbounds', L₂, c, hinv, rfl, hc, hcells'⟩ :=
    kfree_cells ht.1 (ht.2.mem_iff.mpr hlive) hr
  -- the block returned is one of those that were added
  have hcs : c ∈ cs := by
    obtain ⟨d, hd, -, hstart⟩ := mem_liveBlocks.mp (hxs.mem_iff.mpr hx)
    have hdL := (mem_liveCells.mp (hcells.mem_iff.mpr (List.mem_append_left _ hd))).1
    have hcL := (mem_liveCells.mp (hcells'.mem_iff.mpr List.mem_cons_self)).1
    rwa [← ht.1.tiles.eq_of_start hdL hcL (by omega)]
  have hsplit := List.perm_cons_erase hcs
  refine ⟨hbounds'.trans hbounds, L, L₂, cs.erase c, hs, ⟨hinv, ?_⟩, ?_, ?_⟩
  · rw [← liveCells_cons_live hc] at hcells'
    have hall := (liveBlocks_perm hcells').symm.trans ht.2
    rw [liveBlocks_cons_live hc] at hall
    have herase := hall.erase (c.start + 24, m)
    rwa [List.erase_cons_head] at herase
  · exact (hcells'.symm.trans (hcells.trans (hsplit.append_right _))).cons_inv
  · have hall : (liveBlocks (c :: cs.erase c)).Perm xs := (hsplit.symm.filterMap _).trans hxs
    rw [liveBlocks_cons_live hc] at hall
    have herase := hall.erase (c.start + 24, m)
    rwa [List.erase_cons_head] at herase

/-- `kmalloc`, for a client. -/
theorem Owes.alloc (h : s.Owes t xs) (hm : m ≤ 2 ^ 63) (hr : t.alloc m = some (t', ptr)) :
    ptr = 0 ∧ t' = t ∨ ptr ≠ 0 ∧ s.Owes t' ((ptr, m) :: xs) := by
  obtain ⟨⟨heap, q⟩, hcall, heq⟩ := Option.map_eq_some_iff.mp hr
  obtain ⟨rfl, rfl⟩ := Prod.mk.inj heq
  by_cases hnull : q = 0
  · left
    refine ⟨hnull, ?_⟩
    obtain ⟨-, L, L', cs, -, ⟨hinv, -⟩, -⟩ := h
    have hlen := hinv.tiles.length_le
    rcases kmalloc_inv hinv hm (show L'.length < t.heap.heapHigh + 1 by omega) with
      hsame | ⟨heap', q', -, hsome, hne, -⟩
    · cases hsame.symm.trans hcall
      rfl
    · cases hsome.symm.trans hcall
      exact absurd hnull hne
  · right
    refine ⟨hnull, ?_⟩
    rw [if_neg hnull]
    exact h.kmalloc hm hcall hnull

/-- `kfree`, for a client. -/
theorem Owes.free (h : s.Owes t xs) (hx : (ptr, m) ∈ xs) (hr : t.free ptr = some t') :
    s.Owes t' (xs.erase (ptr, m)) := by
  obtain ⟨heap, hcall, rfl⟩ := Option.map_eq_some_iff.mp hr
  rw [← h.represented.erase_live (h.mem_live hx)]
  exact h.kfree hx hcall

/-- Stores of the clients. -/
theorem Owes.store {mem : PhysMem} (h : s.Owes t xs)
    (hmem : ∀ a, a % 8 = 0 → ¬ t.InPayload a → mem.readWord a = t.heap.mem.readWord a) :
    s.Owes ⟨{ t.heap with mem := mem }, t.live⟩ xs := by
  obtain ⟨hbounds, L, L', cs, hs, ht, hcells, hxs⟩ := h
  exact ⟨hbounds, L, L', cs, hs, ht.store hmem, hcells, hxs⟩

/-! ### Obtaining and returning -/

/-- **Obtaining** blocks adds them to the live ones. -/
theorem obtained_owes (hs : s.Represented) (hrun : Run Obtains s xs t) : s.Owes t xs := by
  induction hrun with
  | nil => exact hs.owes
  | snoc _ hlast ih =>
    obtain ⟨hle, hne, fuel, heap, hr, rfl⟩ := hlast
    exact (ih.kmalloc hle hr hne).perm (List.perm_append_singleton _ _).symm

/-- **Returning** blocks takes them away. -/
theorem returned_owes (ht : s.Owes t xs) (hxs : (xs.map Prod.fst).Nodup) (hnodup : ptrs.Nodup)
    (hmem : ∀ ptr ∈ ptrs, ∃ m, (ptr, m) ∈ xs) (hrun : Run Returns t ptrs t') :
    s.Owes t' (xs.filter fun x => x.1 ∉ ptrs) := by
  induction hrun with
  | nil => simpa using ht
  | @snoc u v as ptr _ hlast ih =>
    rw [List.nodup_append] at hnodup
    obtain ⟨hnodup, -, hdisj⟩ := hnodup
    have howes := ih hnodup fun q hq => hmem q (List.mem_append_left _ hq)
    obtain ⟨m, hm⟩ := hmem ptr (List.mem_append_right _ (List.mem_singleton_self ptr))
    have hnot : ptr ∉ as := fun hin => hdisj ptr hin ptr (List.mem_singleton_self ptr) rfl
    have hmem' : (ptr, m) ∈ xs.filter fun x => x.1 ∉ as := by simp [hm, hnot]
    obtain ⟨m', fuel, heap, hlive, hr, rfl⟩ := hlast
    obtain rfl : m' = m := howes.represented.size_unique hlive (howes.mem_live hmem')
    refine (howes.kfree hmem' hr).perm ?_
    rw [((hxs.of_map).filter _).erase_eq_filter, List.filter_filter]
    refine List.Perm.of_eq (List.filter_congr fun x hx => ?_)
    have heq : x = (ptr, m') ↔ x.1 = ptr :=
      ⟨fun h => by rw [h], fun h => List.inj_on_of_nodup_map hxs hx hm h⟩
    rw [Bool.eq_iff_iff]
    simp [heq, and_comm]

/-- Distinct live pointers can be returned in any order. -/
theorem exists_returned (hs : s.Represented) (hnodup : ptrs.Nodup)
    (hlive : ∀ ptr ∈ ptrs, ∃ m, (ptr, m) ∈ s.live) : ∃ t, Run Returns s ptrs t := by
  induction ptrs generalizing s with
  | nil => exact ⟨s, Run.nil s⟩
  | cons ptr ptrs ih =>
    obtain ⟨m, hm⟩ := hlive ptr List.mem_cons_self
    obtain ⟨L, hinv, hperm⟩ := id hs
    obtain ⟨heap, -, hr, -⟩ := kfree_inv hinv (hperm.mem_iff.mpr hm) (Nat.lt_succ_self _)
    have hstep : s.Returns ptr ⟨heap, s.live.erase (ptr, m)⟩ := ⟨m, _, heap, hm, hr, rfl⟩
    obtain ⟨hnot, hnodup⟩ := List.nodup_cons.mp hnodup
    obtain ⟨t, ht⟩ := ih (hs.kfree hm hr) hnodup fun q hq => by
      obtain ⟨n, hn⟩ := hlive q (List.mem_cons_of_mem ptr hq)
      refine ⟨n, (List.mem_erase_of_ne fun heq => hnot ?_).mpr hn⟩
      rwa [← (Prod.mk.inj heq).1]
    exact ⟨t, (Run.single hstep).append ht⟩

/-! ### Whole runs -/

variable {p : PmmAllocator} {bm : Bitmap} {mem : PhysMem} {ops : List HeapOp} {op : HeapOp}

/-- No step moves the heap. -/
theorem Represented.step_bounds (h : s.Represented) (hstep : s.Step op t) :
    t.heap.bounds = s.heap.bounds := by
  obtain ⟨L, hinv, hperm⟩ := h
  cases op with
  | kmalloc m =>
    obtain ⟨hm, fuel, r, hr, rfl⟩ := hstep
    exact (kmalloc_frame hinv hm (by omega) (kmalloc_mono (k := L.length + 1) hr)).1
  | kfree ptr =>
    obtain ⟨m, fuel, heap, hlive, hr, rfl⟩ := hstep
    exact (kfree_frame hinv (hperm.mem_iff.mpr hlive) (by omega)
      (kfree_mono (k := L.length + 1) hr)).1
  | store =>
    obtain ⟨mem', rfl, -⟩ := hstep
    rfl

theorem run_bounds (hv : p.Valid) (hrun : Run Step (boot p bm mem) ops s) :
    s.heap.bounds = (boot p bm mem).heap.bounds :=
  (hrun.invariant (P := fun t : HeapSystem =>
      t.Represented ∧ t.heap.bounds = (boot p bm mem).heap.bounds)
    ⟨represented_boot hv bm mem, rfl⟩
    fun _ _ _ ht hstep => ⟨ht.1.step hstep, (ht.1.step_bounds hstep).trans ht.2⟩).2

/-- A live block: the pointer to its payload, and the size in its header. -/
def LiveBlock (s : HeapSystem) (ptr size : ℕ) : Prop :=
  (∃ m, (ptr, m) ∈ s.live) ∧ s.heap.size (ptr - 24) = size

/-- The live blocks of a state are those of the other. -/
theorem fixedIn_of_liveBlock (hs : s.Stores L) (ht : t.Stores M)
    (h : ∀ ptr size, s.LiveBlock ptr size → t.LiveBlock ptr size) :
    FixedIn (fun c : Block => c.tag = none) L M := by
  intro c hc hfixed
  obtain ⟨m, hm⟩ := Option.ne_none_iff_exists'.mp hfixed
  have hmem : (c.start + 24, m) ∈ s.live :=
    hs.2.mem_iff.mp (mem_liveBlocks.mpr ⟨c, hc, hm, rfl⟩)
  obtain ⟨⟨n, hn⟩, hsize⟩ := h (c.start + 24) c.size ⟨⟨m, hmem⟩, hs.1.size c hc⟩
  obtain ⟨d, hd, hdtag, hstart⟩ := mem_liveBlocks.mp (ht.2.mem_iff.mpr hn)
  rw [show c.start + 24 - 24 = d.start by omega, ht.1.size d hd] at hsize
  refine ⟨d, hd, fun hnone => ?_, by omega, hsize⟩
  exact Option.some_ne_none n (hdtag.symm.trans hnone)

theorem obtained_live (hrun : Run Obtains s xs t) : t.live = xs.reverse ++ s.live := by
  induction hrun with
  | nil => rfl
  | snoc _ hlast ih =>
    obtain ⟨-, -, fuel, heap, -, rfl⟩ := hlast
    simp [ih]

/-- **Freeing restores the heap.**  From any state the heap can be in, after any successful requests,
the pointers obtained can be returned in any order, and the free list is then what it was; and in any
two states with the same live blocks the free lists are the same. -/
theorem free_restores (hinit : p.Initialised bm) (haligned : p.memoryStart % 4096 = 0)
    (hpos : 0 < p.memoryStart) (hrun : Run Step (boot p bm mem) ops s) :
    (∀ xs s₁, Run Obtains s xs s₁ → ∀ ptrs : List ℕ, ptrs.Perm (xs.map Prod.fst) →
      (∃ s₂, Run Returns s₁ ptrs s₂) ∧
        ∀ s₂, Run Returns s₁ ptrs s₂ → SameFreeList s.heap s₂.heap) ∧
    (∀ ops' t, Run Step (boot p bm mem) ops' t →
      (∀ ptr size, s.LiveBlock ptr size ↔ t.LiveBlock ptr size) →
        SameFreeList s.heap t.heap) := by
  have hv := hinit.valid haligned hpos
  have hrep := represented_run hv hrun
  obtain ⟨L, hstores⟩ : ∃ L, s.Stores L := id hrep
  constructor
  · intro xs s₁ hobtain ptrs hptrs
    have howes := obtained_owes hrep hobtain
    have hxs : (xs.map Prod.fst).Nodup := by
      have hnodup := howes.represented.nodup
      rw [obtained_live hobtain, List.map_append, List.map_reverse] at hnodup
      exact List.nodup_reverse.mp hnodup.of_append_left
    have hnodup : ptrs.Nodup := hptrs.nodup_iff.mpr hxs
    have hmem : ∀ ptr ∈ ptrs, ∃ m, (ptr, m) ∈ xs := fun ptr hptr => by
      obtain ⟨x, hx, rfl⟩ := List.mem_map.mp (hptrs.mem_iff.mp hptr)
      exact ⟨x.2, hx⟩
    constructor
    · refine exists_returned howes.represented hnodup fun ptr hptr => ?_
      obtain ⟨m, hm⟩ := hmem ptr hptr
      exact ⟨m, howes.mem_live hm⟩
    · intro s₂ hreturn
      have hall : (xs.filter fun x => x.1 ∉ ptrs) = [] := by
        rw [List.filter_eq_nil_iff]
        intro x hx
        simp [hptrs.mem_iff.mpr (List.mem_map_of_mem hx)]
      have hend := returned_owes howes hxs hnodup hmem hreturn
      rw [hall] at hend
      exact hend.sameFreeList
  · intro ops' t hrun' hsame
    obtain ⟨M, hstores'⟩ : ∃ M, t.Stores M := represented_run hv hrun'
    refine sameFreeList_of_live hstores.1 hstores'.1 ?_ ?_ ?_
    · rw [run_bounds hv hrun', run_bounds hv hrun]
    · exact fixedIn_of_liveBlock hstores hstores' fun ptr size => (hsame ptr size).mp
    · exact fixedIn_of_liveBlock hstores' hstores fun ptr size => (hsame ptr size).mpr

theorem Represented.exists_kmalloc (h : s.Represented) (hm : m ≤ 2 ^ 63) :
    ∃ t, s.Step (.kmalloc m) t := by
  obtain ⟨t, ptr, halloc, -⟩ := alloc_spec h hm
  obtain ⟨r, hr, heq⟩ := Option.map_eq_some_iff.mp halloc
  exact ⟨t, hm, _, r, hr, (Prod.mk.inj heq).1.symm⟩

theorem obtains_of_alloc (hm : m ≤ 2 ^ 63) (hr : s.alloc m = some (t, ptr)) (hne : ptr ≠ 0) :
    Obtains s (ptr, m) t := by
  obtain ⟨r, hcall, heq⟩ := Option.map_eq_some_iff.mp hr
  obtain ⟨ht, rfl⟩ := Prod.mk.inj heq
  rw [if_neg hne] at ht
  exact ⟨hm, hne, _, r.1, hcall, ht.symm⟩

/-- The heap of a boot without a memory map, after one request for 100 bytes: if there is room for 8 more
bytes, returning them leaves the free list as it was. -/
theorem free_restores_fallback :
    ∃ s s₁ ptr s₂, Run Step (boot (PmmAllocator.init 0x100000 0x10000000).1
        (PmmAllocator.init 0x100000 0x10000000).2 fun _ _ => 0#64) [.kmalloc 100] s ∧
      s.alloc 8 = some (s₁, ptr) ∧
      (ptr = 0 ∨ Run Returns s₁ [ptr] s₂ ∧ SameFreeList s.heap s₂.heap) := by
  have hinit := PmmAllocator.Initialised.init (show 0x100000 ≤ 0x10000000 by norm_num) (by norm_num)
  have hv := hinit.valid rfl (Nat.succ_pos _)
  obtain ⟨s, hstep⟩ := (represented_boot hv _ fun _ _ => 0#64).exists_kmalloc
    (show 100 ≤ 2 ^ 63 by norm_num)
  have hrun := Run.single hstep
  obtain ⟨s₁, ptr, halloc, -⟩ := alloc_spec (represented_run hv hrun) (show 8 ≤ 2 ^ 63 by norm_num)
  by_cases hnull : ptr = 0
  · exact ⟨s, s₁, ptr, s₁, hrun, halloc, .inl hnull⟩
  · obtain ⟨⟨s₂, hreturn⟩, hsame⟩ := (free_restores hinit rfl (Nat.succ_pos _) hrun).1 _ s₁
      (Run.single (obtains_of_alloc (by norm_num) halloc hnull)) [ptr] (List.Perm.refl _)
    exact ⟨s, s₁, ptr, s₂, hrun, halloc, .inr ⟨hreturn, hsame s₂ hreturn⟩⟩

end HeapSystem

namespace Kmm

/-! ### Sizes that wrap -/

variable {s : Kmm} {L : List Block} {m : ℕ}

/-- `kmalloc` returns null and leaves the heap as it is, or it returns a block of the heap whose payload
has the size requested. -/
def Provides (s : Kmm) (size : ℕ) : Prop :=
  ∃ fuel s' ptr, kmalloc fuel s size = some (s', ptr) ∧ (ptr = 0 → s' = s) ∧
    (ptr ≠ 0 → size + 24 ≤ s'.size (ptr - 24) ∧ s'.heapLow + 24 ≤ ptr ∧
      ptr - 24 + s'.size (ptr - 24) ≤ s'.heapHigh)

/-- At the top of the range the block size that is needed is that of a header, or less. -/
theorem needed_wraps (hm : 2 ^ 64 - 32 < m) (hlt : m < 2 ^ 64) : needed m ≤ 24 := by
  simp only [needed, headerSize, kmallocAlign]
  omega

/-- Without a wrap the block is large enough. -/
theorem provides_of_le (h : HeapInv s L) (hm : m ≤ 2 ^ 64 - 32) : Provides s m := by
  rcases kmalloc_tiling h hm (Nat.lt_succ_self _) with hnull | ⟨A, c, B, s', rfl, hc, hsome, hinv⟩
  · exact ⟨_, s, 0, hnull, fun _ => rfl, fun hne => absurd rfl hne⟩
  · refine ⟨_, s', _, hsome, fun hnull => by omega, fun _ => ?_⟩
    have hcells := allocated_cells (n := needed m) (m := m) c
    generalize (if minBlockSize ≤ c.size - needed m then needed m else c.size) = n at hcells
    have hmem : (⟨c.start, n, some m⟩ : Block) ∈ liveCells (allocated (needed m) m c) := by
      rw [hcells]
      exact List.mem_singleton_self _
    have hblock : (⟨c.start, n, some m⟩ : Block) ∈ A ++ allocated (needed m) m c ++ B := by
      simp [(mem_liveCells.mp hmem).1]
    have hsize : s'.size c.start = n := hinv.size _ hblock
    have hpay : m + 24 ≤ n := (hinv.ok _ hblock).payload m rfl
    obtain ⟨hlo, hhi⟩ := hinv.tiles.bounds hblock
    simp only [Cell.stop] at hlo hhi
    rw [show c.start + 24 - 24 = c.start by omega, hsize]
    omega

/-- With a wrap the first free block is returned, and no block is large enough. -/
theorem not_provides_of_wraps (h : HeapInv s L) (hm : 2 ^ 64 - 32 < m) (hlt : m < 2 ^ 64)
    (hfree : s.freeList ≠ 0) : ¬ Provides s m := by
  rintro ⟨fuel, s', ptr, hr, -, hblock⟩
  have hneed := needed_wraps hm hlt
  have hmore := HeapSystem.kmalloc_mono (k := L.length + 1) hr
  obtain ⟨c, hc, hctag⟩ : ∃ c ∈ L, c.tag = none := by
    have hchain := h.chain
    cases hL : freeStarts L with
    | nil =>
      rw [hL, Chain.nil_iff, toPtr_eq_none] at hchain
      exact absurd hchain hfree
    | cons a F =>
      obtain ⟨c, hc, hctag, -⟩ := mem_freeStarts.mp (hL ▸ List.mem_cons_self : a ∈ freeStarts L)
      exact ⟨c, hc, hctag⟩
  rcases kmalloc_cases h (show m ≠ 0 by omega) (show L.length < fuel + (L.length + 1) by omega) with
    ⟨-, hsmall⟩ | ⟨A, d, B, rfl, -, -, hsome⟩
  · have hlarge := (h.ok c hc).size_le
    have hless := hsmall c hc hctag
    omega
  · -- the payload would end behind the address space
    have hd : d ∈ A ++ d :: B := by simp
    have hpos := (h.ok d hd).pos
    have hmod := (h.ok d hd).start_mod
    have hhigh := h.high
    cases hsome.symm.trans hmore
    have hbounds : (s.takeBlock (needed m) (ofPtr (lastOr (some 0) (freeStarts A))) d.start).heapHigh =
        s.heapHigh := congrArg Prod.snd takeBlock_bounds
    have hprov := hblock (by omega)
    rw [hbounds] at hprov
    omega

/-- **Every size**: `kmalloc` provides what is requested exactly if the size leaves room for the
rounding and the header in 64 bits, or nothing is free. -/
theorem kmalloc_provides_iff (h : HeapInv s L) (hlt : m < 2 ^ 64) :
    Provides s m ↔ m ≤ 2 ^ 64 - 32 ∨ s.freeList = 0 := by
  constructor
  · intro hprov
    by_contra hnot
    rw [not_or, not_le] at hnot
    exact not_provides_of_wraps h hnot.1 hlt hnot.2 hprov
  · rintro (hle | hnull)
    · exact provides_of_le h hle
    · refine ⟨1, s, 0, ?_, fun _ => rfl, fun hne => absurd rfl hne⟩
      simp [kmalloc, findFit, hnull]

/-- A heap of one page, all of it free. -/
def onePage : Kmm :=
  (((⟨fun _ _ => 0#64, 0x1000, 0x1000, 0x2000⟩ : Kmm).setMagic 0x1000).setSize 0x1000 0x1000).setNext
    0x1000 0

theorem onePage_inv : HeapInv onePage [⟨0x1000, 0x1000, none⟩] := by
  refine ⟨⟨⟨rfl, by norm_num, rfl⟩, by decide, ?_, ?_, ?_⟩, ?_, List.IsChain.singleton _⟩
  · simp only [List.mem_singleton, forall_eq]
    exact ⟨by norm_num, by norm_num, by norm_num, by norm_num, by simp⟩
  · simp only [List.mem_singleton, forall_eq]
    decide +kernel
  · simp only [List.mem_singleton, forall_eq]
    decide +kernel
  · have hend : onePage.nextPtr 0x1000 = none := by decide +kernel
    exact ⟨by decide, hend⟩

theorem kmalloc_provides_iff_onePage :
    Provides onePage 100 ↔ 100 ≤ 2 ^ 64 - 32 ∨ onePage.freeList = 0 :=
  kmalloc_provides_iff onePage_inv (by norm_num)

/-- A request for `2 ^ 64 - 1` bytes is given a block of 24. -/
theorem kmalloc_wraps :
    (kmalloc 2 onePage (2 ^ 64 - 1)).any (fun r => r.2 = 0x1018 ∧ r.1.size 0x1000 = 24) = true ∧
      ¬ Provides onePage (2 ^ 64 - 1) :=
  ⟨by decide +kernel, not_provides_of_wraps onePage_inv (by norm_num) (by norm_num) (by decide)⟩

end Kmm

end Vibix
