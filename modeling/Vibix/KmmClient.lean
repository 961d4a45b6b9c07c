import Vibix.KmmRun

/-! # The kernel heap for its clients

`kmalloc` and `kfree` on the heap together with the list of live allocations.  The heap has fewer
blocks than bytes, so `HEAP_HIGH` bounds the walks along its free list, and in every represented
state both calls return.  `alloc_spec` and `free_spec` are what a client may rely on: which
allocations are live afterwards, and that the words outside the heap and in the payloads of live
allocations (`Untouched`) keep their values.  A client's own stores go to its payload
(`Represented.put`). -/

namespace Vibix

namespace Kmm

variable {s : Kmm} {a b n prev curr block v fuel m ptr : ℕ} {L : List Block}

/-- The word at `a` is not in the header of the block at `b`. -/
def Off (a b : ℕ) : Prop := a % 8 = 0 ∧ b % 8 = 0 ∧ (a < b ∨ b + 24 ≤ a)

theorem readWord_setField (h : Off a b) {k : ℕ} (hk : k < 3) (w : BitVec 64) :
    (s.setField b k w).mem.readWord a = s.mem.readWord a := by
  obtain ⟨ha, hb, hoff⟩ := h
  rw [setField, PhysMem.readWord_writeWord, if_neg]
  omega

theorem readWord_setMagic (h : Off a b) : (s.setMagic b).mem.readWord a = s.mem.readWord a :=
  readWord_setField h (by norm_num) _

theorem readWord_setSize (h : Off a b) : (s.setSize b v).mem.readWord a = s.mem.readWord a :=
  readWord_setField h (by norm_num) _

theorem readWord_setNext (h : Off a b) : (s.setNext b v).mem.readWord a = s.mem.readWord a :=
  readWord_setField h (by norm_num) _

theorem readWord_setLink (h : prev ≠ 0 → Off a prev) :
    (s.setLink prev v).mem.readWord a = s.mem.readWord a := by
  unfold setLink
  split_ifs with hp
  · rfl
  · exact readWord_setNext (h hp)

/-- Taking a block writes to its header, to the header of the remainder, and to a link. -/
theorem readWord_takeBlock (hcurr : Off a curr) (hprev : prev ≠ 0 → Off a prev)
    (hrest : minBlockSize ≤ s.size curr - n → Off a ((curr + n) % 2 ^ 64)) :
    (s.takeBlock n prev curr).mem.readWord a = s.mem.readWord a := by
  unfold takeBlock
  rw [readWord_setMagic hcurr]
  split_ifs with hsplit
  · have hnew := hrest hsplit
    unfold splitBlock
    rw [readWord_setLink hprev, readWord_setNext hcurr, readWord_setNext hnew,
      readWord_setSize hnew, readWord_setMagic hnew, readWord_setSize hcurr]
  · exact readWord_setLink hprev

/-- Joining writes to the header of the block and to that of its predecessor. -/
theorem readWord_join (hblock : Off a block) (hprev : prev ≠ 0 → Off a prev) :
    ((s.joinNext block curr).joinPrev prev block).mem.readWord a = s.mem.readWord a := by
  have hnext : (s.joinNext block curr).mem.readWord a = s.mem.readWord a := by
    unfold joinNext
    split_ifs
    · rw [readWord_setNext hblock, readWord_setSize hblock]
    · exact readWord_setNext hblock
  rw [← hnext]
  unfold joinPrev
  split_ifs with hp
  · rw [readWord_setNext (hprev hp.1), readWord_setSize (hprev hp.1)]
  · exact readWord_setLink hprev

theorem takeBlock_bounds : (s.takeBlock n prev curr).bounds = s.bounds := by
  unfold takeBlock splitBlock
  split_ifs <;> simp

theorem joinPrev_bounds : (s.joinPrev prev block).bounds = s.bounds := by
  unfold joinPrev
  split_ifs <;> simp

/-- The link before a place in the free list is `FREE_LIST`, or in a free block. -/
theorem ofPtr_lastOr {X : List ℕ} (h : ofPtr (lastOr (some 0) X) ≠ 0) :
    ofPtr (lastOr (some 0) X) ∈ X := by
  rcases lastOr_cases (d := some 0) X with ⟨rfl, -⟩ | ⟨Y, y, rfl, hlast⟩
  · exact absurd rfl h
  · rw [hlast]
    simp

/-- `kmalloc` writes to free blocks only. -/
theorem kmalloc_frame {r : Kmm × ℕ} (h : HeapInv s L) (hm : m ≤ 2 ^ 63) (hfuel : L.length < fuel)
    (hr : kmalloc fuel s m = some r) :
    r.1.bounds = s.bounds ∧ ∀ a, a % 8 = 0 →
      (∀ c ∈ L, c.tag = none → a < c.start ∨ c.stop ≤ a) → r.1.mem.readWord a = s.mem.readWord a := by
  by_cases hm0 : m = 0
  · rw [kmalloc, if_pos hm0] at hr
    cases hr
    exact ⟨rfl, fun _ _ _ => rfl⟩
  rcases kmalloc_cases h hm0 hfuel with ⟨hnull, -⟩ | ⟨A, c, B, hL, hc, hfit, hsome⟩
  · rw [hnull] at hr
    cases hr
    exact ⟨rfl, fun _ _ _ => rfl⟩
  · rw [hsome] at hr
    cases hr
    have hcL : c ∈ L := by simp [hL]
    have hmod := (h.ok c hcL).start_mod
    have hstop := h.stop_lt hcL
    refine ⟨takeBlock_bounds, fun a ha hout => ?_⟩
    have hoff : ∀ d ∈ L, d.tag = none → Off a d.start := by
      intro d hd hdf
      have hd24 := (h.ok d hd).size_le
      have hda := hout d hd hdf
      simp only [Cell.stop] at hda
      exact ⟨ha, (h.ok d hd).start_mod, by omega⟩
    refine readWord_takeBlock (hoff c hcL hc) (fun hp => ?_) fun hsplit => ?_
    · obtain ⟨d, hd, hdf, heq⟩ := mem_freeStarts.mp (ofPtr_lastOr hp)
      rw [← heq]
      exact hoff d (hL ▸ List.mem_append_left _ hd) hdf
    · -- the remainder is inside the block
      have hca := hout c hcL hc
      have hneed := needed_eq (show m ≤ 2 ^ 64 - 32 by omega)
      rw [h.size c hcL, minBlockSize] at hsplit
      simp only [Cell.stop] at hca hstop
      rw [Nat.mod_eq_of_lt (by omega)]
      exact ⟨ha, by omega, by omega⟩

/-- `kfree` writes to headers only. -/
theorem kfree_frame {s' : Kmm} (h : HeapInv s L) (hlive : (ptr, m) ∈ liveBlocks L)
    (hfuel : L.length < fuel) (hr : kfree fuel s ptr = some s') :
    s'.bounds = s.bounds ∧ ∀ a, (∀ c ∈ L, Off a c.start) → s'.mem.readWord a = s.mem.readWord a := by
  obtain ⟨c, hcL, hc, rfl⟩ := mem_liveBlocks.mp hlive
  have hpos := (h.ok c hcL).pos
  have hblock := h.block_of_ptr hcL
  obtain ⟨A, B, rfl⟩ := List.append_of_mem hcL
  have hspot := h.findSpot_live hc hfuel
  simp only [kfree, hblock, hspot, if_neg (show c.start + 24 ≠ 0 by omega), h.magic c hcL,
    ne_eq, not_true_eq_false, ↓reduceIte] at hr
  cases hr
  refine ⟨by rw [joinPrev_bounds, joinNext_bounds], fun a hoff => ?_⟩
  refine readWord_join (hoff c hcL) fun hp => ?_
  obtain ⟨d, hd, -, heq⟩ := mem_freeStarts.mp (ofPtr_lastOr hp)
  rw [← heq]
  exact hoff d (List.mem_append_left _ hd)

end Kmm

namespace HeapSystem

open Kmm

/-- `kmalloc`: the allocation is live from now on, unless the result is null. -/
def alloc (s : HeapSystem) (size : ℕ) : Option (HeapSystem × ℕ) :=
  (Kmm.kmalloc (s.heap.heapHigh + 1) s.heap size).map fun r =>
    (⟨r.1, if r.2 = 0 then s.live else (r.2, size) :: s.live⟩, r.2)

/-- `kfree`. -/
def free (s : HeapSystem) (ptr : ℕ) : Option HeapSystem :=
  (Kmm.kfree (s.heap.heapHigh + 1) s.heap ptr).map fun heap =>
    ⟨heap, s.live.filter fun x => x.1 ≠ ptr⟩

/-- A client stores a word. -/
def put (s : HeapSystem) (a : ℕ) (v : BitVec 64) : HeapSystem :=
  { s with heap := { s.heap with mem := s.heap.mem.writeWord a v } }

/-- The word at `a`. -/
def word (s : HeapSystem) (a : ℕ) : BitVec 64 := s.heap.mem.readWord a

/-- The word at `a` is not the allocator's: it is in the payload of a live allocation, or outside
the heap. -/
def Untouched (s : HeapSystem) (a : ℕ) : Prop :=
  a % 8 = 0 ∧ (s.InPayload a ∨ a < s.heap.heapLow ∨ s.heap.heapHigh ≤ a)

variable {s s' : HeapSystem} {a b p q m n : ℕ} {L : List Block}

theorem word_put (v : BitVec 64) :
    (s.put a v).word b = if a / 8 = b / 8 then v else s.word b :=
  PhysMem.readWord_writeWord _ _ _ _

/-- The blocks around an untouched word. -/
theorem Untouched.off (ha : s.Untouched a) (h : HeapInv s.heap L)
    (hperm : (liveBlocks L).Perm s.live) {c : Block} (hc : c ∈ L) :
    Off a c.start ∧ (c.tag = none → a < c.start ∨ c.stop ≤ a) := by
  obtain ⟨hmod, hcases⟩ := ha
  have hok := h.ok c hc
  have hcmod := hok.start_mod
  have hmin := hok.size_le
  obtain ⟨hlo, hhi⟩ := h.tiles.bounds hc
  simp only [Cell.stop, Off] at hhi ⊢
  rcases hcases with ⟨x, hx, hge, hlt⟩ | hout
  · obtain ⟨d, hd, htag, hptr⟩ := mem_liveBlocks.mp (hperm.mem_iff.mpr hx)
    have hpay := (h.ok d hd).payload x.2 htag
    by_cases hcd : c = d
    · subst hcd
      exact ⟨⟨hmod, hcmod, by omega⟩, fun hfree => by rw [hfree] at htag; cases htag⟩
    · have happ := h.tiles.apart hc hd hcd
      simp only [Cell.stop] at happ
      exact ⟨⟨hmod, hcmod, by omega⟩, fun _ => by omega⟩
  · exact ⟨⟨hmod, hcmod, by omega⟩, fun _ => by omega⟩

/-- Live allocations do not overlap. -/
theorem Represented.apart (h : s.Represented) (hp : (p, m) ∈ s.live) (hq : (q, n) ∈ s.live)
    (hne : p ≠ q) : p + m ≤ q ∨ q + n ≤ p := by
  obtain ⟨L, hinv, hperm⟩ := h
  obtain ⟨c, hc, hctag, rfl⟩ := mem_liveBlocks.mp (hperm.mem_iff.mpr hp)
  obtain ⟨d, hd, hdtag, rfl⟩ := mem_liveBlocks.mp (hperm.mem_iff.mpr hq)
  have hcpay := (hinv.ok c hc).payload m hctag
  have hdpay := (hinv.ok d hd).payload n hdtag
  have happ := hinv.tiles.apart hc hd fun hcd => hne (by rw [hcd])
  simp only [Cell.stop] at happ
  omega

/-- A pointer is live once. -/
theorem Represented.nodup (h : s.Represented) : (s.live.map Prod.fst).Nodup := by
  obtain ⟨L, hinv, hperm⟩ := h
  refine (hperm.map Prod.fst).nodup_iff.mp ?_
  rw [liveBlocks, List.map_filterMap, List.nodup_iff_pairwise_ne, List.pairwise_filterMap]
  refine (List.pairwise_map.mp hinv.tiles.starts_lt).imp fun hlt b hb b' hb' => ?_
  simp only [Option.map_map, Option.map_eq_some_iff, Function.comp_apply] at hb hb'
  obtain ⟨-, -, rfl⟩ := hb
  obtain ⟨-, -, rfl⟩ := hb'
  omega

/-- Live pointers are aligned, and their payloads are in the heap. -/
theorem Represented.live_ok (h : s.Represented) (hp : (p, m) ∈ s.live) :
    p % 8 = 0 ∧ s.heap.heapLow ≤ p ∧ p + m ≤ s.heap.heapHigh ∧ p ≠ 0 := by
  obtain ⟨L, hinv, hperm⟩ := h
  obtain ⟨c, hc, hctag, rfl⟩ := mem_liveBlocks.mp (hperm.mem_iff.mpr hp)
  have hpay := (hinv.ok c hc).payload m hctag
  have hmod := (hinv.ok c hc).start_mod
  obtain ⟨hlo, hhi⟩ := hinv.tiles.bounds hc
  simp only [Cell.stop] at hhi
  omega

theorem Represented.high_lt (h : s.Represented) : s.heap.heapHigh < 2 ^ 64 := by
  obtain ⟨L, hinv, -⟩ := h
  exact hinv.high

theorem Represented.size_unique (h : s.Represented) (hm : (p, m) ∈ s.live) (hn : (p, n) ∈ s.live) :
    m = n := by
  obtain ⟨L, hinv, hperm⟩ := h
  obtain ⟨c, hc, hctag, hcp⟩ := mem_liveBlocks.mp (hperm.mem_iff.mpr hm)
  obtain ⟨d, hd, hdtag, hdp⟩ := mem_liveBlocks.mp (hperm.mem_iff.mpr hn)
  obtain rfl := hinv.tiles.eq_of_start hc hd (by omega)
  exact Option.some.inj (hctag.symm.trans hdtag)

/-- **`kmalloc` for a client.** -/
theorem alloc_spec (h : s.Represented) (hm : m ≤ 2 ^ 63) :
    ∃ s' ptr, s.alloc m = some (s', ptr) ∧ s'.Represented ∧ s'.heap.bounds = s.heap.bounds ∧
      (∀ a, s.Untouched a → s'.word a = s.word a) ∧
      (ptr = 0 ∧ s'.live = s.live ∨ ptr ≠ 0 ∧ s'.live = (ptr, m) :: s.live) := by
  obtain ⟨L, hinv, hperm⟩ := id h
  have hlen := hinv.tiles.length_le
  have hfuel : L.length < s.heap.heapHigh + 1 := by omega
  obtain ⟨r, hr⟩ : ∃ r, Kmm.kmalloc (s.heap.heapHigh + 1) s.heap m = some r := by
    rcases kmalloc_inv hinv hm hfuel with hnull | ⟨heap', ptr, -, hsome, -⟩
    · exact ⟨_, hnull⟩
    · exact ⟨_, hsome⟩
  obtain ⟨hbounds, hframe⟩ := kmalloc_frame hinv hm hfuel hr
  refine ⟨_, _, by rw [alloc, hr, Option.map_some], h.kmalloc hm hr, hbounds, fun a ha => ?_, ?_⟩
  · exact hframe a ha.1 fun c hc => (ha.off hinv hperm hc).2
  · by_cases hnull : r.2 = 0
    · exact .inl ⟨hnull, if_pos hnull⟩
    · exact .inr ⟨hnull, if_neg hnull⟩

/-- Giving up a pointer gives up its allocation. -/
theorem Represented.erase_live (h : s.Represented) (hp : (p, m) ∈ s.live) :
    s.live.erase (p, m) = s.live.filter fun x => x.1 ≠ p := by
  rw [h.nodup.of_map.erase_eq_filter]
  refine List.filter_congr fun x hx => ?_
  rw [Bool.eq_iff_iff, bne_iff_ne, decide_eq_true_iff]
  constructor
  · rintro hne rfl
    exact hne (Prod.ext rfl (h.size_unique hx hp))
  · rintro hne rfl
    exact hne rfl

/-- **`kfree` for a client.** -/
theorem free_spec (h : s.Represented) (hp : (p, m) ∈ s.live) :
    ∃ s', s.free p = some s' ∧ s'.Represented ∧ s'.heap.bounds = s.heap.bounds ∧
      (∀ a, s.Untouched a → s'.word a = s.word a) ∧
      ∀ x, x ∈ s'.live ↔ x ∈ s.live ∧ x.1 ≠ p := by
  obtain ⟨L, hinv, hperm⟩ := id h
  have hlen := hinv.tiles.length_le
  have hfuel : L.length < s.heap.heapHigh + 1 := by omega
  have hlive := hperm.mem_iff.mpr hp
  obtain ⟨heap', -, hr, -⟩ := kfree_inv hinv hlive hfuel
  obtain ⟨hbounds, hframe⟩ := kfree_frame hinv hlive hfuel hr
  refine ⟨_, by rw [free, hr, Option.map_some], h.erase_live hp ▸ h.kfree hp hr, hbounds,
    fun a ha => ?_, ?_⟩
  · exact hframe a fun c hc => (ha.off hinv hperm hc).1
  · simp

end HeapSystem

end Vibix
