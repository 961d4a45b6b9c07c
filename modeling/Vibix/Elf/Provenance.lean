import Vibix.Lib.Chain
import Mathlib.Data.Fintype.Card
import Mathlib.Logic.Function.Basic
import Mathlib.Tactic

/-! # The provenance arena

The loader records the pages it mapped in chunks of a static arena; a mask says which chunks are
free.  A load links the chunks it takes to a list and gives them all back at its end.

The source's loops over the list are modelled as loops over `LoadedPages.chunks`, the chunks met
from the head.  `Sound` is the invariant of the list: it is a chain that ends at its tail, and its
chunks are exactly those missing from the mask the load started with.  The slots in use are then a plain
list (`LoadedPages.slots`), at whose end slots are reserved (`Sound.reserve_slots`), filled
(`Sound.record_slots`) or cancelled (`Sound.cancel_slots`), and releasing the list restores the mask
(`Sound.releaseMetadata`).  The records are what is in the slots (`recorded_eq`). -/

namespace Vibix.Elf

/-- Provenance of a page allocated by one load. -/
structure LoadedPage where
  vaddr : ℕ
  paddr : ℕ
deriving DecidableEq

/-- `PROVENANCE_CHUNK_CAP`. -/
abbrev provenanceChunkCap : ℕ := 64

/-- `PROVENANCE_CHUNK_COUNT`. -/
abbrev provenanceChunkCount : ℕ := 64

/-- A chunk of the arena, by its index in `PROVENANCE_POOL`. -/
abbrev ChunkId := Fin provenanceChunkCount

/-- `LoadedPageChunk`. -/
structure LoadedPageChunk where
  next : Option ChunkId
  used : ℕ
  pages : Fin provenanceChunkCap → LoadedPage
  used_le : used ≤ provenanceChunkCap

/-- `PROVENANCE_POOL` and `PROVENANCE_FREE_MASK`. -/
structure Arena where
  pool : ChunkId → LoadedPageChunk
  freeMask : BitVec 64

/-- The arena at boot. -/
def Arena.initial : Arena := ⟨fun _ => ⟨none, 0, fun _ => ⟨0, 0⟩, Nat.zero_le _⟩, BitVec.allOnes 64⟩

/-- `LoadedPages`: the list of chunks of one load. -/
structure LoadedPages where
  head : Option ChunkId
  tail : Option ChunkId
  len : ℕ

/-- A place for a record. -/
@[ext] structure Slot where
  chunk : ChunkId
  index : Fin provenanceChunkCap
deriving DecidableEq

/-- The records of a chunk. -/
def LoadedPageChunk.entries (k : LoadedPageChunk) : List LoadedPage :=
  ((List.finRange provenanceChunkCap).take k.used).map k.pages

/-- Set the number of records of a chunk. -/
def LoadedPageChunk.setUsed (k : LoadedPageChunk) (n : ℕ) (h : n ≤ provenanceChunkCap) :
    LoadedPageChunk :=
  { k with used := n, used_le := h }

/-- Write a record of a chunk. -/
def LoadedPageChunk.setPage (k : LoadedPageChunk) (i : Fin provenanceChunkCap)
    (page : LoadedPage) : LoadedPageChunk :=
  { k with pages := Function.update k.pages i page }

/-- An empty chunk at the end of a list. -/
def LoadedPageChunk.reset (k : LoadedPageChunk) : LoadedPageChunk :=
  { k with next := none, used := 0, used_le := Nat.zero_le _ }

/-- Overwrite a chunk. -/
def Arena.setChunk (a : Arena) (c : ChunkId) (k : LoadedPageChunk) : Arena :=
  { a with pool := Function.update a.pool c k }

/-- The index `trailing_zeros` finds in the mask; none if the mask is zero. -/
def Arena.firstFree (a : Arena) : Option ChunkId :=
  (List.finRange provenanceChunkCount).find? fun c => a.freeMask.getLsbD c

/-- Write a record to a slot. -/
def Arena.record (a : Arena) (s : Slot) (page : LoadedPage) : Arena :=
  a.setChunk s.chunk ((a.pool s.chunk).setPage s.index page)

namespace LoadedPages

/-- `LoadedPages::new`. -/
def new : LoadedPages := ⟨none, none, 0⟩

/-- The chunks met from the head. -/
def chunks (l : LoadedPages) (a : Arena) : List ChunkId :=
  collect (fun c => (a.pool c).next) provenanceChunkCount l.head

/-- The records in the order of the list. -/
def recorded (l : LoadedPages) (a : Arena) : List LoadedPage :=
  (l.chunks a).flatMap fun c => (a.pool c).entries

/-- The part of `reserve` that takes a new chunk from the mask and appends it to the list. -/
def addChunk (l : LoadedPages) (a : Arena) : Option (Arena × LoadedPages × ChunkId) :=
  match a.firstFree with
  | none => none
  | some index =>
    let a := { a with freeMask := a.freeMask &&& ~~~(1#64 <<< index.val) }
    let a := a.setChunk index (a.pool index).reset
    match l.tail with
    | none => some (a, { l with head := some index, tail := some index }, index)
    | some t =>
      some (a.setChunk t { a.pool t with next := some index }, { l with tail := some index }, index)

/-- The chunk in which `reserve` finds room. -/
def openChunk (l : LoadedPages) (a : Arena) : Option (Arena × LoadedPages × ChunkId) :=
  match l.tail with
  | none => l.addChunk a
  | some t => if (a.pool t).used = provenanceChunkCap then l.addChunk a else some (a, l, t)

/-- `reserve`; none is `MetadataOom`. -/
def reserve (l : LoadedPages) (a : Arena) : Option (Arena × LoadedPages × Slot) :=
  match l.openChunk a with
  | none => none
  | some (a, l, t) =>
    let k := a.pool t
    if h : k.used < provenanceChunkCap then
      some (a.setChunk t (k.setUsed (k.used + 1) h), { l with len := l.len + 1 },
        ⟨t, ⟨k.used, h⟩⟩)
    else none -- not reached: the chunk has room

/-- `cancel_reservation`. -/
def cancelReservation (l : LoadedPages) (a : Arena) : Arena × LoadedPages :=
  match l.tail with
  | none => (a, l)
  | some t =>
    let k := a.pool t
    if k.used > 0 then
      (a.setChunk t (k.setUsed (k.used - 1) ((Nat.sub_le _ _).trans k.used_le)),
        { l with len := l.len - 1 })
    else (a, l)

/-- `find`. -/
def find (l : LoadedPages) (a : Arena) (vaddr : ℕ) : Option ℕ :=
  ((l.recorded a).find? fun page => page.vaddr = vaddr).map LoadedPage.paddr

/-- Give one chunk back to the arena. -/
def releaseChunk (a : Arena) (c : ChunkId) : Arena :=
  let a := { a with freeMask := a.freeMask ||| 1#64 <<< c.val }
  a.setChunk c (a.pool c).reset

/-- `release_metadata`, which also runs when the list is dropped. -/
def releaseMetadata (l : LoadedPages) (a : Arena) : Arena := (l.chunks a).foldl releaseChunk a

end LoadedPages

/-! ### The mask -/

theorem getLsbD_one_shiftLeft {c d : ChunkId} :
    (1#64 <<< c.val).getLsbD d = decide (d = c) := by
  have hd := d.isLt
  rw [BitVec.getLsbD_shiftLeft, BitVec.getLsbD_one]
  by_cases h : d.val < c.val
  · have hne : ¬ d = c := fun heq => by rw [heq] at h; omega
    simp [h, hne]
  · have heq : (d.val - c.val = 0) = (d = c) := by
      rw [Fin.ext_iff]
      exact propext ⟨by omega, by omega⟩
    simp [h, hd, heq]

theorem getLsbD_takeBit (mask : BitVec 64) (c d : ChunkId) :
    (mask &&& ~~~(1#64 <<< c.val)).getLsbD d = (mask.getLsbD d && decide (d ≠ c)) := by
  rw [BitVec.getLsbD_and, BitVec.getLsbD_not, getLsbD_one_shiftLeft]
  simp [d.isLt]

theorem getLsbD_giveBit (mask : BitVec 64) (c d : ChunkId) :
    (mask ||| 1#64 <<< c.val).getLsbD d = (mask.getLsbD d || decide (d = c)) := by
  rw [BitVec.getLsbD_or, getLsbD_one_shiftLeft]

theorem Arena.firstFree_eq_some {a : Arena} {c : ChunkId} (h : a.firstFree = some c) :
    a.freeMask.getLsbD c = true := by
  have hfound := List.find?_some h
  exact hfound

/-! ### The invariant -/

@[simp] theorem Arena.setChunk_freeMask (a : Arena) (c : ChunkId) (k : LoadedPageChunk) :
    (a.setChunk c k).freeMask = a.freeMask := rfl

@[simp] theorem Arena.setChunk_same (a : Arena) (c : ChunkId) (k : LoadedPageChunk) :
    (a.setChunk c k).pool c = k := by
  simp [Arena.setChunk]

theorem Arena.setChunk_ne (a : Arena) {c d : ChunkId} (h : d ≠ c) (k : LoadedPageChunk) :
    (a.setChunk c k).pool d = a.pool d := by
  simp [Arena.setChunk, h]

/-- What is in a slot. -/
def Arena.page (a : Arena) (s : Slot) : LoadedPage := (a.pool s.chunk).pages s.index

theorem Arena.page_setChunk {a : Arena} {c : ChunkId} {k : LoadedPageChunk}
    (hk : k.pages = (a.pool c).pages) : (a.setChunk c k).page = a.page := by
  funext s
  unfold Arena.page
  by_cases hs : s.chunk = c
  · rw [hs, Arena.setChunk_same, hk]
  · rw [Arena.setChunk_ne a hs]

namespace LoadedPages

/-- The list of a load that began with `mask`: a chain from the head to the tail whose chunks are
those taken from the mask. -/
structure Sound (mask : BitVec 64) (a : Arena) (l : LoadedPages) : Prop where
  chain : Chain (fun c => (a.pool c).next) l.head (l.chunks a)
  tail : l.tail = lastOr none (l.chunks a)
  taken : ∀ c ∈ l.chunks a, a.freeMask.getLsbD c = false
  mask : ∀ c : ChunkId, mask.getLsbD c = (a.freeMask.getLsbD c || decide (c ∈ l.chunks a))

/-- The first slots of a chunk. -/
def slotsOf (c : ChunkId) (n : ℕ) : List Slot := ((List.finRange provenanceChunkCap).take n).map (Slot.mk c)

/-- The slots in use, in the order of the list. -/
def slots (l : LoadedPages) (a : Arena) : List Slot :=
  (l.chunks a).flatMap fun c => slotsOf c (a.pool c).used

/-- Only the last chunk has room. -/
def Full (a : Arena) (l : LoadedPages) : Prop :=
  ∀ c ∈ l.chunks a, l.tail ≠ some c → (a.pool c).used = provenanceChunkCap

/-- What the steps of a load do: its list stays sound, and the chunks of other loads are unchanged. -/
structure Keeps (mask : BitVec 64) (a : Arena) (l : LoadedPages) (a' : Arena) (l' : LoadedPages) :
    Prop where
  sound : Sound mask a' l'
  full : Full a l → Full a' l'
  frame : ∀ c : ChunkId, mask.getLsbD c = false → a'.pool c = a.pool c

variable {mask : BitVec 64} {a a' a'' : Arena} {l l' l'' : LoadedPages} {t : ChunkId} {s : Slot}

theorem Keeps.trans (h : Keeps mask a l a' l') (h' : Keeps mask a' l' a'' l'') :
    Keeps mask a l a'' l'' :=
  ⟨h'.sound, h'.full ∘ h.full, fun c hc => (h'.frame c hc).trans (h.frame c hc)⟩

theorem recorded_eq : l.recorded a = (l.slots a).map a.page := by
  simp only [recorded, slots, slotsOf, LoadedPageChunk.entries, List.map_flatMap, List.map_map]
  rfl

theorem mem_slotsOf {c : ChunkId} {n : ℕ} : s ∈ slotsOf c n ↔ s.chunk = c ∧ s.index.val < n := by
  simp only [slotsOf, List.mem_map, List.mem_take_iff_getElem]
  constructor
  · rintro ⟨i, ⟨j, hj, rfl⟩, rfl⟩
    exact ⟨rfl, by simp; omega⟩
  · rintro ⟨rfl, hlt⟩
    exact ⟨s.index, ⟨s.index, by simp; omega, by simp⟩, rfl⟩

theorem slotsOf_succ (c : ChunkId) (i : Fin provenanceChunkCap) :
    slotsOf c (i.val + 1) = slotsOf c i ++ [⟨c, i⟩] := by
  unfold slotsOf
  rw [List.take_add_one]
  simp

/-- The chunks are those of any chain from the head. -/
theorem chunks_eq {cs : List ChunkId} (h : Chain (fun c => (a.pool c).next) l.head cs) :
    l.chunks a = cs := by
  refine h.collect_eq ?_
  simpa using h.nodup.length_le_card

theorem Sound.new (a : Arena) : Sound a.freeMask a new where
  chain := rfl
  tail := rfl
  taken := by simp [chunks, LoadedPages.new, collect]
  mask := by simp [chunks, LoadedPages.new, collect]

/-- The chunks before the last one. -/
theorem Sound.snoc (h : Sound mask a l) (ht : l.tail = some t) :
    ∃ cs, l.chunks a = cs ++ [t] ∧ ∀ c ∈ cs, c ≠ t := by
  have hnd := h.chain.nodup
  rcases lastOr_cases (d := none) (l.chunks a) with ⟨-, hnone⟩ | ⟨cs, c, hcs, hc⟩
  · rw [h.tail, hnone] at ht
    cases ht
  · rw [h.tail, hc] at ht
    cases ht
    rw [hcs] at hnd
    refine ⟨cs, hcs, ?_⟩
    rintro c hmem rfl
    exact (List.nodup_append.mp hnd).2.2 c hmem c (by simp) rfl

theorem Sound.not_mem (h : Sound mask a l) {c : ChunkId} (hc : mask.getLsbD c = false) :
    c ∉ l.chunks a := by
  intro hmem
  rw [h.mask c, decide_eq_true hmem, Bool.or_true] at hc
  cases hc

/-- Change the tail chunk, but not its link; the counter `len` of the list is only reported. -/
theorem Sound.setTail (h : Sound mask a l) (ht : l.tail = some t) (l' : LoadedPages)
    {k : LoadedPageChunk} (hk : k.next = (a.pool t).next) (hhead : l'.head = l.head)
    (htail : l'.tail = l.tail) :
    Keeps mask a l (a.setChunk t k) l' ∧ ∃ S, l.slots a = S ++ slotsOf t (a.pool t).used ∧
      l'.slots (a.setChunk t k) = S ++ slotsOf t k.used := by
  have hnext : ∀ c, ((a.setChunk t k).pool c).next = (a.pool c).next := by
    intro c
    by_cases hc : c = t
    · rw [hc, Arena.setChunk_same, hk]
    · rw [Arena.setChunk_ne a hc]
  have hchain : Chain (fun c => ((a.setChunk t k).pool c).next) l'.head (l.chunks a) := by
    rw [hhead]
    exact h.chain.congr fun c _ => hnext c
  have hchunks : l'.chunks (a.setChunk t k) = l.chunks a := chunks_eq hchain
  obtain ⟨cs, hcs, hne⟩ := h.snoc ht
  refine ⟨⟨⟨?_, ?_, ?_, ?_⟩, ?_, ?_⟩, cs.flatMap fun c => slotsOf c (a.pool c).used, ?_, ?_⟩
  · rw [hchunks]
    exact hchain
  · rw [hchunks, htail, h.tail]
  · rw [hchunks]
    exact h.taken
  · rw [hchunks]
    exact h.mask
  · intro hfull c hc hlast
    rw [hchunks] at hc
    rw [htail] at hlast
    have hct : c ≠ t := fun heq => hlast (heq ▸ ht)
    rw [Arena.setChunk_ne a hct]
    exact hfull c hc hlast
  · intro c hc
    rw [Arena.setChunk_ne a]
    rintro rfl
    exact h.not_mem hc (by simp [hcs])
  · simp [slots, hcs]
  · simp only [slots, hchunks, hcs, List.flatMap_append, List.flatMap_singleton, Arena.setChunk_same]
    congr 1
    exact List.flatMap_congr fun c hc => by rw [Arena.setChunk_ne a (hne c hc)]

/-- Appending the free chunk `t` to a list without room. -/
theorem Sound.append (h : Sound mask a l) (hfree : a.freeMask.getLsbD t = true)
    (hroom : ∀ c, l.tail = some c → (a.pool c).used = provenanceChunkCap)
    (hmask : a'.freeMask = a.freeMask &&& ~~~(1#64 <<< t.val))
    (hnew : a'.pool t = (a.pool t).reset)
    (hpool : ∀ c, c ≠ t → l.tail ≠ some c → a'.pool c = a.pool c)
    (hlink : ∀ c, l.tail = some c → a'.pool c = { a.pool c with next := some t })
    (hhead : l.tail = none → l'.head = some t) (hhead' : l.tail ≠ none → l'.head = l.head)
    (htail : l'.tail = some t) :
    Keeps mask a l a' l' ∧ l'.slots a' = l.slots a ∧ a'.page = a.page := by
  have hnot : t ∉ l.chunks a := by
    intro hmem
    rw [h.taken t hmem] at hfree
    cases hfree
  have hnil : l.tail = none ↔ l.chunks a = [] := by
    rw [h.tail]
    rcases lastOr_cases (d := none) (l.chunks a) with ⟨hL, -⟩ | ⟨cs, c, hL, -⟩ <;> simp [hL]
  have hchain : Chain (fun c => (a'.pool c).next) l'.head (l.chunks a ++ [t]) := by
    refine Chain.relink (M := []) (q := some t) (by simpa using h.chain) ?_ ?_ ?_ ?_ ?_
    · rw [← h.tail]
      exact fun c hc hlast => by rw [hpool c (fun heq => hnot (heq ▸ hc)) hlast]
    · rw [← h.tail]
      exact fun c hc => by rw [hlink c hc]
    · exact fun hL => hhead (hnil.mpr hL)
    · exact fun hL => hhead' fun hnone => hL (hnil.mp hnone)
    · rw [Chain.cons_iff, hnew]
      exact ⟨rfl, rfl⟩
  have hchunks : l'.chunks a' = l.chunks a ++ [t] := chunks_eq hchain
  have hused : ∀ c ∈ l.chunks a, (a'.pool c).used = (a.pool c).used := by
    intro c hc
    by_cases hlast : l.tail = some c
    · rw [hlink c hlast]
    · rw [hpool c (fun heq => hnot (heq ▸ hc)) hlast]
  refine ⟨⟨⟨?_, ?_, ?_, ?_⟩, ?_, ?_⟩, ?_, ?_⟩
  · rw [hchunks]
    exact hchain
  · rw [hchunks, lastOr_concat, htail]
  · intro c hc
    rw [hmask, getLsbD_takeBit]
    rw [hchunks, List.mem_append, List.mem_singleton] at hc
    rcases hc with hc | rfl
    · rw [h.taken c hc, Bool.false_and]
    · simp
  · intro c
    rw [h.mask c, hmask, getLsbD_takeBit, hchunks]
    by_cases hc : c = t
    · simp [hc, hfree]
    · simp [hc]
  · intro hfull c hc hlast
    rw [hchunks, List.mem_append, List.mem_singleton] at hc
    have hc : c ∈ l.chunks a := hc.resolve_right fun heq => hlast (heq ▸ htail)
    rw [hused c hc]
    by_cases hold : l.tail = some c
    · exact hroom c hold
    · exact hfull c hc hold
  · intro c hc
    apply hpool c
    · rintro rfl
      rw [h.mask c, hfree] at hc
      cases hc
    · intro hlast
      obtain ⟨cs, hcs, -⟩ := h.snoc hlast
      exact h.not_mem hc (by simp [hcs])
  · have hlast : slotsOf t (a'.pool t).used = [] := by
      rw [hnew]
      rfl
    unfold slots
    rw [hchunks, List.flatMap_append, List.flatMap_singleton, hlast, List.append_nil]
    exact List.flatMap_congr fun c hc => by rw [hused c hc]
  · funext s
    unfold Arena.page
    by_cases hs : s.chunk = t
    · rw [hs, hnew]
      rfl
    · by_cases hlast : l.tail = some s.chunk
      · rw [hlink _ hlast]
      · rw [hpool _ hs hlast]

theorem Sound.addChunk (h : Sound mask a l)
    (hroom : ∀ c, l.tail = some c → (a.pool c).used = provenanceChunkCap)
    (hadd : l.addChunk a = some (a', l', t)) :
    (Keeps mask a l a' l' ∧ l'.slots a' = l.slots a ∧ a'.page = a.page) ∧ l'.tail = some t ∧
      (a'.pool t).used < provenanceChunkCap := by
  unfold LoadedPages.addChunk at hadd
  split at hadd
  next => cases hadd
  next index hindex =>
    have hfree := Arena.firstFree_eq_some hindex
    split at hadd
    next htail =>
      cases hadd
      refine ⟨h.append hfree hroom rfl ?_ ?_ ?_ (fun _ => rfl) ?_ rfl, rfl, ?_⟩
      · exact Arena.setChunk_same _ _ _
      · intro c hc _
        rw [Arena.setChunk_ne _ hc]
      · intro c hc
        rw [htail] at hc
        cases hc
      · exact fun hsome => absurd htail hsome
      · simp [LoadedPageChunk.reset]
    next u htail =>
      cases hadd
      obtain ⟨cs, hcs, -⟩ := h.snoc htail
      have htu : u ≠ t := by
        rintro rfl
        rw [h.taken u (by simp [hcs])] at hfree
        cases hfree
      refine ⟨h.append hfree hroom rfl ?_ ?_ ?_ ?_ (fun _ => rfl) rfl, rfl, ?_⟩
      · rw [Arena.setChunk_ne _ htu.symm]
        exact Arena.setChunk_same _ _ _
      · intro c hc hlast
        have hcu : c ≠ u := fun heq => hlast (heq ▸ htail)
        rw [Arena.setChunk_ne _ hcu, Arena.setChunk_ne _ hc]
      · intro c hc
        rw [htail] at hc
        cases hc
        rw [Arena.setChunk_same, Arena.setChunk_ne _ htu]
      · intro hnone
        rw [htail] at hnone
        cases hnone
      · simp [Arena.setChunk_ne _ htu.symm, LoadedPageChunk.reset]

/-- `s` is the last slot in use. -/
def IsLast (a : Arena) (l : LoadedPages) (s : Slot) : Prop :=
  l.tail = some s.chunk ∧ (a.pool s.chunk).used = s.index.val + 1

/-- The chunk that `reserve` opens is the tail and has room. -/
theorem Sound.openChunk (h : Sound mask a l) (hopen : l.openChunk a = some (a', l', t)) :
    (Keeps mask a l a' l' ∧ l'.slots a' = l.slots a ∧ a'.page = a.page) ∧ l'.tail = some t ∧
      (a'.pool t).used < provenanceChunkCap := by
  unfold LoadedPages.openChunk at hopen
  split at hopen
  next htail => exact h.addChunk (by simp [htail]) hopen
  next u htail =>
    split at hopen
    next hfull => exact h.addChunk (by simp [htail, hfull]) hopen
    next hroom =>
      cases hopen
      exact ⟨⟨⟨h, id, fun _ _ => rfl⟩, rfl, rfl⟩, htail, lt_of_le_of_ne (a.pool t).used_le hroom⟩

/-- **Reserving a slot.** -/
theorem Sound.reserve_slots (h : Sound mask a l) (hres : l.reserve a = some (a', l', s)) :
    Keeps mask a l a' l' ∧ IsLast a' l' s ∧ l'.slots a' = l.slots a ++ [s] ∧ a'.page = a.page := by
  unfold LoadedPages.reserve at hres
  split at hres
  next => cases hres
  next a₁ l₁ t hopen =>
    obtain ⟨⟨hkeeps, hslots, hpage⟩, htail, hroom⟩ := h.openChunk hopen
    rw [dif_pos hroom] at hres
    cases hres
    obtain ⟨hkeeps', S, hS, hS'⟩ := hkeeps.sound.setTail htail { l₁ with len := l₁.len + 1 }
      (k := (a₁.pool t).setUsed ((a₁.pool t).used + 1) hroom) rfl rfl rfl
    refine ⟨hkeeps.trans hkeeps', ⟨htail, by simp [LoadedPageChunk.setUsed]⟩, ?_, ?_⟩
    · rw [hS', ← hslots, hS, List.append_assoc]
      exact congrArg (S ++ ·) (slotsOf_succ t ⟨_, hroom⟩)
    · rw [← hpage]
      exact Arena.page_setChunk rfl

/-- The slots before the last one. -/
theorem IsLast.slots (hlast : IsLast a l s) {S T : List Slot}
    (hS : l.slots a = S ++ [s]) (hT : l.slots a = T ++ slotsOf s.chunk (a.pool s.chunk).used) :
    S = T ++ slotsOf s.chunk s.index := by
  rw [hS, hlast.2, slotsOf_succ, ← List.append_assoc] at hT
  exact (List.append_inj' hT rfl).1

/-- **Filling the last slot.** -/
theorem Sound.record_slots (h : Sound mask a l) (hlast : IsLast a l s) (page : LoadedPage) :
    Keeps mask a l (a.record s page) l ∧ l.slots (a.record s page) = l.slots a ∧
      (a.record s page).page = Function.update a.page s page := by
  obtain ⟨hkeeps, S, hS, hS'⟩ := h.setTail hlast.1 l
    (k := (a.pool s.chunk).setPage s.index page) rfl rfl rfl
  refine ⟨hkeeps, hS'.trans hS.symm, ?_⟩
  funext r
  by_cases hr : r = s
  · rw [hr, Function.update_self]
    simp [Arena.page, Arena.record, LoadedPageChunk.setPage]
  · rw [Function.update_of_ne hr]
    unfold Arena.page Arena.record
    by_cases hc : r.chunk = s.chunk
    · have hi : r.index ≠ s.index := fun heq => hr (Slot.ext hc heq)
      rw [hc, Arena.setChunk_same]
      exact Function.update_of_ne hi _ _
    · rw [Arena.setChunk_ne _ hc]

/-- **Cancelling the last slot.** -/
theorem Sound.cancel_slots (h : Sound mask a l) (hlast : IsLast a l s) {S : List Slot}
    (hS : l.slots a = S ++ [s]) :
    Keeps mask a l (l.cancelReservation a).1 (l.cancelReservation a).2 ∧
      (l.cancelReservation a).2.slots (l.cancelReservation a).1 = S ∧
      (l.cancelReservation a).1.page = a.page := by
  have hpos : (a.pool s.chunk).used > 0 := by
    rw [hlast.2]
    exact Nat.succ_pos _
  obtain ⟨hkeeps, T, hT, hT'⟩ := h.setTail hlast.1 ⟨l.head, some s.chunk, l.len - 1⟩
    (k := (a.pool s.chunk).setUsed ((a.pool s.chunk).used - 1)
      ((Nat.sub_le _ _).trans (a.pool s.chunk).used_le)) rfl rfl hlast.1.symm
  simp only [LoadedPages.cancelReservation, hlast.1, if_pos hpos]
  refine ⟨hkeeps, ?_, Arena.page_setChunk rfl⟩
  rw [hT', hlast.slots hS hT]
  simp only [LoadedPageChunk.setUsed, hlast.2, Nat.add_sub_cancel]

theorem Sound.reserve (h : Sound mask a l) (hres : l.reserve a = some (a', l', s)) :
    Sound mask a' l' ∧ IsLast a' l' s ∧ ∃ x, l'.recorded a' = l.recorded a ++ [x] := by
  obtain ⟨hkeeps, hlast, hslots, hpage⟩ := h.reserve_slots hres
  refine ⟨hkeeps.sound, hlast, a.page s, ?_⟩
  rw [recorded_eq, recorded_eq, hslots, hpage, List.map_append]
  rfl

/-- The last slot in use, at the end. -/
theorem Sound.slots_last (h : Sound mask a l) (hlast : IsLast a l s) :
    ∃ S, l.slots a = S ++ [s] ∧ s ∉ S := by
  obtain ⟨cs, hcs, hne⟩ := h.snoc hlast.1
  refine ⟨cs.flatMap (fun c => slotsOf c (a.pool c).used) ++ slotsOf s.chunk s.index, ?_, ?_⟩
  · simp [slots, hcs, hlast.2, slotsOf_succ]
  · intro hmem
    rw [List.mem_append, List.mem_flatMap] at hmem
    rcases hmem with ⟨c, hc, hs⟩ | hs
    · exact hne c hc (mem_slotsOf.mp hs).1.symm
    · exact lt_irrefl _ (mem_slotsOf.mp hs).2

theorem Sound.record (h : Sound mask a l) (hlast : IsLast a l s) {L : List LoadedPage}
    {x : LoadedPage} (hL : l.recorded a = L ++ [x]) (page : LoadedPage) :
    Sound mask (a.record s page) l ∧ l.recorded (a.record s page) = L ++ [page] := by
  obtain ⟨hkeeps, hslots, hpage⟩ := h.record_slots hlast page
  obtain ⟨S, hS, hnot⟩ := h.slots_last hlast
  rw [recorded_eq, hS, List.map_append] at hL
  refine ⟨hkeeps.sound, ?_⟩
  have hS' : S.map (Function.update a.page s page) = S.map a.page :=
    List.map_congr_left fun r hr => Function.update_of_ne (ne_of_mem_of_not_mem hr hnot) _ _
  rw [recorded_eq, hslots, hpage, hS, List.map_append, hS', (List.append_inj' hL rfl).1,
    List.map_singleton, Function.update_self]

theorem Sound.cancelReservation (h : Sound mask a l) (hlast : IsLast a l s)
    {L : List LoadedPage} {x : LoadedPage} (hL : l.recorded a = L ++ [x]) :
    Sound mask (l.cancelReservation a).1 (l.cancelReservation a).2 ∧
      (l.cancelReservation a).2.recorded (l.cancelReservation a).1 = L := by
  obtain ⟨S, hS, -⟩ := h.slots_last hlast
  obtain ⟨hkeeps, hslots, hpage⟩ := h.cancel_slots hlast hS
  rw [recorded_eq, hS, List.map_append] at hL
  refine ⟨hkeeps.sound, ?_⟩
  rw [recorded_eq, hslots, hpage]
  exact (List.append_inj' hL rfl).1

theorem releaseChunk_freeMask (a : Arena) (c d : ChunkId) :
    (releaseChunk a c).freeMask.getLsbD d = (a.freeMask.getLsbD d || decide (d = c)) :=
  getLsbD_giveBit a.freeMask c d

theorem foldl_releaseChunk (cs : List ChunkId) (a : Arena) (d : ChunkId) :
    (cs.foldl releaseChunk a).freeMask.getLsbD d = (a.freeMask.getLsbD d || decide (d ∈ cs)) := by
  induction cs generalizing a with
  | nil => simp
  | cons c cs ih =>
    rw [List.foldl_cons, ih, releaseChunk_freeMask]
    simp only [List.mem_cons, Bool.decide_or, Bool.or_assoc]

/-- **Releasing the list restores the mask.** -/
theorem Sound.releaseMetadata (h : Sound mask a l) : (l.releaseMetadata a).freeMask = mask := by
  refine BitVec.eq_of_getLsbD_eq fun i hi => ?_
  have hbit := foldl_releaseChunk (l.chunks a) a ⟨i, hi⟩
  rw [← h.mask ⟨i, hi⟩] at hbit
  exact hbit

end LoadedPages

end Vibix.Elf
