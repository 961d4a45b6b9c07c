import Vibix.Elf.Provenance
import Vibix.Lib.Run

/-! # Several trackers of pages

Any number of `LoadedPages` share the provenance arena.  A tracker is made, reserves slots, records a page
in the slot it reserved or cancels the reservation, and is dropped; the calls of different trackers come in
any order (`Trackers.run`).

The lists of the live trackers are sound and disjoint, and take exactly the chunks that are missing in the
mask (`Trackers.Inv`).  A step of one tracker touches its own chunks and free ones only
(`LoadedPages.Keeps`), which is all that the others need (`Trackers.Inv.step`).  `trackers_correct` says
what follows for every run. -/

namespace Vibix.Elf

open LoadedPages

/-- A tracker: its list, the slot that it has reserved, and what it has recorded where so far. -/
structure Tracker where
  pages : LoadedPages
  pending : Option Slot
  records : List (Slot × LoadedPage)

/-- The arena, and the live trackers by number. -/
structure Trackers where
  arena : Arena
  live : ℕ → Option Tracker

/-- A call of one of the trackers. -/
inductive TrackerOp where
  | new (i : ℕ)
  | reserve (i : ℕ)
  | record (i : ℕ) (page : LoadedPage)
  | cancel (i : ℕ)
  | drop (i : ℕ)

namespace Trackers

/-- The arena at boot, and no tracker. -/
def initial : Trackers := ⟨Arena.initial, fun _ => none⟩

/-- The tracker `i` becomes `t`. -/
def set (s : Trackers) (i : ℕ) (a : Arena) (t : Option Tracker) : Trackers :=
  ⟨a, Function.update s.live i t⟩

/-- A call; none if it does not come in the order of the loader, which fills or cancels a reservation before
it does anything else with the tracker. -/
def run (s : Trackers) : TrackerOp → Option Trackers
  | .new i =>
    match s.live i with
    | none => some (s.set i s.arena (some ⟨LoadedPages.new, none, []⟩))
    | some _ => none
  | .reserve i =>
    match s.live i with
    | some ⟨l, none, records⟩ =>
      match l.reserve s.arena with
      | none => some s
      | some (a, l, slot) => some (s.set i a (some ⟨l, some slot, records⟩))
    | _ => none
  | .record i page =>
    match s.live i with
    | some ⟨l, some slot, records⟩ =>
      some (s.set i (s.arena.record slot page) (some ⟨l, none, records ++ [(slot, page)]⟩))
    | _ => none
  | .cancel i =>
    match s.live i with
    | some ⟨l, some _, records⟩ =>
      let r := l.cancelReservation s.arena
      some (s.set i r.1 (some ⟨r.2, none, records⟩))
    | _ => none
  | .drop i =>
    match s.live i with
    | some ⟨l, none, _⟩ => some (s.set i (l.releaseMetadata s.arena) none)
    | _ => none

/-- The chunks of the tracker `i`, none if it is not live. -/
def chunksOf (s : Trackers) (i : ℕ) : List ChunkId :=
  match s.live i with
  | none => []
  | some t => t.pages.chunks s.arena

/-- **What holds in every state**: a chunk is missing in the mask iff exactly one live tracker has it; the
lists end, without a cycle; every record has a slot of its own; `find` returns what was recorded first;
`reserve` fails iff no chunk is left and there is no room in the last one, which for a lone tracker is after
4096 records; and with no tracker left the mask is full. -/
structure Correct (s : Trackers) : Prop where
  bits : ∀ c : ChunkId, s.arena.freeMask.getLsbD c = false ↔ ∃! i, c ∈ s.chunksOf i
  acyclic : ∀ i t, s.live i = some t →
    Chain (fun c => (s.arena.pool c).next) t.pages.head (s.chunksOf i) ∧ (s.chunksOf i).Nodup
  slots : ∀ i j t u (m n : ℕ) slot page page', s.live i = some t → s.live j = some u →
    t.records[m]? = some (slot, page) → u.records[n]? = some (slot, page') → i = j ∧ m = n
  find : ∀ i t, s.live i = some t → t.pending = none → ∀ v, t.pages.find s.arena v =
    (t.records.find? fun r => r.2.vaddr = v).map fun r => r.2.paddr
  reserve : ∀ i t, s.live i = some t → (t.pages.reserve s.arena = none ↔
    s.arena.freeMask = 0 ∧ ∀ c, t.pages.tail = some c → (s.arena.pool c).used = provenanceChunkCap)
  lone : ∀ i t, s.live i = some t → t.pending = none → (∀ j, j ≠ i → s.live j = none) →
    t.records.length ≤ 4096 ∧ (t.pages.reserve s.arena = none ↔ t.records.length = 4096)
  dropped : (∀ i, s.live i = none) → s.arena.freeMask = BitVec.allOnes 64

end Trackers

/-! ### One tracker -/

/-- The invariant of a live tracker. -/
structure Tracker.Held (a : Arena) (t : Tracker) : Prop where
  sound : ∃ mask, Sound mask a t.pages
  full : Full a t.pages
  slots : t.pages.slots a = t.records.map Prod.fst ++ t.pending.toList
  pending : ∀ s, t.pending = some s → IsLast a t.pages s
  pages : ∀ r ∈ t.records, a.page r.1 = r.2

section One

variable {mask : BitVec 64} {a a' : Arena} {t : Tracker} {l l' : LoadedPages} {s : Slot}
  {records : List (Slot × LoadedPage)}

theorem mem_slots : s ∈ l.slots a ↔ s.chunk ∈ l.chunks a ∧ s.index.val < (a.pool s.chunk).used := by
  simp only [LoadedPages.slots, List.mem_flatMap, mem_slotsOf]
  constructor
  · rintro ⟨c, hc, rfl, hlt⟩
    exact ⟨hc, hlt⟩
  · rintro ⟨hc, hlt⟩
    exact ⟨_, hc, rfl, hlt⟩

theorem nodup_slots (h : Sound mask a l) : (l.slots a).Nodup := by
  refine List.nodup_flatMap.mpr ⟨fun c _ => ?_, h.chain.nodup.imp fun hne s hs hs' => ?_⟩
  · refine List.Nodup.map (fun i j heq => ?_) ((List.nodup_finRange _).take)
    cases heq
    rfl
  · exact hne ((mem_slotsOf.mp hs).1.symm.trans (mem_slotsOf.mp hs').1)

/-- **The chunks of a tracker are all that it depends on.** -/
theorem Tracker.Held.frame (h : t.Held a)
    (hpool : ∀ c ∈ t.pages.chunks a, a'.pool c = a.pool c ∧ a'.freeMask.getLsbD c = false) :
    t.Held a' ∧ t.pages.chunks a' = t.pages.chunks a := by
  obtain ⟨mask, hs⟩ := h.sound
  have hchain : Chain (fun c => (a'.pool c).next) t.pages.head (t.pages.chunks a) :=
    hs.chain.congr fun c hc => by rw [(hpool c hc).1]
  have hchunks := chunks_eq hchain
  have hslots : t.pages.slots a' = t.pages.slots a := by
    unfold LoadedPages.slots
    rw [hchunks]
    exact List.flatMap_congr fun c hc => by rw [(hpool c hc).1]
  have hmem : ∀ s ∈ t.pages.slots a, a'.pool s.chunk = a.pool s.chunk :=
    fun s hs => (hpool _ (mem_slots.mp hs).1).1
  refine ⟨⟨⟨(t.pages.releaseMetadata a').freeMask, ?_, ?_, ?_, ?_⟩, ?_, ?_, ?_, ?_⟩, hchunks⟩
  · rw [hchunks]
    exact hchain
  · rw [hchunks]
    exact hs.tail
  · rw [hchunks]
    exact fun c hc => (hpool c hc).2
  · exact foldl_releaseChunk _ a'
  · intro c hc hlast
    rw [hchunks] at hc
    rw [(hpool c hc).1]
    exact h.full c hc hlast
  · rw [hslots]
    exact h.slots
  · intro s hs
    refine ⟨(h.pending s hs).1, ?_⟩
    rw [hmem s (by simp [h.slots, hs])]
    exact (h.pending s hs).2
  · intro r hr
    have hr' : r.1 ∈ t.pages.slots a := by
      rw [h.slots]
      exact List.mem_append_left _ (List.mem_map_of_mem hr)
    unfold Arena.page
    rw [hmem _ hr']
    exact h.pages r hr

theorem held_new (a : Arena) : Tracker.Held a ⟨LoadedPages.new, none, []⟩ where
  sound := ⟨_, Sound.new a⟩
  full := by simp [Full, chunks, LoadedPages.new, collect]
  slots := rfl
  pending := nofun
  pages := nofun

theorem Tracker.Held.reserve (h : Tracker.Held a ⟨l, none, records⟩) (hs : Sound mask a l)
    (hres : l.reserve a = some (a', l', s)) :
    Keeps mask a l a' l' ∧ Tracker.Held a' ⟨l', some s, records⟩ := by
  obtain ⟨hkeeps, hlast, hslots, hpage⟩ := hs.reserve_slots hres
  refine ⟨hkeeps, ⟨_, hkeeps.sound⟩, hkeeps.full h.full, ?_, ?_, ?_⟩
  · have hold := h.slots
    simp only [Option.toList_none, List.append_nil] at hold
    rw [hslots, hold]
    rfl
  · intro s' hs'
    cases hs'
    exact hlast
  · rw [hpage]
    exact h.pages

theorem Tracker.Held.record (h : Tracker.Held a ⟨l, some s, records⟩) (hs : Sound mask a l)
    (page : LoadedPage) : Keeps mask a l (a.record s page) l ∧
      Tracker.Held (a.record s page) ⟨l, none, records ++ [(s, page)]⟩ := by
  have hold : l.slots a = records.map Prod.fst ++ [s] := h.slots
  obtain ⟨hkeeps, hslots, hpage⟩ := hs.record_slots (h.pending s rfl) page
  refine ⟨hkeeps, ⟨_, hkeeps.sound⟩, hkeeps.full h.full, ?_, nofun, ?_⟩
  · rw [hslots, hold]
    simp
  · have hnd := nodup_slots hs
    rw [hold, List.nodup_append] at hnd
    intro r hr
    rw [hpage]
    rcases List.mem_append.mp hr with hr | hr
    · have hne : r.1 ≠ s := fun heq => hnd.2.2 _ (List.mem_map_of_mem hr) s (by simp) heq
      rw [Function.update_of_ne hne]
      exact h.pages r hr
    · rw [List.mem_singleton.mp hr, Function.update_self]

theorem Tracker.Held.cancel (h : Tracker.Held a ⟨l, some s, records⟩) (hs : Sound mask a l) :
    Keeps mask a l (l.cancelReservation a).1 (l.cancelReservation a).2 ∧
      Tracker.Held (l.cancelReservation a).1 ⟨(l.cancelReservation a).2, none, records⟩ := by
  obtain ⟨hkeeps, hslots, hpage⟩ := hs.cancel_slots (h.pending s rfl) h.slots
  refine ⟨hkeeps, ⟨_, hkeeps.sound⟩, hkeeps.full h.full, ?_, nofun, ?_⟩
  · rw [hslots]
    simp
  · rw [hpage]
    exact h.pages

/-- **`find`** returns what was recorded first. -/
theorem Tracker.Held.find_eq (h : t.Held a) (hnone : t.pending = none) (v : ℕ) :
    t.pages.find a v = (t.records.find? fun r => r.2.vaddr = v).map fun r => r.2.paddr := by
  have hpages : t.pages.recorded a = t.records.map Prod.snd := by
    rw [recorded_eq, h.slots, hnone, Option.toList_none, List.append_nil, List.map_map]
    exact List.map_congr_left h.pages
  rw [LoadedPages.find, hpages, List.find?_map, Option.map_map]
  rfl

theorem firstFree_eq_none : a.firstFree = none ↔ a.freeMask = 0 := by
  simp only [Arena.firstFree, List.find?_eq_none, List.mem_finRange, true_implies]
  constructor
  · intro h
    refine BitVec.eq_of_getLsbD_eq fun i hi => ?_
    simpa using h ⟨i, hi⟩
  · intro h c
    simp [h]

/-- **`reserve` fails** iff no chunk is left and there is no room. -/
theorem reserve_eq_none (h : Sound mask a l) : l.reserve a = none ↔
    a.freeMask = 0 ∧ ∀ c, l.tail = some c → (a.pool c).used = provenanceChunkCap := by
  have hopen : l.reserve a = none ↔ l.openChunk a = none := by
    unfold LoadedPages.reserve
    cases hopen : l.openChunk a with
    | none => simp
    | some r => simp [(h.openChunk hopen).2.2]
  have hadd : l.addChunk a = none ↔ a.freeMask = 0 := by
    rw [← firstFree_eq_none]
    unfold LoadedPages.addChunk
    cases a.firstFree with
    | none => simp
    | some index => cases l.tail <;> simp
  rw [hopen]
  unfold LoadedPages.openChunk
  cases htail : l.tail with
  | none => simp [hadd]
  | some c =>
    by_cases hfull : (a.pool c).used = provenanceChunkCap
    · simp [hfull, hadd]
    · simp [hfull]

/-- The slots of a full list. -/
theorem length_slots (h : Sound mask a l) (hfull : Full a l) :
    (l.slots a).length ≤ provenanceChunkCap * (l.chunks a).length ∧
      ((l.slots a).length = provenanceChunkCap * (l.chunks a).length ↔
        ∀ c, l.tail = some c → (a.pool c).used = provenanceChunkCap) := by
  have hlen : ∀ c, (slotsOf c (a.pool c).used).length = (a.pool c).used := by
    intro c
    have hle := (a.pool c).used_le
    simp [slotsOf, hle]
  cases htail : l.tail with
  | none =>
    have hnil : l.chunks a = [] := by
      have hlast := h.tail
      rcases lastOr_cases (d := none) (l.chunks a) with ⟨hnil, -⟩ | ⟨cs, c, -, hc⟩
      · exact hnil
      · rw [htail, hc] at hlast
        cases hlast
    simp [LoadedPages.slots, hnil]
  | some t =>
    obtain ⟨cs, hcs, hne⟩ := h.snoc htail
    have hsum : (l.slots a).length = provenanceChunkCap * cs.length + (a.pool t).used := by
      have hcs' : ∀ c ∈ cs, (slotsOf c (a.pool c).used).length = provenanceChunkCap := by
        intro c hc
        rw [hlen, hfull c (by simp [hcs, hc])]
        rw [htail]
        exact fun heq => hne c hc (Option.some.inj heq).symm
      rw [LoadedPages.slots, hcs, List.flatMap_append, List.length_append, List.length_flatMap,
        List.map_congr_left hcs', List.map_const', List.sum_replicate]
      simp [hlen, Nat.mul_comm]
    have hle := (a.pool t).used_le
    rw [hsum, hcs]
    simp only [List.length_append, List.length_singleton, Option.some.injEq, forall_eq', mul_add_one]
    constructor
    · omega
    · constructor <;> omega

end One

/-! ### All trackers -/

namespace Trackers

/-- The invariant of the trackers. -/
structure Inv (s : Trackers) : Prop where
  held : ∀ i t, s.live i = some t → t.Held s.arena
  bits : ∀ c : ChunkId, s.arena.freeMask.getLsbD c = false ↔ ∃ i, c ∈ s.chunksOf i
  apart : ∀ i j c, c ∈ s.chunksOf i → c ∈ s.chunksOf j → i = j

/-- The chunks that are free or of the tracker `i`. -/
def within (s : Trackers) (i : ℕ) (c : ChunkId) : Bool :=
  s.arena.freeMask.getLsbD c || decide (c ∈ s.chunksOf i)

variable {s s' : Trackers} {i j : ℕ} {a : Arena} {t t' : Tracker} {c : ChunkId} {mask : BitVec 64}

theorem chunksOf_some (h : s.live i = some t) : s.chunksOf i = t.pages.chunks s.arena := by
  unfold chunksOf
  rw [h]

theorem chunksOf_none (h : s.live i = none) : s.chunksOf i = [] := by
  unfold chunksOf
  rw [h]

theorem inv_initial : initial.Inv where
  held := nofun
  bits c := by
    refine iff_of_false ?_ fun ⟨_, h⟩ => nomatch h
    change ¬ (BitVec.allOnes 64).getLsbD c = false
    rw [BitVec.getLsbD_allOnes, decide_eq_true c.isLt]
    exact Bool.noConfusion
  apart := nofun

theorem Inv.within_other (h : s.Inv) (hne : j ≠ i) (hc : c ∈ s.chunksOf j) :
    s.within i c = false := by
  have hnot : c ∉ s.chunksOf i := fun hi => hne (h.apart j i c hc hi)
  rw [within, (h.bits c).mpr ⟨j, hc⟩, decide_eq_false hnot, Bool.or_self]

/-- **A step of one tracker**, within its own chunks and the free ones. -/
theorem Inv.step (h : s.Inv) (hlive : ∀ j, j ≠ i → s'.live j = s.live j)
    (hheld : ∀ t, s'.live i = some t → t.Held s'.arena)
    (hwithin : ∀ c, s'.within i c = s.within i c)
    (hpool : ∀ c, s.within i c = false → s'.arena.pool c = s.arena.pool c) : s'.Inv := by
  have hmask : ∀ c, s.within i c = false → s'.arena.freeMask.getLsbD c = false ∧ c ∉ s'.chunksOf i := by
    intro c hc
    rw [← hwithin c, within, Bool.or_eq_false_iff, decide_eq_false_iff_not] at hc
    exact hc
  have hother : ∀ j t, j ≠ i → s.live j = some t →
      t.Held s'.arena ∧ t.pages.chunks s'.arena = t.pages.chunks s.arena := by
    intro j t hne ht
    refine (h.held j t ht).frame fun c hc => ?_
    rw [← chunksOf_some ht] at hc
    exact ⟨hpool c (h.within_other hne hc), (hmask c (h.within_other hne hc)).1⟩
  have hchunks : ∀ j, j ≠ i → s'.chunksOf j = s.chunksOf j := by
    intro j hne
    cases ht : s.live j with
    | none => rw [chunksOf_none ht, chunksOf_none ((hlive j hne).trans ht)]
    | some t =>
      rw [chunksOf_some ht, chunksOf_some ((hlive j hne).trans ht)]
      exact (hother j t hne ht).2
  have hown : ∀ j, j ≠ i → ∀ c ∈ s'.chunksOf j, c ∉ s'.chunksOf i := by
    intro j hne c hc
    rw [hchunks j hne] at hc
    exact (hmask c (h.within_other hne hc)).2
  have hall : ∀ j t, s'.live j = some t → t.Held s'.arena := by
    intro j t ht
    by_cases hj : j = i
    · exact hheld t (hj ▸ ht)
    · exact (hother j t hj ((hlive j hj).symm.trans ht)).1
  refine ⟨hall, fun c => ⟨fun hc => ?_, ?_⟩, fun j k c hj hk => ?_⟩
  · by_cases hi : c ∈ s'.chunksOf i
    · exact ⟨i, hi⟩
    · have hfree : s.within i c = false := by
        rw [← hwithin c, within, hc, decide_eq_false hi, Bool.or_self]
      obtain ⟨hbit, hnot⟩ := Bool.or_eq_false_iff.mp hfree
      obtain ⟨j, hj⟩ := (h.bits c).mp hbit
      have hne : j ≠ i := by
        rintro rfl
        exact of_decide_eq_false hnot hj
      exact ⟨j, by rwa [hchunks j hne]⟩
  · rintro ⟨j, hj⟩
    cases ht : s'.live j with
    | none =>
      rw [chunksOf_none ht] at hj
      cases hj
    | some t =>
      rw [chunksOf_some ht] at hj
      obtain ⟨mask, hsound⟩ := (hall j t ht).sound
      exact hsound.taken c hj
  · by_cases hji : j = i
    · by_cases hki : k = i
      · rw [hji, hki]
      · exact absurd (hji ▸ hj) (hown k hki c hk)
    · by_cases hki : k = i
      · exact absurd (hki ▸ hk) (hown j hji c hj)
      · rw [hchunks j hji] at hj
        rw [hchunks k hki] at hk
        exact h.apart j k c hj hk

theorem set_self (a : Arena) (t : Option Tracker) : (s.set i a t).live i = t :=
  Function.update_self ..

theorem set_other (a : Arena) (t : Option Tracker) (hne : j ≠ i) :
    (s.set i a t).live j = s.live j :=
  Function.update_of_ne hne ..

theorem Inv.keeps (h : s.Inv) (ht : s.live i = some t) (hsound : Sound mask s.arena t.pages)
    (hstep : Keeps mask s.arena t.pages a t'.pages ∧ t'.Held a) : (s.set i a (some t')).Inv := by
  have hmask : ∀ c, s.within i c = mask.getLsbD c := by
    intro c
    rw [within, chunksOf_some ht]
    exact (hsound.mask c).symm
  refine h.step (fun j hne => set_other _ _ hne) ?_ ?_ ?_
  · intro u hu
    rw [set_self] at hu
    cases hu
    exact hstep.2
  · intro c
    rw [hmask, within, chunksOf_some (set_self a _)]
    exact (hstep.1.sound.mask c).symm
  · intro c hc
    rw [hmask] at hc
    exact hstep.1.frame c hc

theorem foldl_releaseChunk_pool (cs : List ChunkId) (a : Arena) (hc : c ∉ cs) :
    (cs.foldl releaseChunk a).pool c = a.pool c := by
  induction cs generalizing a with
  | nil => rfl
  | cons d cs ih =>
    rw [List.mem_cons, not_or] at hc
    rw [List.foldl_cons, ih _ hc.2]
    exact Arena.setChunk_ne _ hc.1 _

/-- **Every call keeps the invariant.** -/
theorem Inv.run (h : s.Inv) {op : TrackerOp} (hrun : s.run op = some s') : s'.Inv := by
  cases op with
  | new i =>
    simp only [Trackers.run] at hrun
    split at hrun
    next hnone =>
      cases hrun
      refine h.step (fun j hne => set_other _ _ hne) ?_ (fun c => ?_) (fun _ _ => rfl)
      · intro t ht
        rw [set_self] at ht
        cases ht
        exact held_new _
      · rw [within, within, chunksOf_none hnone, chunksOf_some (set_self _ _)]
        rfl
    next => cases hrun
  | reserve i =>
    simp only [Trackers.run] at hrun
    split at hrun
    next l records hlive =>
      obtain ⟨mask, hsound⟩ := (h.held i _ hlive).sound
      split at hrun
      next =>
        cases hrun
        exact h
      next a l' slot hres =>
        cases hrun
        exact h.keeps hlive hsound ((h.held i _ hlive).reserve hsound hres)
    next => cases hrun
  | record i page =>
    simp only [Trackers.run] at hrun
    split at hrun
    next l slot records hlive =>
      obtain ⟨mask, hsound⟩ := (h.held i _ hlive).sound
      cases hrun
      exact h.keeps hlive hsound ((h.held i _ hlive).record hsound page)
    next => cases hrun
  | cancel i =>
    simp only [Trackers.run] at hrun
    split at hrun
    next l slot records hlive =>
      obtain ⟨mask, hsound⟩ := (h.held i _ hlive).sound
      cases hrun
      exact h.keeps hlive hsound ((h.held i _ hlive).cancel hsound)
    next => cases hrun
  | drop i =>
    simp only [Trackers.run] at hrun
    split at hrun
    next l records hlive =>
      cases hrun
      refine h.step (fun j hne => set_other _ _ hne) ?_ (fun c => ?_) (fun c hc => ?_)
      · intro t ht
        rw [set_self] at ht
        cases ht
      · rw [within, within, chunksOf_none (set_self _ _), chunksOf_some hlive]
        refine (Bool.or_false _).trans (foldl_releaseChunk _ _ c)
      · rw [within, chunksOf_some hlive, Bool.or_eq_false_iff] at hc
        exact foldl_releaseChunk_pool _ _ (of_decide_eq_false hc.2)
    next => cases hrun

theorem length_eq_iff {cs : List ChunkId} (hnd : cs.Nodup) : cs.length = 64 ↔ ∀ c, c ∈ cs := by
  rw [← List.toFinset_card_of_nodup hnd, ← Fintype.card_fin 64, Finset.card_eq_iff_eq_univ,
    Finset.eq_univ_iff_forall]
  simp only [List.mem_toFinset]

/-- A tracker that is alone. -/
theorem Inv.lone (h : s.Inv) (ht : s.live i = some t) (hnone : t.pending = none)
    (halone : ∀ j, j ≠ i → s.live j = none) :
    t.records.length ≤ 4096 ∧ (t.pages.reserve s.arena = none ↔ t.records.length = 4096) := by
  have hheld := h.held i t ht
  obtain ⟨mask, hsound⟩ := hheld.sound
  have hlen := congrArg List.length hheld.slots
  rw [hnone, Option.toList_none, List.append_nil, List.length_map] at hlen
  obtain ⟨hle, hfull⟩ := length_slots hsound hheld.full
  have hnd := hsound.chain.nodup
  have hcard := hnd.length_le_card
  rw [Fintype.card_fin] at hcard
  have hmask : s.arena.freeMask = 0 ↔ (t.pages.chunks s.arena).length = 64 := by
    rw [length_eq_iff hnd, ← chunksOf_some ht]
    constructor
    · intro hzero c
      obtain ⟨j, hj⟩ := (h.bits c).mp (by simp [hzero])
      by_cases hji : j = i
      · exact hji ▸ hj
      · rw [chunksOf_none (halone j hji)] at hj
        cases hj
    · refine fun hall => BitVec.eq_of_getLsbD_eq fun n hn => ?_
      exact ((h.bits ⟨n, hn⟩).mpr ⟨i, hall _⟩).trans BitVec.getLsbD_zero.symm
  simp only [hlen, provenanceChunkCap] at hle hfull
  simp only [provenanceChunkCount] at hcard
  refine ⟨by omega, ?_⟩
  rw [reserve_eq_none hsound, hmask, ← hfull]
  omega

theorem Inv.correct (h : s.Inv) : s.Correct where
  bits c := by
    rw [h.bits c]
    exact ⟨fun ⟨i, hi⟩ => ⟨i, hi, fun j hj => h.apart j i c hj hi⟩, fun ⟨i, hi, _⟩ => ⟨i, hi⟩⟩
  acyclic i t ht := by
    obtain ⟨mask, hsound⟩ := (h.held i t ht).sound
    rw [chunksOf_some ht]
    exact ⟨hsound.chain, hsound.chain.nodup⟩
  slots i j t u m n slot page page' ht hu hm hn := by
    have hmem : ∀ {i t} {m : ℕ} {page}, s.live i = some t → t.records[m]? = some (slot, page) →
        (t.pages.slots s.arena)[m]? = some slot ∧ slot.chunk ∈ s.chunksOf i := by
      intro i t m page ht hm
      have hslot : (t.pages.slots s.arena)[m]? = some slot := by
        rw [(h.held i t ht).slots, List.getElem?_append_left, List.getElem?_map, hm]
        · rfl
        · rw [List.length_map]
          exact (List.getElem?_eq_some_iff.mp hm).1
      rw [chunksOf_some ht]
      exact ⟨hslot, (mem_slots.mp (List.mem_of_getElem? hslot)).1⟩
    obtain ⟨hslot, hchunk⟩ := hmem ht hm
    obtain ⟨hslot', hchunk'⟩ := hmem hu hn
    have hij := h.apart i j _ hchunk hchunk'
    subst hij
    rw [ht] at hu
    cases hu
    obtain ⟨mask, hsound⟩ := (h.held i t ht).sound
    obtain ⟨hlt, -⟩ := List.getElem?_eq_some_iff.mp hslot
    exact ⟨rfl, (List.getElem?_inj hlt (nodup_slots hsound)).mp (hslot.trans hslot'.symm)⟩
  find i t ht hnone := (h.held i t ht).find_eq hnone
  reserve i t ht := by
    obtain ⟨mask, hsound⟩ := (h.held i t ht).sound
    exact reserve_eq_none hsound
  lone i t ht hnone halone := h.lone ht hnone halone
  dropped hnone := by
    refine BitVec.eq_of_getLsbD_eq fun n hn => ?_
    rw [BitVec.getLsbD_allOnes, decide_eq_true hn, ← Bool.not_eq_false, h.bits ⟨n, hn⟩]
    rintro ⟨i, hi⟩
    rw [chunksOf_none (hnone i)] at hi
    cases hi

end Trackers

/-- **The provenance arena**: whatever the trackers do from boot on, it is correct. -/
theorem trackers_correct {ops : List TrackerOp} {s : Trackers}
    (h : Run (fun s op s' => s.run op = some s') Trackers.initial ops s) : s.Correct :=
  (h.invariant Trackers.inv_initial fun _ _ _ hinv hrun => hinv.run hrun).correct

/-- Two trackers, of which one records a page twice and the other one cancels. -/
theorem trackers_correct_two : ∃ s, Run (fun s op s' => Trackers.run s op = some s') Trackers.initial
    [.new 0, .new 1, .reserve 0, .record 0 ⟨0x2000000, 0x400000⟩, .reserve 1, .reserve 0, .cancel 1,
      .record 0 ⟨0x2000000, 0x401000⟩] s ∧ s.Correct := by
  refine Exists.imp (fun s h => ⟨h, trackers_correct h⟩)
    (?_ : ∃ s, Run (fun s op s' => Trackers.run s op = some s') Trackers.initial _ s)
  decide +kernel

end Vibix.Elf
