import Vibix.Elf.Loader

/-! # The steps of the loader

One specification for each step of the mapping pass, in terms of the records of the load
(`Loader.records`).  A step that fails has cancelled its reservation and taken back the pages
recorded so far (`Failed`). -/

namespace Vibix.Elf

open Paging LoadedPages

/-- The records of the pages mapped so far. -/
abbrev Loader.records (s : Loader) : List LoadedPage := s.pages.recorded s.arena

@[simp] theorem records_start (m : Mach) (a : Arena) (i : LoadFailureInjection) :
    (Loader.start m a i).records = [] := rfl

/-- A slot is reserved behind the records `L`. -/
structure Pending (mask : BitVec 64) (slot : Slot) (L : List LoadedPage) (s : Loader) : Prop where
  sound : s.pages.Sound mask s.arena
  last : IsLast s.arena s.pages slot
  records : ∃ x, s.records = L ++ [x]

/-- The load failed with an error when the pages `L` were recorded and the machine was `m`. -/
structure Failed (p : PmmAllocator) (root : ℕ) (mask : BitVec 64) (L : List LoadedPage) (m : Mach)
    (stop : Stop) (s : Loader) : Prop where
  error : stop ≠ .fault
  sound : s.pages.Sound mask s.arena
  mach : s.mach = L.foldl (rollbackPage p root) m

section

variable {p : PmmAllocator} {root v paddr : ℕ} {mask : BitVec 64} {L : List LoadedPage}
  {slot : Slot} {s : Loader} {m : Mach}

theorem find_none (h : s.pages.find s.arena v = none) : ∀ r ∈ s.records, r.vaddr ≠ v := by
  intro r hr
  rw [LoadedPages.find, Option.map_eq_none_iff, List.find?_eq_none] at h
  simpa using h r hr

theorem find_some {f : ℕ} (h : s.pages.find s.arena v = some f) : ∃ r ∈ s.records, r.vaddr = v := by
  obtain ⟨r, hr, -⟩ := Option.map_eq_some_iff.mp h
  exact ⟨r, List.mem_of_find?_eq_some hr, by simpa using List.find?_some hr⟩

theorem rollbackError_failed {α : Type} {e : ElfError} {Q : α → Loader → Prop}
    (hs : s.pages.Sound mask s.arena) :
    Spec (rollbackError p root e) s Q (Failed p root mask s.records s.mach) :=
  rollbackError_spec p root ⟨by simp, hs, rfl⟩

/-- An error after the reservation was cancelled. -/
theorem cancel_failed {α : Type} {e : ElfError} {Q : α → Loader → Prop}
    (h : Pending mask slot L s) :
    Spec (do modify Loader.cancel; rollbackError p root e) s Q
      (Failed p root mask L s.mach) := by
  obtain ⟨x, hx⟩ := h.records
  obtain ⟨hs, hrec⟩ := h.sound.cancelReservation h.last hx
  refine Spec.update_bind ?_
  rw [← show s.cancel.records = L from hrec]
  exact rollbackError_failed hs

theorem reserveSlot_spec (hs : s.pages.Sound mask s.arena) :
    Spec (reserveSlot p root) s
      (fun slot s' => Pending mask slot s.records s' ∧ s'.mach = s.mach ∧ s'.mapped = s.mapped)
      (Failed p root mask s.records s.mach) := by
  refine Spec.bind (R := fun _ s' => s'.pages = s.pages ∧ s'.arena = s.arena ∧
    s'.mach = s.mach ∧ s'.mapped = s.mapped) ⟨rfl, rfl, rfl, rfl⟩ ?_
  rintro fail s' ⟨hpages, harena, hmach, hmapped⟩
  rw [← hpages, ← harena] at hs
  rw [show s.records = s'.records by rw [Loader.records, ← hpages, ← harena], ← hmach, ← hmapped]
  refine Spec.ite (fun _ => rollbackError_failed hs) fun _ => Spec.read_bind ?_
  split
  next => exact rollbackError_failed hs
  next arena pages slot hres =>
    obtain ⟨hs', hlast, hrec⟩ := hs.reserve hres
    exact Spec.write_bind (Spec.ret ⟨⟨hs', hlast, hrec⟩, rfl, rfl⟩)

theorem allocFrame_spec (hp : p.Physical) (h : Pending mask slot L s) :
    Spec (allocFrame p root) s
      (fun f s' => Pending mask slot L s' ∧ s'.mapped = s.mapped ∧
        ∃ bm, s'.mach = { s.mach with bitmap := bm } ∧ p.Taken s.mach.bitmap {f} bm)
      (Failed p root mask L s.mach) := by
  refine Spec.bind (R := fun _ s' => Pending mask slot L s' ∧ s'.mach = s.mach ∧
    s'.mapped = s.mapped) ⟨⟨h.sound, h.last, h.records⟩, rfl, rfl⟩ ?_
  rintro fail s' ⟨h, hmach, hmapped⟩
  rw [← hmach, ← hmapped]
  refine Spec.ite (fun _ => cancel_failed h) fun _ => Spec.read_bind (Spec.ite ?_ ?_)
  · intro hnull
    rw [mach_alloc_null hp hnull]
    exact Spec.write_bind (cancel_failed ⟨h.sound, h.last, h.records⟩)
  · intro hsome
    exact Spec.write_bind (Spec.ret ⟨⟨h.sound, h.last, h.records⟩, rfl, _, rfl,
      PmmAllocator.taken_alloc hp.toValid hsome⟩)

/-- Mapping a frame: the machine is what `try_map_4k` left, and the page is recorded. -/
theorem mapFrame_spec (h : Pending mask slot L s) :
    Spec (mapFrame p root v paddr slot) s
      (fun _ s' => tryMap4k p s.mach root v paddr pageUserRw = (s'.mach, true) ∧
        s'.pages.Sound mask s'.arena ∧ s'.records = L ++ [⟨v, paddr⟩] ∧
        s'.mapped = v :: s.mapped)
      (fun stop s' => ∃ m, tryMap4k p s.mach root v paddr pageUserRw = (m, false) ∧
        Failed p root mask L (m.free p paddr) stop s') := by
  obtain ⟨x, hx⟩ := h.records
  refine Spec.read_bind ?_
  split
  next m hmap =>
    refine Spec.write_bind ((cancel_failed (s := { s with mach := m.free p paddr })
      ⟨h.sound, h.last, h.records⟩).mono (fun _ _ hq => hq) fun stop s' hf => ⟨m, hmap, hf⟩)
  next m hmap =>
    obtain ⟨hs, hrec⟩ := h.sound.record h.last hx ⟨v, paddr⟩
    exact Spec.write ⟨hmap, hs, hrec, rfl⟩

theorem zeroPage_spec :
    Spec (zeroPage root v) s
      (fun _ s' => ∃ pa, access root s.mach.mem v = some pa ∧
        s' = { s with mach := s.mach.zero (PhysMem.frameOf pa), stored := (v, 0x1000) :: s.stored })
      (fun stop _ => stop = .fault ∧ access root s.mach.mem v = none) := by
  refine Spec.update_bind (Spec.read_bind ?_)
  split
  next hacc => exact Spec.raise ⟨rfl, hacc⟩
  next pa hacc => exact Spec.write ⟨pa, hacc, rfl⟩

/-- A load that succeeds: the image was accepted and the mapping pass went through. -/
theorem loadWithInjection_ok {data : Image} {entry : ℕ}
    (h : (loadWithInjection p root data s).2 = .ok entry) :
    ∃ s', validate data (readEhdr data) = .ok () ∧ entry = (readEhdr data).eEntry ∧
      mapSegments p root data (readEhdr data) { s with pages := LoadedPages.new } = .ok () s' ∧
      (loadWithInjection p root data s).1 = s'.drop := by
  cases hparse : parseEhdr data with
  | error e => simp [loadWithInjection, hparse] at h
  | ok ehdr =>
    obtain ⟨rfl, -, -⟩ := parseEhdr_ok hparse
    cases hvalid : validate data (readEhdr data) with
    | error e => simp [loadWithInjection, hparse, hvalid] at h
    | ok _ =>
      cases hrun : mapSegments p root data (readEhdr data) { s with pages := new } with
      | error stop s' => cases stop <;> simp [loadWithInjection, hparse, hvalid, hrun] at h
      | ok _ s' =>
        have hdef : loadWithInjection p root data s =
            (s'.drop, .ok (readEhdr data).eEntry) := by
          simp only [loadWithInjection, hparse, hvalid, hrun]
        rw [hdef] at h ⊢
        exact ⟨s', rfl, (Except.ok.inj h).symm, rfl, rfl⟩

end

end Vibix.Elf
