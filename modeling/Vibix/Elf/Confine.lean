import Vibix.Elf.Loader
import Vibix.Paging.Fork

/-! # Where a load maps and stores

The pages a load maps are pages of `PT_LOAD` segments, and it stores only to pages it mapped and to
file-backed parts of segments (`loadWithInjection_traced`), whatever the root and however the load
ends.  Together with the validation pass this confines everything except the page of an empty
segment that is not page-aligned, which is mapped without having been checked
(`pages_confined_iff`). -/

namespace Vibix.Elf

open Paging

section Traces

variable (p : PmmAllocator) (root : ℕ) (data : Image)

/-- The traces of a load: pages of `P`, and stores to mapped pages or to ranges of `R`. -/
structure Traced (P : ℕ → Prop) (R : ℕ × ℕ → Prop) (s : Loader) : Prop where
  mapped : ∀ v ∈ s.mapped, P v
  stored : ∀ r ∈ s.stored, (r.1 ∈ s.mapped ∧ r.2 = 0x1000) ∨ R r

variable {P : ℕ → Prop} {R : ℕ × ℕ → Prop} {s : Loader}

/-- A program after which the traces are as they were. -/
def Quiet {α : Type} (x : LoadM α) : Prop :=
  ∀ s, Spec x s (fun _ s' => s'.mapped = s.mapped ∧ s'.stored = s.stored)
    (fun _ s' => s'.mapped = s.mapped ∧ s'.stored = s.stored)

theorem Traced.congr {s' : Loader} (h : Traced P R s)
    (heq : s'.mapped = s.mapped ∧ s'.stored = s.stored) : Traced P R s' := by
  refine ⟨?_, ?_⟩
  · rw [heq.1]
    exact h.mapped
  · rw [heq.1, heq.2]
    exact h.stored

theorem Quiet.traced {α : Type} {x : LoadM α} (hx : Quiet x) (h : Traced P R s) :
    Spec x s (fun _ s' => Traced P R s') (fun _ s' => Traced P R s') :=
  (hx s).mono (fun _ _ => h.congr) (fun _ _ => h.congr)

theorem Quiet.bind {α β : Type} {x : LoadM α} {f : α → LoadM β} (hx : Quiet x)
    (hf : ∀ a, Quiet (f a)) : Quiet (x >>= f) := by
  intro s
  refine Spec.bind (hx s) fun a s' heq => (hf a s').mono ?_ ?_
  · exact fun _ _ heq' => ⟨heq'.1.trans heq.1, heq'.2.trans heq.2⟩
  · exact fun _ _ heq' => ⟨heq'.1.trans heq.1, heq'.2.trans heq.2⟩

theorem rollbackError_quiet {α : Type} (e : ElfError) :
    Quiet (rollbackError p root e : LoadM α) :=
  fun _ => ⟨rfl, rfl⟩

theorem shouldFailMetadata_quiet : Quiet shouldFailMetadata := fun _ => ⟨rfl, rfl⟩

theorem shouldFailPmm_quiet : Quiet shouldFailPmm := fun _ => ⟨rfl, rfl⟩

theorem reserveSlot_quiet : Quiet (reserveSlot p root) := by
  refine shouldFailMetadata_quiet.bind fun fail => ?_
  split
  · exact rollbackError_quiet p root _
  · refine fun s => Spec.read_bind ?_
    split
    · exact rollbackError_quiet p root _ s
    · exact Spec.write_bind (Spec.ret ⟨rfl, rfl⟩)

theorem allocFrame_quiet : Quiet (allocFrame p root) := by
  refine shouldFailPmm_quiet.bind fun fail => ?_
  split
  · exact fun s => Spec.update_bind (rollbackError_quiet p root _ s.cancel)
  · refine fun s => Spec.read_bind ?_
    dsimp only
    split
    · exact Spec.write_bind (Spec.update_bind (rollbackError_quiet p root _ _))
    · exact Spec.write_bind (Spec.ret ⟨rfl, rfl⟩)

theorem storeBytes_quiet (v : ℕ) (bs : List (BitVec 8)) : Quiet (storeBytes root v bs) := by
  induction bs generalizing v with
  | nil => exact fun s => Spec.ret ⟨rfl, rfl⟩
  | cons b bs ih =>
    refine fun s => Spec.read_bind ?_
    split
    · exact Spec.raise ⟨rfl, rfl⟩
    · exact Spec.write_bind (ih (v + 1) _)

theorem mapFrame_traced {v paddr : ℕ} {slot : Slot} (hv : P v) (h : Traced P R s) :
    Spec (mapFrame p root v paddr slot) s (fun _ s' => Traced P R s' ∧ v ∈ s'.mapped)
      (fun _ s' => Traced P R s') := by
  refine Spec.read_bind ?_
  split
  · exact Spec.write_bind (Spec.update_bind (rollbackError_spec p root (h.congr ⟨rfl, rfl⟩)))
  · refine Spec.write ⟨⟨?_, ?_⟩, List.mem_cons_self⟩
    · exact List.forall_mem_cons.mpr ⟨hv, h.mapped⟩
    · exact fun r hr => (h.stored r hr).imp_left fun hm => ⟨List.mem_cons_of_mem _ hm.1, hm.2⟩

theorem zeroPage_traced {v : ℕ} (hv : v ∈ s.mapped) (h : Traced P R s) :
    Spec (zeroPage root v) s (fun _ s' => Traced P R s') (fun _ s' => Traced P R s') := by
  have h' : Traced P R { s with stored := (v, 0x1000) :: s.stored } :=
    ⟨h.mapped, List.forall_mem_cons.mpr ⟨Or.inl ⟨hv, rfl⟩, h.stored⟩⟩
  refine Spec.update_bind (Spec.read_bind ?_)
  split
  · exact Spec.raise h'
  · exact Spec.write (h'.congr ⟨rfl, rfl⟩)

theorem mapPage_traced {v : ℕ} (hv : P v) (h : Traced P R s) :
    Spec (mapPage p root v) s (fun _ s' => Traced P R s') (fun _ s' => Traced P R s') := by
  refine Spec.read_bind ?_
  split
  · exact Spec.ret h
  · split
    · exact (rollbackError_quiet p root _).traced h
    · refine ((reserveSlot_quiet p root).traced h).bind fun slot s h => ?_
      refine ((allocFrame_quiet p root).traced h).bind fun paddr s h => ?_
      refine (mapFrame_traced p root hv h).bind fun _ s h => ?_
      exact zeroPage_traced root h.2 h.1

theorem mapPageStep_traced {v : ℕ} (hv : P v) (h : Traced P R s) :
    Spec (mapPageStep p root v) s (fun _ s' => Traced P R s') (fun _ s' => Traced P R s') := by
  refine (mapPage_traced p root hv h).bind fun _ s h => ?_
  split
  · exact (rollbackError_quiet p root _).traced h
  · exact Spec.ret h

theorem copySegment_traced {phdr : Phdr}
    (hR : 0 < phdr.pFilesz → ∀ n ≤ phdr.pMemsz, R (phdr.pVaddr, n)) (h : Traced P R s) :
    Spec (copySegment p root data phdr) s (fun _ s' => Traced P R s')
      (fun _ s' => Traced P R s') := by
  refine Spec.ite (fun hpos => ?_) fun _ => Spec.ret h
  split
  · exact (rollbackError_quiet p root _).traced h
  · refine Spec.ite (fun _ => (rollbackError_quiet p root _).traced h) fun _ => ?_
    refine Spec.update_bind ((storeBytes_quiet root _ _).traced ⟨h.mapped, ?_⟩)
    exact List.forall_mem_cons.mpr ⟨Or.inr (hR hpos _ (min_le_right _ _)), h.stored⟩

theorem loadSegment_traced {phdr : Phdr} (hP : phdr.pType = ptLoad → ∀ v ∈ phdr.pages, P v)
    (hR : phdr.pType = ptLoad → 0 < phdr.pFilesz → ∀ n ≤ phdr.pMemsz, R (phdr.pVaddr, n))
    (h : Traced P R s) :
    Spec (loadSegment p root data phdr) s (fun _ s' => Traced P R s')
      (fun _ s' => Traced P R s') := by
  refine Spec.ite (fun _ => Spec.ret h) fun hload => ?_
  rw [not_not] at hload
  split
  next => exact (rollbackError_quiet p root _).traced h
  next up hup =>
    obtain ⟨stop, hstop, hup⟩ := Option.bind_eq_some_iff.mp hup
    obtain ⟨rfl, -⟩ := checkedAdd_eq_some hstop
    obtain ⟨rfl, -⟩ := checkedAdd_eq_some hup
    refine Spec.bind (Spec.forM (I := fun _ s => Traced P R s) h ?_) fun _ s h => ?_
    · intro done v rest hl s h
      refine mapPageStep_traced p root (hP hload v ?_) h
      rw [Phdr.pages, hl]
      simp
    · exact copySegment_traced p root data (hR hload) h

theorem mapSegments_traced (ehdr : Ehdr)
    (hP : ∀ i < ehdr.ePhnum, (phdrAt data ehdr i).pType = ptLoad →
      ∀ v ∈ (phdrAt data ehdr i).pages, P v)
    (hR : ∀ i < ehdr.ePhnum, (phdrAt data ehdr i).pType = ptLoad →
      0 < (phdrAt data ehdr i).pFilesz → ∀ n ≤ (phdrAt data ehdr i).pMemsz,
      R ((phdrAt data ehdr i).pVaddr, n))
    (h : Traced P R s) :
    Spec (mapSegments p root data ehdr) s (fun _ s' => Traced P R s')
      (fun _ s' => Traced P R s') := by
  refine Spec.forM (I := fun _ s => Traced P R s) h ?_
  intro done i rest hl s h
  have hi : i < ehdr.ePhnum := by
    rw [← List.mem_range, hl]
    simp
  unfold loadHeader
  split
  next => exact (rollbackError_quiet p root _).traced h
  next off hoff =>
    obtain rfl := phdrOffset_eq_some hoff
    split
    next => exact (rollbackError_quiet p root _).traced h
    next =>
      refine Spec.ite (fun _ => (rollbackError_quiet p root _).traced h) fun _ => ?_
      exact loadSegment_traced p root data (hP i hi) (hR i hi) h

/-- The pages of the `PT_LOAD` segments. -/
def SegmentPage (data : Image) (v : ℕ) : Prop :=
  ∃ i < (readEhdr data).ePhnum, (phdrAt data (readEhdr data) i).pType = ptLoad ∧
    v ∈ (phdrAt data (readEhdr data) i).pages

/-- The ranges from the start of a `PT_LOAD` segment that has file contents. -/
def SegmentRange (data : Image) (r : ℕ × ℕ) : Prop :=
  ∃ i < (readEhdr data).ePhnum, (phdrAt data (readEhdr data) i).pType = ptLoad ∧
    0 < (phdrAt data (readEhdr data) i).pFilesz ∧ r.1 = (phdrAt data (readEhdr data) i).pVaddr ∧
    r.2 ≤ (phdrAt data (readEhdr data) i).pMemsz

/-- **What a load maps and stores**: nothing at all, or the image was accepted and the pages are
those of its segments. -/
theorem loadWithInjection_traced (hm : s.mapped = []) (hs : s.stored = []) :
    ((loadWithInjection p root data s).1.mapped = [] ∧
      (loadWithInjection p root data s).1.stored = []) ∨
    (∀ i < (readEhdr data).ePhnum, Accepted data.length (phdrAt data (readEhdr data) i)) ∧
      Traced (SegmentPage data) (SegmentRange data) (loadWithInjection p root data s).1 := by
  unfold loadWithInjection
  split
  next => exact Or.inl ⟨hm, hs⟩
  next ehdr hparse =>
    obtain ⟨rfl, -, -⟩ := parseEhdr_ok hparse
    split
    next => exact Or.inl ⟨hm, hs⟩
    next hvalid =>
      refine Or.inr ⟨(validate_ok hvalid).1, ?_⟩
      have h0 : Traced (SegmentPage data) (SegmentRange data)
          { s with pages := LoadedPages.new } := by
        refine ⟨?_, ?_⟩
        · simp [hm]
        · simp [hs]
      have hspec := mapSegments_traced p root data (readEhdr data)
        (fun i hi hl v hv => ⟨i, hi, hl, hv⟩) (fun i hi hl hf n hn => ⟨i, hi, hl, hf, rfl, hn⟩) h0
      unfold Spec at hspec
      split
      next s' hrun =>
        rw [hrun] at hspec
        exact hspec.congr ⟨rfl, rfl⟩
      next e s' hrun =>
        rw [hrun] at hspec
        exact hspec.congr ⟨rfl, rfl⟩
      next s' hrun =>
        rw [hrun] at hspec
        exact hspec

end Traces

/-! ### Confinement -/

/-- Every byte of a range lies in a confined page. -/
def ConfinedRange (r : ℕ × ℕ) : Prop := ∀ b, r.1 ≤ b → b < r.1 + r.2 → Confined (pageDown b)

/-- An empty `PT_LOAD` that is not page-aligned: the validation pass skips it, but rounding gives it
a page. -/
def Phdr.Unchecked (phdr : Phdr) : Prop :=
  phdr.pType = ptLoad ∧ phdr.pMemsz = 0 ∧ phdr.pVaddr % 0x1000 ≠ 0

variable {data : Image}

/-- An accepted segment whose pages are not checked is an empty one, with one page. -/
theorem Accepted.confined {phdr : Phdr} {len v : ℕ} (h : Accepted len phdr)
    (hload : phdr.pType = ptLoad) (hv : v ∈ phdr.pages) :
    Confined v ∨ (phdr.Unchecked ∧ v = pageDown phdr.pVaddr) := by
  by_cases hmem : phdr.pMemsz = 0
  · right
    obtain ⟨hal, hlo, hhi⟩ := mem_pages.mp hv
    simp only [PhysMem.frameOf, hmem] at hlo hhi
    refine ⟨⟨hload, hmem, by omega⟩, ?_⟩
    simp only [PhysMem.frameOf]
    omega
  · exact Or.inl (((h hload).2 hmem).confined hv)

/-- The bytes of a segment lie in its pages. -/
theorem pageDown_mem_pages {phdr : Phdr} {b : ℕ} (h1 : phdr.pVaddr ≤ b)
    (h2 : b < phdr.pVaddr + phdr.pMemsz) : pageDown b ∈ phdr.pages := by
  rw [mem_pages]
  simp only [PhysMem.frameOf]
  omega

/-- A page of code, and an empty segment in the first page of the stack. -/
def emptySegmentImage : Image :=
  buildImage 0x2000000 [⟨ptLoad, 5, 0, 0x2000000, 0, 0x1000⟩, ⟨ptLoad, 4, 0, 0x2200001, 0, 0⟩] []

end Vibix.Elf
