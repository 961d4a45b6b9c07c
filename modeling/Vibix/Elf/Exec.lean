import Vibix.Elf.Confine
import Vibix.Elf.LoaderSpec
import Vibix.Paging.Space

/-! # Building the image of an exec

`build_exec_image` creates a root, loads the image into it and maps the pages of the stack; when
something fails it destroys the root again.

As long as the pages of the image lie under `PML4[0]`, from `USER_CODE_ADDR` on, all of this keeps
the root a process root that owns everything that was allocated (`Tracked`): destroying it then
restores the bitmap, whatever failed and when (`buildExecImage_spec`).  The provenance list is
released on every path. -/

namespace Vibix.Elf

open Paging FrameTree LoadedPages

/-- `ExecImage`. -/
structure ExecImage where
  root : ℕ
  entry : ℕ
  userRsp : ℕ
  stackLow : ℕ
deriving DecidableEq

/-- Programs that change the machine and may stop with an error. -/
abbrev BuildM := EStateM ElfError Mach

section

variable (p : PmmAllocator) (root : ℕ)

/-- Map page `i` of the stack, counted from its top. -/
def mapStackPage (stackFailAfter : Option ℕ) (i : ℕ) : BuildM Unit := do
  let pageAddr := elfStackTopPage - i * 0x1000
  if stackFailAfter = some i then abandon p root .oom
  else
    let m ← get
    if (translateInPml4 m.mem pageAddr root).isSome then abandon p root .mappingCollision
    else
      let r := p.alloc m.bitmap
      if r.2 = 0 then do
        set { m with bitmap := r.1 }
        abandon p root .oom
      else
        match tryMap4k p { m with bitmap := r.1 } root pageAddr r.2 pageUserRw with
        | (m, false) => do
          set (m.free p r.2)
          abandon p root .oom
        | (m, true) => set m

/-- The pages of the stack, from its top downwards. -/
def mapStack (stackFailAfter : Option ℕ) : BuildM Unit :=
  (List.range elfStackPages).forM (mapStackPage p root stackFailAfter)

end

/-- `build_exec_image_inner`. -/
def buildExecImageInner (p : PmmAllocator) (data : Image) (stackFailAfter : Option ℕ) (m : Mach)
    (a : Arena) : Mach × Arena × Except Stop ExecImage :=
  match createPml4Inner p m false none with
  | none => (m, a, .error .fault)
  | some (m, none) => (m, a, .error (.error .oom))
  | some (m, some root) =>
    match loadWithInjection p root data (Loader.start m a .disabled) with
    | (s, .error .fault) => (s.mach, s.arena, .error .fault)
    | (s, .error (.error e)) => (destroyUncommittedPml4 p s.mach root, s.arena, .error (.error e))
    | (s, .ok entry) =>
      match mapStack p root stackFailAfter s.mach with
      | .error e m => (m, s.arena, .error (.error e))
      | .ok () m => (m, s.arena, .ok ⟨root, entry, elfStackTopPage + 0x1000, elfStackLow⟩)

/-- `build_exec_image`. -/
def buildExecImage (p : PmmAllocator) (data : Image) (m : Mach) (a : Arena) :
    Mach × Arena × Except Stop ExecImage :=
  buildExecImageInner p data none m a

/-! ### The pages of a load -/

section

variable {p : PmmAllocator} {H : Fin 512 → BitVec 64 → Prop} {Lo : BitVec 64 → Prop}
  {m₁ m m' : Mach} {r v : ℕ} {mask : BitVec 64} {L : List LoadedPage} {s s' : Loader} {E : Set ℕ}

/-- The recorded pages are leaves of the tree. -/
structure Backed (r : ℕ) (m : Mach) (L : List LoadedPage) : Prop where
  nodup : (L.map LoadedPage.vaddr).Nodup
  page : ∀ page ∈ L, page.vaddr < 2 ^ 39 ∧ page.vaddr % 4096 = 0
  leaf : ∀ page ∈ L, frameAt ownedBy m.mem r (leafPath page.vaddr) = some page.paddr

theorem leafPath_inj {v w : ℕ} (hv : v < 2 ^ 39) (hw : w < 2 ^ 39) (hva : v % 4096 = 0)
    (hwa : w % 4096 = 0) (h : leafPath v = leafPath w) : v = w := by
  simp only [leafPath, List.cons.injEq, l1Index, l2Index, l3Index, Fin.mk.injEq] at h
  omega

theorem Backed.mono (h : Backed r m L) (hmono : ∀ path f, frameAt ownedBy m.mem r path = some f →
    frameAt ownedBy m'.mem r path = some f) : Backed r m' L :=
  ⟨h.nodup, h.page, fun page hpage => hmono _ _ (h.leaf page hpage)⟩

/-- **Rollback**: all recorded pages are taken back. -/
theorem rollback_built (h : Built p (SpaceOk H Lo) m₁ r ∅ m) (hL : Backed r m L) :
    Built p (SpaceOk H Lo) m₁ r ∅ (L.foldl (rollbackPage p r) m) := by
  induction L generalizing m with
  | nil => exact h
  | cons page L ih =>
    obtain ⟨hv, hal⟩ := hL.page page List.mem_cons_self
    obtain ⟨m', e, hrun, he, -, hb, hkeep⟩ :=
      unmapAndFreeEmpty_built h hv (hL.leaf page List.mem_cons_self)
    have hstep : rollbackPage p r m page = m'.free p page.paddr := by
      simp only [rollbackPage, hrun, he]
    rw [List.foldl_cons, hstep]
    refine ih (hb.release (by simp)) ⟨(List.nodup_cons.mp hL.nodup).2, ?_, ?_⟩
    · exact fun page' h' => hL.page page' (List.mem_cons_of_mem _ h')
    · intro page' h'
      obtain ⟨hv', hal'⟩ := hL.page page' (List.mem_cons_of_mem _ h')
      refine hkeep _ _ rfl ?_ (hL.leaf page' (List.mem_cons_of_mem _ h'))
      intro heq
      have hvv := leafPath_inj hv' hv hal' hal heq
      refine (List.nodup_cons.mp hL.nodup).1 ?_
      rw [← hvv]
      exact List.mem_map_of_mem h'

/-- The state of a load into a process root. -/
structure Tracked (p : PmmAllocator) (H : Fin 512 → BitVec 64 → Prop) (Lo : BitVec 64 → Prop)
    (m₁ : Mach) (r : ℕ) (mask : BitVec 64) (s : Loader) : Prop where
  sound : s.pages.Sound mask s.arena
  built : Built p (SpaceOk H Lo) m₁ r ∅ s.mach
  backed : Backed r s.mach s.records

/-- The state of a load that stopped with an error: the pages are taken back. -/
def Undone (p : PmmAllocator) (H : Fin 512 → BitVec 64 → Prop) (Lo : BitVec 64 → Prop)
    (m₁ : Mach) (r : ℕ) (mask : BitVec 64) (stop : Stop) (s : Loader) : Prop :=
  stop ≠ .fault → s.pages.Sound mask s.arena ∧ Built p (SpaceOk H Lo) m₁ r ∅ s.mach

theorem Failed.undone {stop : Stop} (hf : Failed p r mask L m stop s)
    (h : Built p (SpaceOk H Lo) m₁ r ∅ m) (hL : Backed r m L) :
    Undone p H Lo m₁ r mask stop s := by
  intro _
  refine ⟨hf.sound, ?_⟩
  rw [hf.mach]
  exact rollback_built h hL

theorem Backed.concat {f : ℕ} (h : Backed r m L) (hv : v < 2 ^ 39) (hva : v % 4096 = 0)
    (hnew : ∀ page ∈ L, page.vaddr ≠ v) (hf : frameAt ownedBy m.mem r (leafPath v) = some f) :
    Backed r m (L ++ [⟨v, f⟩]) := by
  refine ⟨?_, ?_, ?_⟩
  · rw [List.map_append, List.map_singleton]
    refine List.nodup_append.mpr ⟨h.nodup, List.nodup_singleton _, ?_⟩
    simpa using hnew
  · rw [List.forall_mem_append, List.forall_mem_singleton]
    exact ⟨h.page, hv, hva⟩
  · rw [List.forall_mem_append, List.forall_mem_singleton]
    exact ⟨h.leaf, hf⟩

/-- A store to the user range only reaches a leaf of the root. -/
theorem Tracked.store {mem : PhysMem} {pa : ℕ} (h : Tracked p H Lo m₁ r mask s)
    (hlow : userCodeAddr ≤ v) (hv : v < 2 ^ 39) (hacc : access r s.mach.mem v = some pa)
    (hmem : ∀ g, g ≠ PhysMem.frameOf pa → mem g = s.mach.mem g)
    (hmach : s'.mach = { s.mach with mem := mem }) (hpages : s'.pages = s.pages)
    (harena : s'.arena = s.arena) : Tracked p H Lo m₁ r mask s' := by
  have hwalk : walk s.mach.mem r v = some pa := by
    unfold access at hacc
    split at hacc
    · exact hacc
    · cases hacc
  obtain ⟨hb, hframe⟩ := h.built.setLeaf rfl (h.built.frameOf_walk hlow hv hwalk) hmem
  have hrec : s'.records = s.records := by
    unfold Loader.records
    rw [hpages, harena]
  refine ⟨?_, ?_, ?_⟩
  · rw [hpages, harena]
    exact h.sound
  · rw [hmach]
    exact hb
  · rw [hrec, hmach]
    exact h.backed.mono fun path f hf => by rw [hframe, hf]

theorem mapPage_tracked (hp : p.Physical) (h : Tracked p H Lo m₁ r mask s)
    (hlow : userCodeAddr ≤ v) (hv : v < 2 ^ 39) (hva : v % 4096 = 0) :
    Spec (mapPage p r v) s (fun _ s' => Tracked p H Lo m₁ r mask s')
      (Undone p H Lo m₁ r mask) := by
  refine Spec.read_bind ?_
  split
  next => exact Spec.ret h
  next hfind =>
    have hnew := find_none hfind
    refine Spec.ite (fun _ => (rollbackError_failed h.sound).mono (fun _ _ hq => hq)
      fun _ _ hf => hf.undone h.built h.backed) fun _ => ?_
    refine ((reserveSlot_spec h.sound).mono (fun _ _ hq => hq)
      fun _ _ hf => hf.undone h.built h.backed).bind ?_
    rintro slot s₁ ⟨hpend, hmach₁, -⟩
    have hb := h.built
    have hL := h.backed
    rw [← hmach₁] at hb hL
    refine ((allocFrame_spec hp hpend).mono (fun _ _ hq => hq)
      fun _ _ hf => hf.undone hb hL).bind ?_
    rintro f s₂ ⟨hpend, -, bm, hmach₂, htake⟩
    obtain ⟨hb₂, hE⟩ := hb.alloc htake
    rw [← hmach₂] at hb₂
    have hL₂ : Backed r s₂.mach s.records := hL.mono fun _ _ hf => by rw [hmach₂]; exact hf
    obtain ⟨m₃, b, hrun, hmono, hyes, hno⟩ :=
      tryMap4k_built hp hb₂ hE (isFrame_of_free hp (htake.sub rfl)) hlow hv
    refine Spec.bind (R := fun _ s₃ => Tracked p H Lo m₁ r mask s₃) ?_ fun _ s₃ h₃ => ?_
    · refine (mapFrame_spec hpend).mono ?_ ?_
      · rintro _ s₃ ⟨hmap, hsound, hrec, -⟩
        rw [hrun] at hmap
        obtain ⟨rfl, rfl⟩ := Prod.mk.inj hmap
        refine ⟨hsound, (hyes rfl).1, ?_⟩
        rw [hrec]
        exact (hL₂.mono hmono).concat hv hva hnew (hyes rfl).2
      · rintro stop s₃ ⟨m, hmap, hf⟩
        rw [hrun] at hmap
        obtain ⟨rfl, rfl⟩ := Prod.mk.inj hmap
        exact hf.undone ((hno rfl).release hE) (hL₂.mono hmono)
    · refine zeroPage_spec.mono ?_ fun stop _ hf hne => absurd hf.1 hne
      rintro _ _ ⟨pa, hacc, rfl⟩
      exact h₃.store hlow hv hacc (fun g hg => PhysMem.setFrame_ne _ hg _) rfl rfl rfl

theorem storeBytes_tracked (h : Tracked p H Lo m₁ r mask s) (v : ℕ) (bs : List (BitVec 8))
    (hlow : userCodeAddr ≤ v) (hv : v + bs.length ≤ 2 ^ 39) :
    Spec (storeBytes r v bs) s (fun _ s' => Tracked p H Lo m₁ r mask s')
      (Undone p H Lo m₁ r mask) := by
  induction bs generalizing v s with
  | nil => exact Spec.ret h
  | cons b bs ih =>
    rw [List.length_cons] at hv
    refine Spec.read_bind ?_
    split
    next => exact Spec.raise fun hne => absurd rfl hne
    next pa hacc =>
      refine Spec.write_bind (ih ?_ (v + 1) (by omega) (by omega))
      exact h.store hlow (by omega) hacc
        (fun g hg => PhysMem.writeByte_frame_ne _ hg _) rfl rfl rfl

theorem rollbackError_undone {α : Type} {e : ElfError} {Q : α → Loader → Prop}
    (h : Tracked p H Lo m₁ r mask s) :
    Spec (rollbackError p r e) s Q (Undone p H Lo m₁ r mask) :=
  (rollbackError_failed h.sound).mono (fun _ _ hq => hq)
    fun _ _ hf => hf.undone h.built h.backed

theorem mapPageStep_tracked (hp : p.Physical) (h : Tracked p H Lo m₁ r mask s)
    (hlow : userCodeAddr ≤ v) (hv : v < 2 ^ 39) (hva : v % 4096 = 0) :
    Spec (mapPageStep p r v) s (fun _ s' => Tracked p H Lo m₁ r mask s')
      (Undone p H Lo m₁ r mask) := by
  refine (mapPage_tracked hp h hlow hv hva).bind fun _ s' h' => ?_
  split
  · exact rollbackError_undone h'
  · exact Spec.ret h'

variable {data : Image} {phdr : Phdr}

/-- The pages of a segment lie under `PML4[0]`, from `USER_CODE_ADDR` on. -/
def Phdr.Low (phdr : Phdr) : Prop :=
  phdr.pType = ptLoad → ∀ v ∈ phdr.pages, userCodeAddr ≤ v ∧ v < 2 ^ 39

theorem copySegment_tracked (h : Tracked p H Lo m₁ r mask s) (hload : phdr.pType = ptLoad)
    (hphdr : phdr.Low) :
    Spec (copySegment p r data phdr) s (fun _ s' => Tracked p H Lo m₁ r mask s')
      (Undone p H Lo m₁ r mask) := by
  refine Spec.ite (fun hpos => ?_) fun _ => Spec.ret h
  split
  next => exact rollbackError_undone h
  next srcEnd hsrc =>
    refine Spec.ite (fun _ => rollbackError_undone h) fun _ => Spec.update_bind ?_
    set bs := ((data.take srcEnd).drop phdr.pOffset).take (min phdr.pFilesz phdr.pMemsz) with hbs
    have hlen : bs.length ≤ phdr.pMemsz := by
      rw [hbs, List.length_take]
      omega
    have h' : Tracked p H Lo m₁ r mask
        { s with stored := (phdr.pVaddr, min phdr.pFilesz phdr.pMemsz) :: s.stored } :=
      ⟨h.sound, h.built, h.backed⟩
    by_cases hnil : bs = []
    · rw [hnil]
      exact Spec.ret h'
    · have hbslen := List.length_pos_of_ne_nil hnil
      have hfirst := (hphdr hload _ (pageDown_mem_pages (b := phdr.pVaddr) le_rfl (by omega))).1
      have hlast := (hphdr hload _ (pageDown_mem_pages (b := phdr.pVaddr + bs.length - 1)
        (by omega) (by omega))).2
      simp only [PhysMem.frameOf] at hfirst hlast
      exact storeBytes_tracked h' _ _ (by omega) (by omega)

theorem loadSegment_tracked (hp : p.Physical) (h : Tracked p H Lo m₁ r mask s)
    (hphdr : phdr.Low) :
    Spec (loadSegment p r data phdr) s (fun _ s' => Tracked p H Lo m₁ r mask s')
      (Undone p H Lo m₁ r mask) := by
  refine Spec.ite (fun _ => Spec.ret h) fun hload => ?_
  rw [not_not] at hload
  split
  next => exact rollbackError_undone h
  next up hup =>
    obtain ⟨stop, hstop, hup⟩ := Option.bind_eq_some_iff.mp hup
    obtain ⟨rfl, -⟩ := checkedAdd_eq_some hstop
    obtain ⟨rfl, -⟩ := checkedAdd_eq_some hup
    refine Spec.bind (Spec.forM (I := fun _ s => Tracked p H Lo m₁ r mask s) h ?_) fun _ s h => ?_
    · intro done v rest hl s h
      have hmem : v ∈ phdr.pages := by
        rw [Phdr.pages, hl]
        simp
      obtain ⟨hlow, hv⟩ := hphdr hload v hmem
      exact mapPageStep_tracked hp h hlow hv (mem_pages.mp hmem).1
    · exact copySegment_tracked h hload hphdr

theorem mapSegments_tracked (hp : p.Physical) (h : Tracked p H Lo m₁ r mask s) {ehdr : Ehdr}
    (himage : ∀ i < ehdr.ePhnum, (phdrAt data ehdr i).Low) :
    Spec (mapSegments p r data ehdr) s (fun _ s' => Tracked p H Lo m₁ r mask s')
      (Undone p H Lo m₁ r mask) := by
  refine Spec.forM (I := fun _ s => Tracked p H Lo m₁ r mask s) h ?_
  intro done i rest hl s h
  have hi : i < ehdr.ePhnum := by
    rw [← List.mem_range, hl]
    simp
  unfold loadHeader
  split
  next => exact rollbackError_undone h
  next off hoff =>
    obtain rfl := phdrOffset_eq_some hoff
    split
    next => exact rollbackError_undone h
    next =>
      refine Spec.ite (fun _ => rollbackError_undone h) fun _ => ?_
      exact loadSegment_tracked hp h (himage i hi)

/-- All pages of an image lie under `PML4[0]`, from `USER_CODE_ADDR` on. -/
def LowImage (data : Image) : Prop :=
  ∀ i < (readEhdr data).ePhnum, (phdrAt data (readEhdr data) i).Low

instance (data : Image) : Decidable (LowImage data) := by
  unfold LowImage Phdr.Low
  infer_instance

/-- **A load into a process root** that does not fault leaves a process root and the mask of the
arena as it was. -/
theorem loadWithInjection_tracked (hp : p.Physical) (hdata : LowImage data) (a : Arena)
    (inj : LoadFailureInjection) (h : Built p (SpaceOk H Lo) m₁ r ∅ m)
    (hstop : (loadWithInjection p r data (Loader.start m a inj)).2 ≠ .error .fault) :
    (loadWithInjection p r data (Loader.start m a inj)).1.arena.freeMask = a.freeMask ∧
      Built p (SpaceOk H Lo) m₁ r ∅ (loadWithInjection p r data (Loader.start m a inj)).1.mach := by
  have h0 : Tracked p H Lo m₁ r a.freeMask (Loader.start m a inj) :=
    ⟨Sound.new a, h, by simp, by simp, by simp⟩
  cases hparse : parseEhdr data with
  | error e =>
    simp only [loadWithInjection, hparse]
    exact ⟨rfl, h⟩
  | ok ehdr =>
    obtain ⟨rfl, -, -⟩ := parseEhdr_ok hparse
    cases hvalid : validate data (readEhdr data) with
    | error e =>
      simp only [loadWithInjection, hparse, hvalid]
      exact ⟨rfl, h⟩
    | ok _ =>
      have hspec := mapSegments_tracked hp h0 hdata
      unfold Spec at hspec
      cases hrun : mapSegments p r data (readEhdr data) (Loader.start m a inj) with
      | ok _ s' =>
        rw [hrun] at hspec
        have hrun' : mapSegments p r data (readEhdr data)
          { Loader.start m a inj with pages := new } = .ok () s' := hrun
        simp only [loadWithInjection, hparse, hvalid, hrun']
        exact ⟨hspec.sound.releaseMetadata, hspec.built⟩
      | error stop s' =>
        rw [hrun] at hspec
        have hrun' : mapSegments p r data (readEhdr data)
          { Loader.start m a inj with pages := new } = .error stop s' := hrun
        cases stop with
        | fault => simp [loadWithInjection, hparse, hvalid, hrun'] at hstop
        | error e =>
          simp only [loadWithInjection, hparse, hvalid, hrun']
          obtain ⟨hsound, hbuilt⟩ := hspec (by simp)
          exact ⟨hsound.releaseMetadata, hbuilt⟩

/-! ### The stack, and the whole image -/

theorem mapStackPage_built (hp : p.Physical) (stackFailAfter : Option ℕ) {i : ℕ}
    (hi : i < elfStackPages) (h : Built p (SpaceOk H Lo) m₁ r ∅ m) :
    Spec (mapStackPage p r stackFailAfter i) m (fun _ m' => Built p (SpaceOk H Lo) m₁ r ∅ m')
      (fun _ m' => Restored p m₁ m') := by
  have hlow : userCodeAddr ≤ elfStackTopPage - i * 0x1000 := by
    simp only [elfStackPages, elfStackTopPage, userCodeAddr] at hi ⊢
    omega
  have hv : elfStackTopPage - i * 0x1000 < 2 ^ 39 := by
    simp only [elfStackTopPage]
    omega
  refine Spec.ite (fun _ => abandon_restored h) fun _ => Spec.read_bind (Spec.ite
    (fun _ => abandon_restored h) fun _ => Spec.ite (fun hnull => ?_) fun hsome => ?_)
  · rw [mach_alloc_null hp hnull]
    exact Spec.write_bind (abandon_restored h)
  · have htake := PmmAllocator.taken_alloc hp.toValid hsome
    obtain ⟨hb, hE⟩ := h.alloc htake
    obtain ⟨m', b, hrun, -, hyes, hno⟩ :=
      tryMap4k_built hp hb hE (isFrame_of_free hp (htake.sub rfl)) hlow hv
    rw [hrun]
    cases b with
    | true => exact Spec.write (hyes rfl).1
    | false => exact Spec.write_bind (abandon_restored ((hno rfl).release hE))

theorem mapStack_built (hp : p.Physical) (stackFailAfter : Option ℕ)
    (h : Built p (SpaceOk H Lo) m₁ r ∅ m) :
    Spec (mapStack p r stackFailAfter) m (fun _ m' => Built p (SpaceOk H Lo) m₁ r ∅ m')
      (fun _ m' => Restored p m₁ m') := by
  refine Spec.forM (I := fun _ m => Built p (SpaceOk H Lo) m₁ r ∅ m) h ?_
  intro done i rest hl m h
  have hi : i < elfStackPages := by
    rw [← List.mem_range, hl]
    simp
  exact mapStackPage_built hp stackFailAfter hi h

/-- What building an image does: a process root, or everything as before. -/
structure ImageBuilt (p : PmmAllocator) (H : Fin 512 → BitVec 64 → Prop) (Lo : BitVec 64 → Prop)
    (m : Mach) (a : Arena) (res : Mach × Arena × Except Stop ExecImage) : Prop where
  mask : res.2.2 ≠ .error .fault → res.2.1.freeMask = a.freeMask
  failed : ∀ e, res.2.2 = .error (.error e) → Restored p m res.1
  built : ∀ image, res.2.2 = .ok image → Built p (SpaceOk H Lo) m image.root ∅ res.1

/-- **Building an image** whose pages lie under `PML4[0]`. -/
theorem buildExecImage_spec (hp : p.Physical) (hwf : WellFormed p m) (hm : ParentOk H Lo false m)
    (hdata : LowImage data) (stackFailAfter : Option ℕ) (a : Arena) :
    ImageBuilt p H Lo m a (buildExecImageInner p data stackFailAfter m a) := by
  obtain ⟨m₁, res, hcreate, hcreated⟩ := createPml4Inner_spec false none hp hwf
  unfold buildExecImageInner
  rw [hcreate]
  cases res with
  | none => exact ⟨fun _ => rfl, fun _ _ => ⟨hcreated.cr3, hcreated.failed rfl, hcreated.used⟩,
      nofun⟩
  | some root =>
    have hb := hcreated.built hm
    have hload := loadWithInjection_tracked hp hdata a .disabled hb
    rcases hres : loadWithInjection p root data (Loader.start m₁ a .disabled) with ⟨s, out⟩
    simp only [hres] at hload ⊢
    match out, hload with
    | .error .fault, _ => exact ⟨fun h => absurd rfl h, nofun, nofun⟩
    | .error (.error e), hload =>
      obtain ⟨hmask, hbuilt⟩ := hload (by simp)
      exact ⟨fun _ => hmask, fun _ _ => restored_destroy hbuilt, nofun⟩
    | .ok entry, hload =>
      obtain ⟨hmask, hbuilt⟩ := hload (by simp)
      have hspec := mapStack_built hp stackFailAfter hbuilt
      unfold Spec at hspec
      cases hrun : mapStack p root stackFailAfter s.mach with
      | ok _ m' =>
        simp only [hrun] at hspec ⊢
        refine ⟨fun _ => hmask, nofun, ?_⟩
        rintro image ⟨⟩
        exact hspec
      | error e m' =>
        simp only [hrun] at hspec ⊢
        exact ⟨fun _ => hmask, fun _ _ => hspec, nofun⟩

end

end Vibix.Elf
