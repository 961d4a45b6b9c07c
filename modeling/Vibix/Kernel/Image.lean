import Vibix.Kernel.Exec
import Vibix.Elf.Contents
import Vibix.Paging.Copied

/-! # The address space of an image

`build_exec_image` and `build_flat_image` create a root from the active one, without its user pages,
and map the pages of the image and of its stack in it with `try_map_4k`.  So whatever the active root
is, the new one has these pages where there was nothing before, and nothing else is different from the
root that was created (`buildImageOf_populated`).

It is the root of a process again (`sysExec_space`), which is where the calls of the new program
start. -/

namespace Vibix.Kernel

open Paging Proc Elf FrameTree

/-- A page of the address space. -/
def IsPage (v : ℕ) : Prop := canonical v = true ∧ v < 2 ^ 64 ∧ v % 4096 = 0

/-- The pages of the segments of an ELF image. -/
def segmentPages (data : Image) : Set ℕ :=
  {v | ∃ phdr ∈ headers data, phdr.pType = ptLoad ∧ v ∈ phdr.pages}

/-- The pages of the stack of an ELF image. -/
def elfStackSet : Set ℕ := {v | ∃ i < elfStackPages, v = elfStackTopPage - i * 0x1000}

/-- The pages of a flat image: its code, and then one page for the stack. -/
def flatPages (data : Image) : Set ℕ :=
  {v | ∃ pages stackAddr stackEnd, flatLayout data.length = .ok (pages, stackAddr, stackEnd) ∧
    ((∃ i < pages, v = userCodeAddr + i * 0x1000) ∨ v = stackAddr)}

/-- The pages of the image of a file. -/
def ExecFile.pages (file : ExecFile) : Set ℕ :=
  if file.isElf then segmentPages file.data ∪ elfStackSet else flatPages file.data

section

variable {p : PmmAllocator} {m m' : Mach} {r v : ℕ} {data : Image} {a a' : Arena} {file : ExecFile}

/-! ### Single pages -/

theorem abandon_spec {ε α : Type} {e : ε} {Q : α → Mach → Prop} {E : ε → Mach → Prop}
    (h : ∀ m', E e m') : Spec (abandon p r e) m Q E :=
  Spec.update_bind (Spec.raise (h _))

/-- A page of the stack of an ELF image. -/
theorem mapStackPage_populated {S : Set ℕ} {m₀ : Mach} (hp : p.Physical) (failAfter : Option ℕ) (i : ℕ)
    (h : Populated p r S m₀ m) :
    Spec (mapStackPage p r failAfter i) m
      (fun _ m' => Populated p r (S ∪ {elfStackTopPage - i * 0x1000}) m₀ m') (fun _ _ => True) := by
  refine Spec.ite (fun _ => abandon_spec fun _ => trivial) fun _ => Spec.read_bind (Spec.ite
    (fun _ => abandon_spec fun _ => trivial) fun _ => Spec.ite
    (fun _ => Spec.write_bind (abandon_spec fun _ => trivial)) fun hsome => ?_)
  have hf := fetched_of_alloc hp hsome fun _ _ => rfl
  split
  · exact Spec.write_bind (abandon_spec fun _ => trivial)
  next m' hrun => exact Spec.write (h.trans hp (tryMap4k_populated hp hf h.ext.space hrun).1)

theorem mapStack_populated {S : Set ℕ} {m₀ : Mach} (hp : p.Physical) (failAfter : Option ℕ)
    (h : Populated p r S m₀ m) :
    Spec (mapStack p r failAfter) m (fun _ m' => Populated p r (S ∪ elfStackSet) m₀ m')
      (fun _ _ => True) := by
  have hspec := Spec.forM (l := List.range elfStackPages) (f := mapStackPage p r failAfter) (s := m)
    (E := fun _ _ => True)
    (I := fun done m' => Populated p r (S ∪ {v | ∃ i ∈ done, v = elfStackTopPage - i * 0x1000}) m₀ m')
    (by simpa using h) fun done i rest _ m' h' => by
      refine (mapStackPage_populated hp failAfter i h').mono (fun _ m'' h'' => ?_) fun _ _ _ => trivial
      convert h'' using 1
      ext v
      simp only [Set.mem_union, Set.mem_ofPred_eq, List.mem_append, List.mem_singleton,
        Set.mem_singleton_iff, or_and_right, exists_or, exists_eq_left, or_assoc]
  refine hspec.mono (fun _ m' h' => ?_) fun _ _ _ => trivial
  simpa [elfStackSet] using h'

/-- A page of a flat image. -/
theorem publishPage_populated {S : Set ℕ} {m₀ : Mach} {fill : PhysMem → ℕ → PhysMem}
    (hp : p.Physical) (hfill : FillsFrame fill) (h : Populated p r S m₀ m) :
    Spec (publishPage p r fill v) m (fun _ m' => Populated p r (S ∪ {v}) m₀ m')
      (fun _ _ => True) := by
  refine Spec.read_bind (Spec.ite (fun _ => Spec.write_bind (abandon_spec fun _ => trivial))
    fun hsome => ?_)
  have hframe := isFrame_of_free hp (PmmAllocator.taken_alloc hp.toValid hsome |>.sub rfl)
  have hf := fetched_of_alloc hp hsome fun g hg => hfill m.mem _ g hframe.1 hg
  dsimp only
  split
  · exact Spec.write_bind (abandon_spec fun _ => trivial)
  next m' hrun => exact Spec.write (h.trans hp (tryMap4k_populated hp hf h.ext.space hrun).1)

theorem mapCodePage_populated {S : Set ℕ} {m₀ : Mach} (hp : p.Physical) (failAfter : Option ℕ) (i : ℕ)
    (h : Populated p r S m₀ m) :
    Spec (mapCodePage p r data failAfter i) m
      (fun _ m' => Populated p r (S ∪ {userCodeAddr + i * 0x1000}) m₀ m') (fun _ _ => True) := by
  have hpage := publishPage_populated (v := userCodeAddr + i * 0x1000) hp
    (fillCode_fills (length_pageBytes data i)) h
  refine Spec.ite (fun _ => abandon_spec fun _ => trivial) fun _ => hpage.bind fun _ m' h' => ?_
  split
  · exact Spec.ret h'
  · exact abandon_spec fun _ => trivial

theorem fillFlat_populated (hp : p.Physical) (hs : ProcessSpace p m r) (data : Image)
    (failAfter : Option ℕ) (pages stackAddr : ℕ) :
    Spec (fillFlat p r data failAfter pages stackAddr) m
      (fun _ m' => Populated p r
        {v | (∃ i < pages, v = userCodeAddr + i * 0x1000) ∨ v = stackAddr} m m')
      (fun _ _ => True) := by
  refine Spec.bind (Spec.forM
    (I := fun done m' => Populated p r {v | ∃ i ∈ done, v = userCodeAddr + i * 0x1000} m m')
    (by simpa using Populated.refl hs) fun done i rest _ m' h' => ?_) fun _ m' h' => ?_
  · refine (mapCodePage_populated hp failAfter i h').mono (fun _ m'' h'' => ?_) fun _ _ _ => trivial
    convert h'' using 1
    ext v
    simp only [Set.mem_union, Set.mem_ofPred_eq, List.mem_append, List.mem_singleton,
      Set.mem_singleton_iff, or_and_right, exists_or, exists_eq_left]
  · refine Spec.ite (fun _ => abandon_spec fun _ => trivial) fun _ => ?_
    refine (publishPage_populated hp fillStack_fills h').mono (fun _ m'' h'' => ?_) fun _ _ _ => trivial
    convert h'' using 1
    ext v
    simp only [List.mem_range, Set.mem_union, Set.mem_ofPred_eq, Set.mem_singleton_iff]

/-! ### Whole images -/

theorem isPage_of_low (hv : v < 2 ^ 47) (haligned : v % 4096 = 0) : IsPage v := by
  simp only [IsPage, canonical, Bool.or_eq_true, decide_eq_true_eq]
  omega

theorem elfStackSet_page (hv : v ∈ elfStackSet) : IsPage v := by
  obtain ⟨i, hi, rfl⟩ := hv
  simp only [elfStackPages, elfStackTopPage] at hi ⊢
  exact isPage_of_low (by omega) (by omega)

theorem flatPages_page (hv : v ∈ flatPages data) : IsPage v := by
  obtain ⟨pages, stackAddr, stackEnd, hlayout, hv⟩ := hv
  obtain ⟨-, -, -, hstack, hend, hlimit⟩ := flatLayout_ok hlayout
  simp only [flatUserLimit, brkStart, userCodeAddr] at *
  rcases hv with ⟨i, hi, rfl⟩ | rfl <;> exact isPage_of_low (by omega) (by omega)

/-- The segments of an ELF image. -/
theorem load_populated {entry : ℕ} {inj : LoadFailureInjection} (hp : p.Physical)
    (hs : ProcessSpace p m r)
    (hload : (loadWithInjection p r data (Loader.start m a inj)).2 = .ok entry) :
    Populated p r (segmentPages data) m
        (loadWithInjection p r data (Loader.start m a inj)).1.mach ∧
      ∀ v ∈ segmentPages data, IsPage v := by
  obtain ⟨s, hdrop, h, hcov⟩ := load_loaded hp hs.ok hs.noGiant hload
  have hpages : {v | s.Has v} = segmentPages data := Set.ext hcov
  rw [hdrop, ← hpages]
  refine ⟨h.space hs, ?_⟩
  rintro v ⟨page, hpage, rfl⟩
  exact h.page page hpage

theorem buildExecImage_populated {image : ExecImage} (hp : p.Physical)
    (hs : ProcessSpace p m m.cr3) (hrun : buildExecImage p data m a = (m', a', .ok image)) :
    ∃ m₁, createPml4 p m false = some (m₁, some image.root) ∧
      Populated p image.root (segmentPages data ∪ elfStackSet) m₁ m' ∧
      ∀ v ∈ segmentPages data ∪ elfStackSet, IsPage v := by
  obtain ⟨m₁, res, hcreate, hcreated⟩ := createPml4Inner_spec false none hp hs.ok
  unfold buildExecImage buildExecImageInner at hrun
  rw [hcreate] at hrun
  cases res with
  | none => cases hrun
  | some root =>
    rcases hres : loadWithInjection p root data (Loader.start m₁ a .disabled) with ⟨s, out⟩
    simp only [hres] at hrun
    match out, hres, hrun with
    | .error .fault, _, hrun => cases hrun
    | .error (.error e), _, hrun => cases hrun
    | .ok entry, hres, hrun =>
      obtain ⟨hload, hpages⟩ := load_populated hp (hcreated.space hs) (congrArg Prod.snd hres)
      rw [hres] at hload
      have hspec := mapStack_populated hp none hload
      unfold Spec at hspec
      cases hstack : mapStack p root none s.mach with
      | error e m₂ =>
        simp only [hstack] at hrun
        cases hrun
      | ok _ m₂ =>
        simp only [hstack] at hrun hspec
        cases hrun
        exact ⟨m₁, hcreate, hspec, fun v hv => hv.elim (hpages v) elfStackSet_page⟩

theorem buildFlatImage_populated {image : FlatImage} (hp : p.Physical)
    (hs : ProcessSpace p m m.cr3) (hrun : buildFlatImage p data m = some (m', .ok image)) :
    ∃ m₁, createPml4 p m false = some (m₁, some image.root) ∧
      Populated p image.root (flatPages data) m₁ m' ∧ ∀ v ∈ flatPages data, IsPage v := by
  obtain ⟨m₁, res, hcreate, hcreated⟩ := createPml4Inner_spec false none hp hs.ok
  unfold buildFlatImage buildFlatImageInner at hrun
  split at hrun
  · cases hrun
  next pages stackAddr stackEnd hlayout =>
    simp only [createPml4, hcreate] at hrun ⊢
    cases res with
    | none => cases hrun
    | some root =>
      have hspec := fillFlat_populated hp (hcreated.space hs) data none pages stackAddr
      unfold Spec at hspec
      cases hfill : fillFlat p root data none pages stackAddr m₁ with
      | error e m₂ =>
        simp only [hfill] at hrun
        cases hrun
      | ok _ m₂ =>
        simp only [hfill] at hrun hspec
        cases hrun
        refine ⟨m₁, rfl, ?_, fun v => flatPages_page⟩
        convert hspec using 1
        ext v
        simp only [flatPages, hlayout, Except.ok.injEq, Prod.mk.injEq, Set.mem_ofPred_eq]
        constructor
        · rintro ⟨_, _, _, ⟨rfl, rfl, rfl⟩, hv⟩
          exact hv
        · exact fun hv => ⟨_, _, _, ⟨rfl, rfl, rfl⟩, hv⟩

/-- **The address space of an image**: the pages of the file are mapped in a root that was created
without user pages. -/
theorem buildImageOf_populated {image : UserImage} (hp : p.Physical) (hs : ProcessSpace p m m.cr3)
    (hrun : buildImageOf p file m a = .ok (m', a', .ok image)) :
    ∃ m₁, createPml4 p m false = some (m₁, some image.root) ∧
      Populated p image.root file.pages m₁ m' ∧ ∀ v ∈ file.pages, IsPage v := by
  unfold buildImageOf at hrun
  unfold ExecFile.pages
  split at hrun
  next helf =>
    rw [if_pos helf]
    split at hrun
    next => cases hrun
    next => cases hrun
    next hbuild =>
      cases hrun
      exact buildExecImage_populated hp hs hbuild
  next helf =>
    rw [if_neg helf]
    split at hrun
    next => cases hrun
    next => cases hrun
    next hbuild =>
      cases hrun
      exact buildFlatImage_populated hp hs hbuild

theorem elfErrno_ne (e : ElfError) : elfErrno e ≠ 0 := by
  cases e <;> simp [elfErrno, enomem, einval]

theorem flatErrno_ne (e : FlatLoadError) : flatErrno e ≠ 0 := by
  cases e <;> simp [flatErrno, enomem, einval]

/-- The result of a build that fails is not zero. -/
theorem buildImageOf_errno {rc : ℤ} (hrun : buildImageOf p file m a = .ok (m', a', .error rc)) :
    rc ≠ 0 := by
  unfold buildImageOf at hrun
  split at hrun <;> split at hrun <;> simp only [Except.ok.injEq, Prod.mk.injEq, reduceCtorEq,
    Except.error.injEq, and_false] at hrun
  · rw [← hrun.2.2]
    exact elfErrno_ne _
  · rw [← hrun.2.2]
    exact flatErrno_ne _

/-- An `exec` that succeeds has built an image and runs on its root. -/
theorem sysExec_ok {k k' : State} (hrun : sysExec p (.ok file) k = .ok (k', 0)) :
    ∃ m₁ image, buildImageOf p file k.mach k.arena = .ok (m₁, k'.arena, .ok image) ∧
      k'.mach = { m₁ with cr3 := image.root } := by
  unfold sysExec execMemory at hrun
  by_cases hsize : file.size = 0
  · simp only [if_pos hsize, Call.run, Proc.sysExec] at hrun
    cases hcur : k.sys.current <;> simp [hcur, Except.map, enoent] at hrun
  simp only [if_neg hsize] at hrun
  cases hbuild : buildImageOf p file k.mach k.arena with
  | error halt => simp [hbuild] at hrun
  | ok r =>
    obtain ⟨m₁, a₁, built⟩ := r
    simp only [hbuild, Call.run, Proc.sysExec] at hrun
    cases hcur : k.sys.current with
    | none => simp [hcur, Except.map] at hrun
    | some c =>
      cases built with
      | error rc =>
        simp only [hcur, Except.map, Except.ok.injEq, Prod.mk.injEq] at hrun
        exact absurd hrun.2 (buildImageOf_errno hbuild)
      | ok image =>
        simp only [hcur, Except.map, Except.ok.injEq, Prod.mk.injEq] at hrun
        rw [← hrun.1]
        exact ⟨m₁, image, rfl, rfl⟩

/-- The root of an image is the root of a process. -/
theorem sysExec_space {k k' : State} (hp : p.Physical) (hs : ProcessSpace p k.mach k.mach.cr3)
    (hrun : sysExec p (.ok file) k = .ok (k', 0)) : ProcessSpace p k'.mach k'.mach.cr3 := by
  obtain ⟨m₁, image, hbuild, hmach⟩ := sysExec_ok hrun
  obtain ⟨m₂, -, hpop, -⟩ := buildImageOf_populated hp hs hbuild
  rw [hmach]
  exact hpop.ext.space.congr (fun _ _ => rfl) subset_rfl

/-- `build_exec_image` or `build_flat_image`: the machine and the image, if it succeeds. -/
def built (p : PmmAllocator) (elf : Bool) (data : Image) (m : Mach) (a : Arena) :
    Option (Mach × UserImage) :=
  if elf then
    match buildExecImage p data m a with
    | (m, _, .ok image) => some (m, ⟨image.root, image.entry, image.userRsp, image.stackLow⟩)
    | (_, _, .error _) => none
  else
    match buildFlatImage p data m with
    | some (m, .ok image) => some (m, ⟨image.root, userCodeAddr, image.userRsp, image.stackLow⟩)
    | _ => none

end

end Vibix.Kernel
