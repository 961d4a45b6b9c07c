import Vibix.Elf.Exec
import Vibix.Proc.Table

/-! # Flat images

`build_flat_image` creates a root, maps the code pages of a flat binary from `USER_CODE_ADDR` on, each
zeroed and filled through its physical address, and one page for the stack behind them.  Like
`build_exec_image` it destroys the root when something fails.

All pages lie under `PML4[0]`, below `FLAT_USER_LIMIT`; so whatever fails, everything is as before
(`buildFlatImage_spec`). -/

namespace Vibix.Kernel

open Paging Proc Elf FrameTree

/-- `FlatLoadError`. -/
inductive FlatLoadError where
  | invalidSize
  | addressOverflow
  | oversize
  | mappingCollision
  | oom
deriving DecidableEq, Repr

/-- `FlatImage`. -/
structure FlatImage where
  root : ℕ
  userRsp : ℕ
  stackLow : ℕ
deriving DecidableEq

/-- `FLAT_USER_LIMIT`. -/
def flatUserLimit : ℕ := brkStart

/-- Where the stack of a flat image begins and ends, if the image has a size that is allowed. -/
def flatLayout (size : ℕ) : Except FlatLoadError (ℕ × ℕ × ℕ) :=
  if size = 0 then .error .invalidSize
  else
    match checkedAdd size 0xfff with
    | none => .error .addressOverflow
    | some rounded =>
      let pages := max (rounded / 0x1000) 2
      match checkedMul pages 0x1000 with
      | none => .error .addressOverflow
      | some codeBytes =>
        match checkedAdd userCodeAddr codeBytes with
        | none => .error .addressOverflow
        | some stackAddr =>
          match checkedAdd stackAddr 0x1000 with
          | none => .error .addressOverflow
          | some stackEnd =>
            if flatUserLimit < stackEnd then .error .oversize
            else if overlapsKernelScratch userCodeAddr stackEnd then .error .oversize
            else .ok (pages, stackAddr, stackEnd)

/-- `copy_nonoverlapping` to a physical address. -/
def copyTo (mem : PhysMem) (pa : ℕ) : List (BitVec 8) → PhysMem
  | [] => mem
  | b :: bytes => copyTo (mem.writeByte pa b) (pa + 1) bytes

/-- Programs that change the machine and may stop with an error. -/
abbrev FlatM := EStateM FlatLoadError Mach

section

variable (p : PmmAllocator) (root : ℕ)

/-- The bytes of code page `i`. -/
def pageBytes (data : Image) (i : ℕ) : List (BitVec 8) := (data.drop (i * 0x1000)).take 0x1000

/-- A new frame is filled and mapped at `v`; on failure it is given back with the root. -/
def publishPage (fill : PhysMem → ℕ → PhysMem) (v : ℕ) : FlatM Unit := do
  let m ← get
  if (p.alloc m.bitmap).2 = 0 then do
    set { m with bitmap := (p.alloc m.bitmap).1 }
    abandon p root .oom
  else
    let f := (p.alloc m.bitmap).2
    match tryMap4k p { m with mem := fill m.mem f, bitmap := (p.alloc m.bitmap).1 } root v f
        pageUserRw with
    | (m, false) => do
      set (m.free p f)
      abandon p root .mappingCollision
    | (m, true) => set m

/-- A code page is cleared and then filled. -/
def fillCode (bytes : List (BitVec 8)) (mem : PhysMem) (f : ℕ) : PhysMem :=
  copyTo (mem.setFrame f fun _ => 0#64) f bytes

/-- Code page `i`. -/
def mapCodePage (data : Image) (failAfter : Option ℕ) (i : ℕ) : FlatM Unit := do
  if failAfter = some i then abandon p root .oom
  else
    publishPage p root (fillCode (pageBytes data i)) (userCodeAddr + i * 0x1000)
    -- the next source offset and the next address
    match checkedAdd (i * 0x1000) 0x1000, checkedAdd (userCodeAddr + i * 0x1000) 0x1000 with
    | some _, some _ => pure ()
    | _, _ => abandon p root .addressOverflow

/-- The code pages and the stack page, which is not cleared. -/
def fillFlat (data : Image) (failAfter : Option ℕ) (pages stackAddr : ℕ) : FlatM Unit := do
  (List.range pages).forM (mapCodePage p root data failAfter)
  if failAfter = some pages then abandon p root .oom
  else publishPage p root (fun mem _ => mem) stackAddr

end

/-- `build_flat_image_inner`; none if `create_pml4` faults. -/
def buildFlatImageInner (p : PmmAllocator) (data : Image) (failAfter : Option ℕ) (m : Mach) :
    Option (Mach × Except FlatLoadError FlatImage) :=
  match flatLayout data.length with
  | .error e => some (m, .error e)
  | .ok (pages, stackAddr, stackEnd) =>
    match createPml4 p m false with
    | none => none
    | some (m, none) => some (m, .error .oom)
    | some (m, some root) =>
      match fillFlat p root data failAfter pages stackAddr m with
      | .error e m => some (m, .error e)
      | .ok () m => some (m, .ok ⟨root, stackEnd, stackAddr⟩)

/-- `build_flat_image`. -/
def buildFlatImage (p : PmmAllocator) (data : Image) (m : Mach) :
    Option (Mach × Except FlatLoadError FlatImage) :=
  buildFlatImageInner p data none m

/-- The number of code pages of a flat image. -/
def codePages (size : ℕ) : ℕ := max ((size + 0xfff) / 0x1000) 2

/-- The layout of a flat image. -/
theorem flatLayout_eq_ok {size pages stackAddr stackEnd : ℕ}
    (h : flatLayout size = .ok (pages, stackAddr, stackEnd)) :
    0 < size ∧ pages = codePages size ∧ stackAddr = userCodeAddr + pages * 0x1000 ∧
      stackEnd = stackAddr + 0x1000 ∧ stackEnd ≤ flatUserLimit := by
  unfold flatLayout at h
  split at h
  · cases h
  split at h
  · cases h
  next hsize _ rounded hrounded =>
  obtain ⟨rfl, -⟩ := checkedAdd_eq_some hrounded
  dsimp only at h
  split at h
  · cases h
  next codeBytes hcode =>
  obtain ⟨rfl, -⟩ := checkedMul_eq_some hcode
  split at h
  · cases h
  next stack hstack =>
  obtain ⟨rfl, -⟩ := checkedAdd_eq_some hstack
  split at h
  · cases h
  next stop hstop =>
  obtain ⟨rfl, -⟩ := checkedAdd_eq_some hstop
  split at h
  · cases h
  next hlimit =>
  split at h
  · cases h
  · cases h
    exact ⟨Nat.pos_of_ne_zero hsize, rfl, rfl, rfl, Nat.le_of_not_lt hlimit⟩

theorem flatLayout_ok {size pages stackAddr stackEnd : ℕ}
    (h : flatLayout size = .ok (pages, stackAddr, stackEnd)) :
    0 < size ∧ size ≤ pages * 0x1000 ∧ 2 ≤ pages ∧ stackAddr = userCodeAddr + pages * 0x1000 ∧
      stackEnd = stackAddr + 0x1000 ∧ stackEnd ≤ flatUserLimit := by
  obtain ⟨hsize, rfl, hrest⟩ := flatLayout_eq_ok h
  have hle := le_max_left ((size + 0xfff) / 0x1000) 2
  refine ⟨hsize, ?_, le_max_right _ _, hrest⟩
  unfold codePages
  omega

/-! ### Failure -/

section Built

variable {p : PmmAllocator} {H : Fin 512 → BitVec 64 → Prop} {Lo : BitVec 64 → Prop}
  {m₁ m : Mach} {r v : ℕ} {fill : PhysMem → ℕ → PhysMem} {data : Image}

/-- Only the frame itself is filled. -/
def FillsFrame (fill : PhysMem → ℕ → PhysMem) : Prop :=
  ∀ mem f g, f % 4096 = 0 → g ≠ f → fill mem f g = mem g

theorem copyTo_frame_ne {f g k : ℕ} (hf : f % 4096 = 0) (hg : g ≠ f) (bytes : List (BitVec 8))
    (mem : PhysMem) (hlen : k + bytes.length ≤ 4096) :
    copyTo mem (f + k) bytes g = mem g := by
  induction bytes generalizing mem k with
  | nil => rfl
  | cons b bytes ih =>
    rw [List.length_cons] at hlen
    have hframe : PhysMem.frameOf (f + k) = f := PhysMem.frameOf_add hf (by omega)
    rw [copyTo, Nat.add_assoc, ih _ (by omega), PhysMem.writeByte_frame_ne _ (by rwa [hframe])]

theorem length_pageBytes (data : Image) (i : ℕ) : (pageBytes data i).length ≤ 4096 := by
  rw [pageBytes, List.length_take]
  exact Nat.min_le_left _ _

theorem fillCode_fills {bytes : List (BitVec 8)} (hlen : bytes.length ≤ 4096) :
    FillsFrame (fillCode bytes) := by
  intro mem f g hf hg
  have hcopy := copyTo_frame_ne hf hg bytes (mem.setFrame f fun _ => 0#64) (k := 0) (by omega)
  rw [Nat.add_zero] at hcopy
  rw [fillCode, hcopy, PhysMem.setFrame_ne _ hg]

theorem fillStack_fills : FillsFrame (fun mem _ => mem) := fun _ _ _ _ _ => rfl

theorem publishPage_built (hp : p.Physical) (hfill : FillsFrame fill) (hlow : userCodeAddr ≤ v)
    (hv : v < 2 ^ 39) (h : Built p (SpaceOk H Lo) m₁ r ∅ m) :
    Spec (publishPage p r fill v) m (fun _ m' => Built p (SpaceOk H Lo) m₁ r ∅ m')
      (fun _ m' => Restored p m₁ m') := by
  refine Spec.read_bind (Spec.ite (fun hnull => ?_) fun hsome => ?_)
  · rw [mach_alloc_null hp hnull]
    exact Spec.write_bind (abandon_restored h)
  · have htake := PmmAllocator.taken_alloc hp.toValid hsome
    have hframe := isFrame_of_free hp (htake.sub rfl)
    obtain ⟨hb, hE⟩ := h.alloc htake
    dsimp only
    generalize (p.alloc m.bitmap).2 = f at *
    generalize (p.alloc m.bitmap).1 = bm at *
    have hmem : m.mem.setFrame f (fill m.mem f f) = fill m.mem f := by
      funext g
      by_cases hg : g = f
      · rw [hg, PhysMem.setFrame_same]
      · rw [PhysMem.setFrame_ne _ hg, hfill m.mem f g hframe.1 hg]
    have hb' := hb.fillExtra (Set.mem_insert f ∅) (fill m.mem f f)
    dsimp only at hb'
    rw [hmem] at hb'
    obtain ⟨m', b, hrun, -, hyes, hno⟩ := tryMap4k_built hp hb' hE hframe hlow hv
    rw [hrun]
    cases b with
    | true => exact Spec.write (hyes rfl).1
    | false => exact Spec.write_bind (abandon_restored ((hno rfl).release hE))

theorem mapCodePage_built (hp : p.Physical) (failAfter : Option ℕ) {i : ℕ}
    (hi : userCodeAddr + i * 0x1000 < flatUserLimit) (h : Built p (SpaceOk H Lo) m₁ r ∅ m) :
    Spec (mapCodePage p r data failAfter i) m (fun _ m' => Built p (SpaceOk H Lo) m₁ r ∅ m')
      (fun _ m' => Restored p m₁ m') := by
  have hlow : userCodeAddr ≤ userCodeAddr + i * 0x1000 := Nat.le_add_right _ _
  have hv : userCodeAddr + i * 0x1000 < 2 ^ 39 := by
    simp only [flatUserLimit, brkStart] at hi
    omega
  have hpage := publishPage_built hp (fillCode_fills (length_pageBytes data i)) hlow hv h
  refine Spec.ite (fun _ => abandon_restored h) fun _ => hpage.bind fun _ m' h' => ?_
  split
  · exact Spec.ret h'
  · exact abandon_restored h'

theorem fillFlat_built (hp : p.Physical) (failAfter : Option ℕ) {pages stackAddr stackEnd : ℕ}
    (hlayout : flatLayout data.length = .ok (pages, stackAddr, stackEnd))
    (h : Built p (SpaceOk H Lo) m₁ r ∅ m) :
    Spec (fillFlat p r data failAfter pages stackAddr) m
      (fun _ m' => Built p (SpaceOk H Lo) m₁ r ∅ m') (fun _ m' => Restored p m₁ m') := by
  obtain ⟨-, -, -, hstack, hend, hlimit⟩ := flatLayout_ok hlayout
  refine Spec.bind (Spec.forM (I := fun _ m => Built p (SpaceOk H Lo) m₁ r ∅ m) h ?_) fun _ m h => ?_
  · intro done i rest hl m h
    have hi : i < pages := by
      rw [← List.mem_range, hl]
      simp
    exact mapCodePage_built hp failAfter (by omega) h
  · refine Spec.ite (fun _ => abandon_restored h) fun _ => ?_
    simp only [flatUserLimit, brkStart] at hlimit
    exact publishPage_built hp fillStack_fills (by omega) (by omega) h

/-- **Building a flat image**: a process root, or everything as before. -/
theorem buildFlatImage_spec (hp : p.Physical) (hwf : WellFormed p m) (hm : ParentOk H Lo false m)
    (data : Image) (failAfter : Option ℕ) :
    ∃ m' res, buildFlatImageInner p data failAfter m = some (m', res) ∧
      (∀ e, res = .error e → Restored p m m') ∧
      ∀ image, res = .ok image → Built p (SpaceOk H Lo) m image.root ∅ m' := by
  unfold buildFlatImageInner
  cases hlayout : flatLayout data.length with
  | error e => exact ⟨m, _, rfl, fun _ _ => ⟨rfl, rfl, fun _ _ => rfl⟩, nofun⟩
  | ok layout =>
    obtain ⟨pages, stackAddr, stackEnd⟩ := layout
    obtain ⟨m₁, res, hcreate, hcreated⟩ := createPml4Inner_spec false none hp hwf
    simp only [createPml4, hcreate]
    cases res with
    | none =>
      exact ⟨m₁, _, rfl, fun _ _ => ⟨hcreated.cr3, hcreated.failed rfl, hcreated.used⟩, nofun⟩
    | some root =>
      have hspec := fillFlat_built hp failAfter hlayout (hcreated.built hm)
      unfold Spec at hspec
      dsimp only
      cases hrun : fillFlat p root data failAfter pages stackAddr m₁ with
      | error e m' =>
        rw [hrun] at hspec
        exact ⟨m', _, rfl, fun _ _ => hspec, nofun⟩
      | ok _ m' =>
        rw [hrun] at hspec
        refine ⟨m', _, rfl, nofun, ?_⟩
        rintro image ⟨⟩
        exact hspec

end Built

end Vibix.Kernel
