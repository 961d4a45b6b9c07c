import Vibix.Kernel.Image

/-! # What a flat image contains

`build_flat_image` clears a frame for each code page, copies the bytes of the file to it and maps
it; one more page becomes the stack.  `Filled` is what a series of such steps has done: each page
has a frame of its own, which was free before and now shows the wanted bytes.  The loop over the
code pages keeps it (`mapCodePage_filled`, `fillFlat_filled`).

The result is `buildFlatImage_correct`: the call never faults; if it fails, the bitmap and all
memory that was in use are as before; if it succeeds, the address space is the one of `FlatCorrect`;
and a file that does not fit below `BRK_START` is refused with nothing touched at all. -/

namespace Vibix.Kernel

open Paging Proc Elf FrameTree

/-- The frame `f` was free and has been mapped at `v`, where there was nothing. -/
structure Placed (p : PmmAllocator) (root v f : ℕ) (m m' : Mach) : Prop where
  pop : Populated p root {v} m m'
  frame : f ∈ p.freeFrames m.bitmap
  leaf : leafEntry m'.mem root v = mkEntry f pageUserRw
  used : f ∉ p.freeFrames m'.bitmap
  notTable : f ∉ tables m'.mem root

/-- The pages `V` were mapped, where there was nothing, each to a frame of its own, which was free.
`want` is the byte at each address, if it matters. -/
structure Filled (p : PmmAllocator) (root : ℕ) (want : ℕ → Option (BitVec 8)) (V : Set ℕ)
    (m m' : Mach) : Prop where
  pop : Populated p root V m m'
  page : ∀ v ∈ V, ∃ f ∈ p.freeFrames m.bitmap, leafEntry m'.mem root v = mkEntry f pageUserRw ∧
    f ∉ p.freeFrames m'.bitmap ∧ f ∉ tables m'.mem root ∧
    ∀ k < 4096, ∀ b ∈ want (v + k), m'.mem.readByte (f + k) = b
  distinct : ∀ v ∈ V, ∀ w ∈ V, leafEntry m'.mem root v = leafEntry m'.mem root w → v = w

section

variable {p : PmmAllocator} {m m₀ m' : Mach} {r v f : ℕ} {V : Set ℕ} {data : Image}
  {want : ℕ → Option (BitVec 8)}

/-! ### One more page -/

theorem Filled.refl (h : ProcessSpace p m r) : Filled p r want ∅ m m := ⟨.refl h, nofun, nofun⟩

/-- Pages that are mapped keep their frames and what is in them. -/
theorem Filled.place (hp : p.Physical) (h : Filled p r want V m₀ m) (h' : Placed p r v f m m')
    (hbytes : ∀ k < 4096, ∀ b ∈ want (v + k), m'.mem.readByte (f + k) = b) :
    Filled p r want (V ∪ {v}) m₀ m' := by
  have hk := h'.pop.ext.kept
  -- the leaf of an earlier page is the one it had
  have hleaf : ∀ w ∈ V, leafEntry m'.mem r w = leafEntry m.mem r w := by
    intro w hw
    obtain ⟨g, hfree, hentry, -⟩ := h.page w hw
    refine h'.pop.ext.others w fun u hu _ hsame => ?_
    have hnone := (h'.pop.fresh u hu).2.1
    rw [← leafEntry_samePage hsame, hentry, present_mkEntry (isFrame_of_free hp hfree),
      present_pageUserRw] at hnone
    cases hnone
  -- and the new frame is not one of theirs
  have hapart : ∀ w ∈ V, leafEntry m'.mem r w ≠ leafEntry m'.mem r v := by
    intro w hw heq
    obtain ⟨g, hfree, hentry, hused, -⟩ := h.page w hw
    rw [hleaf w hw, hentry, h'.leaf] at heq
    have hfree' := h.pop.ext.kept.free h'.frame
    have hgf := mkEntry_inj (isFrame_of_free hp hfree) (isFrame_of_free hp hfree') heq
    exact hused (hgf ▸ h'.frame)
  refine ⟨h.pop.trans hp h'.pop, ?_, ?_⟩
  · rintro w (hw | rfl)
    · obtain ⟨g, hfree, hentry, hused, htab, hread⟩ := h.page w hw
      refine ⟨g, hfree, (hleaf w hw).trans hentry, fun hc => hused (hk.free hc),
        fun hc => (hk.table_cases g hc).elim htab hused, fun k hlt b hb => ?_⟩
      have hframe : PhysMem.frameOf (g + k) = g :=
        PhysMem.frameOf_add (isFrame_of_free hp hfree).1 hlt
      rw [← hread k hlt b hb]
      exact PhysMem.readByte_congr (by rw [hframe, hk.other g htab hused])
    · exact ⟨f, h.pop.ext.kept.free h'.frame, h'.leaf, h'.used, h'.notTable, hbytes⟩
  · rintro w (hw | rfl) u (hu | rfl) heq
    · rw [hleaf w hw, hleaf u hu] at heq
      exact h.distinct w hw u hu heq
    · exact absurd heq (hapart w hw)
    · exact absurd heq.symm (hapart u hu)
    · rfl

/-- A page of a flat image. -/
theorem publishPage_placed {fill : PhysMem → ℕ → PhysMem} (hp : p.Physical)
    (hfill : FillsFrame fill) (hs : ProcessSpace p m r) :
    Spec (publishPage p r fill v) m
      (fun _ m' => ∃ f, Placed p r v f m m' ∧ m'.mem f = fill m.mem f f) (fun _ _ => True) := by
  refine Spec.read_bind (Spec.ite (fun _ => Spec.write_bind (abandon_spec fun _ => trivial))
    fun hsome => ?_)
  have hframe := isFrame_of_free hp (PmmAllocator.taken_alloc hp.toValid hsome |>.sub rfl)
  have hf := fetched_of_alloc hp hsome fun g hg => hfill m.mem _ g hframe.1 hg
  dsimp only
  split
  · exact Spec.write_bind (abandon_spec fun _ => trivial)
  next m' hrun =>
    obtain ⟨hpop, hleaf, hused, htab, hmem⟩ := tryMap4k_populated hp hf hs hrun
    exact Spec.write ⟨_, ⟨hpop, hf.frame, hleaf, hused, htab⟩, hmem⟩

/-! ### The bytes of a code page -/

theorem readByte_copyTo (bytes : List (BitVec 8)) (mem : PhysMem) (a c : ℕ) :
    (copyTo mem a bytes).readByte c =
      if a ≤ c then (bytes[c - a]?).getD (mem.readByte c) else mem.readByte c := by
  induction bytes generalizing mem a with
  | nil => simp [copyTo]
  | cons b bytes ih =>
    rw [copyTo, ih, PhysMem.readByte_writeByte]
    rcases Nat.lt_trichotomy a c with hlt | rfl | hgt
    · rw [if_pos (show a + 1 ≤ c by omega), if_pos (Nat.le_of_lt hlt), if_neg (by omega),
        show c - a = c - (a + 1) + 1 by omega, List.getElem?_cons_succ]
    · simp
    · rw [if_neg (by omega), if_neg (by omega), if_neg (by omega)]

/-- A code page shows its bytes, and zeros behind them. -/
theorem readByte_fillCode (bytes : List (BitVec 8)) (mem : PhysMem) {k : ℕ} (hf : f % 4096 = 0)
    (hk : k < 4096) : (fillCode bytes mem f).readByte (f + k) = (bytes[k]?).getD 0#8 := by
  have hzero : (mem.setFrame f fun _ => 0#64).readByte (f + k) = 0#8 := by
    refine PhysMem.readByte_zero ?_
    rw [PhysMem.frameOf_add hf hk, PhysMem.setFrame_same]
  rw [fillCode, readByte_copyTo, if_pos (Nat.le_add_right f k), hzero, Nat.add_sub_cancel_left]

theorem getElem?_pageBytes (data : Image) (i : ℕ) {k : ℕ} (hk : k < 4096) :
    (pageBytes data i)[k]? = data[i * 0x1000 + k]? := by
  rw [pageBytes, List.getElem?_take_of_lt hk, List.getElem?_drop]

/-- The bytes of a flat image whose stack begins at `stackAddr`: the file, and zeros behind it. -/
def flatByte (data : Image) (stackAddr a : ℕ) : Option (BitVec 8) :=
  if a < stackAddr then some ((data[a - userCodeAddr]?).getD 0#8) else none

/-- A code page that was placed shows its part of the file. -/
theorem Filled.placeCode {stackAddr i : ℕ} (hp : p.Physical)
    (h : Filled p r (flatByte data stackAddr) V m₀ m)
    (h' : Placed p r (userCodeAddr + i * 0x1000) f m m')
    (hmem : m'.mem f = fillCode (pageBytes data i) m.mem f f) :
    Filled p r (flatByte data stackAddr) (V ∪ {userCodeAddr + i * 0x1000}) m₀ m' := by
  have hframe := isFrame_of_free hp h'.frame
  refine h.place hp h' fun k hk b hb => ?_
  have hread : m'.mem.readByte (f + k) =
      (fillCode (pageBytes data i) m.mem f).readByte (f + k) :=
    PhysMem.readByte_congr (by rw [PhysMem.frameOf_add hframe.1 hk, hmem])
  rw [hread, readByte_fillCode _ _ hframe.1 hk, getElem?_pageBytes data i hk]
  unfold flatByte at hb
  split at hb
  · rw [show userCodeAddr + i * 0x1000 + k - userCodeAddr = i * 0x1000 + k by omega] at hb
    exact Option.some.inj hb
  · cases hb

theorem mapCodePage_filled {stackAddr i : ℕ} (hp : p.Physical) (failAfter : Option ℕ)
    (h : Filled p r (flatByte data stackAddr) V m₀ m) :
    Spec (mapCodePage p r data failAfter i) m
      (fun _ m' => Filled p r (flatByte data stackAddr) (V ∪ {userCodeAddr + i * 0x1000}) m₀ m')
      (fun _ _ => True) := by
  have hpage := publishPage_placed (v := userCodeAddr + i * 0x1000) hp
    (fillCode_fills (length_pageBytes data i)) h.pop.ext.space
  have hfilled := hpage.mono (fun _ m' ⟨f, hplaced, hmem⟩ => h.placeCode hp hplaced hmem)
    fun _ _ _ => trivial
  refine Spec.ite (fun _ => abandon_spec fun _ => trivial) fun _ => hfilled.bind fun _ m' h' => ?_
  split
  · exact Spec.ret h'
  · exact abandon_spec fun _ => trivial

/-- The pages of a flat image with `pages` code pages. -/
def layoutPages (pages stackAddr : ℕ) : Set ℕ :=
  {v | (∃ i < pages, v = userCodeAddr + i * 0x1000) ∨ v = stackAddr}

theorem fillFlat_filled (hp : p.Physical) (hs : ProcessSpace p m r) (data : Image)
    (failAfter : Option ℕ) (pages stackAddr : ℕ) :
    Spec (fillFlat p r data failAfter pages stackAddr) m
      (fun _ m' => Filled p r (flatByte data stackAddr) (layoutPages pages stackAddr) m m')
      (fun _ _ => True) := by
  refine Spec.bind (Spec.forM (I := fun done m' => Filled p r (flatByte data stackAddr)
    {v | ∃ i ∈ done, v = userCodeAddr + i * 0x1000} m m')
    (by simpa using Filled.refl hs) fun done i rest _ m' h' => ?_) fun _ m' h' => ?_
  · refine (mapCodePage_filled hp failAfter h').mono (fun _ m'' h'' => ?_) fun _ _ _ => trivial
    convert h'' using 1
    ext v
    simp only [Set.mem_union, Set.mem_ofPred_eq, List.mem_append, List.mem_singleton,
      Set.mem_singleton_iff, or_and_right, exists_or, exists_eq_left]
  · refine Spec.ite (fun _ => abandon_spec fun _ => trivial) fun _ => ?_
    refine (publishPage_placed hp fillStack_fills h'.pop.ext.space).mono (fun _ m'' h'' => ?_)
      fun _ _ _ => trivial
    obtain ⟨f, hplaced, -⟩ := h''
    have hbytes : ∀ k < 4096, ∀ b ∈ flatByte data stackAddr (stackAddr + k),
        m''.mem.readByte (f + k) = b := by
      intro k _ b hb
      unfold flatByte at hb
      rw [if_neg (by omega)] at hb
      cases hb
    convert h'.place hp hplaced hbytes using 1
    ext v
    simp only [layoutPages, List.mem_range, Set.mem_union, Set.mem_ofPred_eq,
      Set.mem_singleton_iff]

/-! ### Whole images -/

/-- The address space of a flat image.  Page `codePages data.length` is the stack. -/
structure FlatCorrect (data : Image) (m : Mach) (image : FlatImage) : Prop where
  stackLow : image.stackLow = userCodeAddr + codePages data.length * 0x1000
  userRsp : image.userRsp = image.stackLow + 0x1000
  limit : image.userRsp ≤ brkStart
  code : ∀ i < codePages data.length, ∃ f, IsFrame f ∧
    userLeaf m.mem image.root (userCodeAddr + i * 0x1000) = some (mkEntry f pageUserRw) ∧
    ∀ k < 4096, m.mem.readByte (f + k) = (data[i * 0x1000 + k]?).getD 0#8
  stack : ∃ f, IsFrame f ∧ userLeaf m.mem image.root image.stackLow = some (mkEntry f pageUserRw)
  distinct : ∀ i ≤ codePages data.length, ∀ j ≤ codePages data.length,
    userLeaf m.mem image.root (userCodeAddr + i * 0x1000) =
      userLeaf m.mem image.root (userCodeAddr + j * 0x1000) → i = j

/-- A page that was mapped is a user page. -/
theorem Filled.userLeaf (hp : p.Physical) (h : Filled p r want V m m') (hv : v ∈ V) :
    Paging.userLeaf m'.mem r v = some (leafEntry m'.mem r v) := by
  have hs := h.pop.ext.space
  obtain ⟨f, hfree, hleaf, -⟩ := h.page v hv
  have hframe := isFrame_of_free hp hfree
  rw [userLeaf_view hs.noGiant hs.userTables, if_pos]
  rw [hleaf, isUserLeaf_eq_true, present_mkEntry hframe, user_mkEntry hframe]
  exact ⟨present_pageUserRw, user_pageUserRw⟩

theorem flatCorrect_of_filled {pages stackAddr stackEnd : ℕ} (hp : p.Physical)
    (hlayout : flatLayout data.length = .ok (pages, stackAddr, stackEnd))
    (h : Filled p r (flatByte data stackAddr) (layoutPages pages stackAddr) m m') :
    FlatCorrect data m' ⟨r, stackEnd, stackAddr⟩ := by
  obtain ⟨-, rfl, hstack, hend, hlimit⟩ := flatLayout_eq_ok hlayout
  have hcode : ∀ i < codePages data.length,
      userCodeAddr + i * 0x1000 ∈ layoutPages (codePages data.length) stackAddr :=
    fun i hi => .inl ⟨i, hi, rfl⟩
  have hpage : ∀ i ≤ codePages data.length,
      userCodeAddr + i * 0x1000 ∈ layoutPages (codePages data.length) stackAddr := by
    intro i hi
    rcases Nat.lt_or_eq_of_le hi with hlt | rfl
    · exact hcode i hlt
    · exact .inr hstack.symm
  refine ⟨hstack, hend, hlimit, fun i hi => ?_, ?_, fun i hi j hj heq => ?_⟩
  · obtain ⟨f, hfree, hleaf, -, -, hbytes⟩ := h.page _ (hcode i hi)
    refine ⟨f, isFrame_of_free hp hfree, by rw [h.userLeaf hp (hcode i hi), hleaf], ?_⟩
    intro k hk
    refine hbytes k hk _ ?_
    unfold flatByte
    rw [if_pos (by omega), show userCodeAddr + i * 0x1000 + k - userCodeAddr = i * 0x1000 + k by omega]
    rfl
  · obtain ⟨f, hfree, hleaf, -⟩ := h.page stackAddr (.inr rfl)
    exact ⟨f, isFrame_of_free hp hfree, by rw [h.userLeaf hp (.inr rfl), hleaf]⟩
  · rw [h.userLeaf hp (hpage i hi), h.userLeaf hp (hpage j hj)] at heq
    have hsame := h.distinct _ (hpage i hi) _ (hpage j hj) (Option.some.inj heq)
    omega

/-- A file that does not fit has no layout. -/
theorem flatLayout_too_large {size : ℕ}
    (h : brkStart < userCodeAddr + codePages size * 0x1000 + 0x1000) :
    ∃ e, flatLayout size = .error e := by
  cases hlayout : flatLayout size with
  | error e => exact ⟨e, rfl⟩
  | ok layout =>
    obtain ⟨pages, stackAddr, stackEnd⟩ := layout
    obtain ⟨-, rfl, rfl, rfl, hlimit⟩ := flatLayout_eq_ok hlayout
    exact absurd hlimit (Nat.not_le.mpr h)

/-- **Flat images**: the call returns; on failure the bitmap, the active root and everything else
that was in use are as before; on success the address space is that of the file; and a file that
does not fit below `BRK_START` is refused with the machine untouched. -/
theorem buildFlatImage_correct (hp : p.Physical) (hs : ProcessSpace p m m.cr3) (data : Image) :
    ∃ m' res, buildFlatImage p data m = some (m', res) ∧
      (∀ e, res = .error e → m'.bitmap = m.bitmap ∧ m'.cr3 = m.cr3 ∧
        (∀ f ∈ tables m.mem m.cr3, m'.mem f = m.mem f) ∧ Restored p m m') ∧
      (∀ image, res = .ok image → FlatCorrect data m' image) ∧
      (brkStart < userCodeAddr + codePages data.length * 0x1000 + 0x1000 →
        m' = m ∧ ∃ e, res = .error e) := by
  obtain ⟨m', res, hrun, hfail, -⟩ := buildFlatImage_spec hp hs.ok
    (parentOk_of_noGiant hs.ok hs.noGiant) data none
  refine ⟨m', res, hrun, fun e he => ?_, ?_, fun hlarge => ?_⟩
  · have hback := hfail e he
    exact ⟨hback.bitmap, hback.cr3, fun f hf => hback.used f (hs.ok.used f hf), hback⟩
  · rintro image rfl
    unfold buildFlatImageInner at hrun
    split at hrun
    · cases hrun
    next pages stackAddr stackEnd hlayout =>
      obtain ⟨m₁, created, hcreate, hcreated⟩ := createPml4Inner_spec false none hp hs.ok
      simp only [createPml4, hcreate] at hrun
      cases created with
      | none => cases hrun
      | some root =>
        have hspec := fillFlat_filled hp (hcreated.space hs) data none pages stackAddr
        unfold Spec at hspec
        cases hfill : fillFlat p root data none pages stackAddr m₁ with
        | error e m₂ =>
          simp only [hfill] at hrun
          cases hrun
        | ok _ m₂ =>
          simp only [hfill] at hrun hspec
          cases hrun
          exact flatCorrect_of_filled hp hlayout hspec
  · obtain ⟨e, hlayout⟩ := flatLayout_too_large hlarge
    unfold buildFlatImageInner at hrun
    rw [hlayout] at hrun
    cases hrun
    exact ⟨rfl, e, rfl⟩

theorem buildFlatImage_correct_boot :
    (buildFlatImage bootPmm [0x90#8] bootMach).any (fun r => r.2.isOk) = true ∧
      ∃ m' res, buildFlatImage bootPmm [0x90#8] bootMach = some (m', res) ∧
        (∀ e, res = .error e → m'.bitmap = bootMach.bitmap ∧ m'.cr3 = bootMach.cr3 ∧
          (∀ f ∈ tables bootMach.mem bootMach.cr3, m'.mem f = bootMach.mem f) ∧
            Restored bootPmm bootMach m') ∧
        (∀ image, res = .ok image → FlatCorrect [0x90#8] m' image) ∧
        (brkStart < userCodeAddr + codePages 1 * 0x1000 + 0x1000 →
          m' = bootMach ∧ ∃ e, res = .error e) :=
  ⟨by decide +kernel, buildFlatImage_correct bootPmm_physical bootMach_space [0x90#8]⟩

end

end Vibix.Kernel
