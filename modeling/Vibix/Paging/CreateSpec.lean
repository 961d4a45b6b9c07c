import Vibix.Paging.Built

/-! # What `create_pml4` constructs

`RootCopied` describes the constructed root entry by entry: `PteCopied`, `PdeCopied` and
`PdpteCopied` say for each level which entries are shared, cloned, dropped or rebuilt.  The loops
establish these descriptions (`cloneLeaf_spec`, `copyPde_spec`, `copyPdpte_spec`, `fillPml4_spec`),
each with the rule for filling a table, and `createPml4Inner_spec` puts them together with the
provisioning of the scratch mapping, its cleanup and the rollback:

* construction never faults;
* if it fails, the bitmap and the active root are as before;
* if it succeeds, exactly the frames owned by the new root were taken. -/

namespace Vibix.Paging

open FrameTree

/-- What the loops rely on: a well-formed active root and, when user pages are copied, the scratch
PT `l1` with its leaf unused. -/
structure Source (p : PmmAllocator) (m₁ : Mach) (copyUser : Bool) (l1 : ℕ) : Prop where
  phys : p.Physical
  wf : WellFormed p m₁
  scratch : copyUser = true → huge (m₁.mem m₁.cr3 0) = false ∧
    frameAt tableOf m₁.mem m₁.cr3 [0, scratchIndex, 0] = some l1 ∧ m₁.mem l1 0 = 0#64

/-! ### Descriptions of the copied entries -/

section Descriptions

variable (p : PmmAllocator) (m₁ : Mach) (copyUser : Bool)

/-- A PT entry: user leaves are cloned with their flags, everything else is shared. -/
inductive PteCopied (D : Set ℕ) (mem : PhysMem) (src : BitVec 64) : BitVec 64 → Prop
  | shared : isUserLeaf src = false → PteCopied D mem src src
  | cloned {child : ℕ} : isUserLeaf src = true → IsFrame child → child ∈ D →
      (entryAddr src ∉ p.freeFrames m₁.bitmap → entryAddr src ∉ tables m₁.mem m₁.cr3 →
        mem child = m₁.mem (entryAddr src)) →
      PteCopied D mem src (mkEntry child (src &&& ~~~addrMask))

/-- A PD entry: shared below `USER_CODE_ADDR`; from there on dropped, or with a PT of its own when
user pages are copied. -/
inductive PdeCopied (i j : Fin 512) (D : Set ℕ) (mem : PhysMem) (src : BitVec 64) :
    BitVec 64 → Prop
  | absent : present src = false → PdeCopied i j D mem src 0#64
  | dropped : userCodeAddr ≤ pdVaddr i j → copyUser = false → PdeCopied i j D mem src 0#64
  | shared : pdVaddr i j < userCodeAddr → PdeCopied i j D mem src src
  | kernelHuge : userCodeAddr ≤ pdVaddr i j → copyUser = true → huge src = true →
      user src = false → PdeCopied i j D mem src src
  | cloned {pt : ℕ} : userCodeAddr ≤ pdVaddr i j → copyUser = true → isTable src = true →
      IsFrame pt → pt ∈ D →
      (∀ k, PteCopied p m₁ D mem (m₁.mem (entryAddr src) k) (mem pt k)) →
      PdeCopied i j D mem src (mkEntry pt (src &&& ~~~addrMask))

/-- A PDPT entry: the scratch GiB is left out, 1 GiB pages are shared, and every table gets a PD of
its own. -/
inductive PdpteCopied (i : Fin 512) (D : Set ℕ) (mem : PhysMem) (src : BitVec 64) :
    BitVec 64 → Prop
  | absent : present src = false → PdpteCopied i D mem src 0#64
  | scratch : i = scratchIndex → PdpteCopied i D mem src 0#64
  | dropped : i ≠ 0 → copyUser = false → PdpteCopied i D mem src 0#64
  | hugePage : i ≠ scratchIndex → huge src = true → (copyUser = true → user src = false) →
      PdpteCopied i D mem src (freshHuge src)
  | table {pd : ℕ} : i ≠ scratchIndex → isTable src = true → IsFrame pd → pd ∈ D →
      (∀ j, PdeCopied p m₁ copyUser i j D mem (m₁.mem (entryAddr src) j) (mem pd j)) →
      PdpteCopied i D mem src (mkEntry pd (tableFlags src))

/-- The first root entry, if the active root has one. -/
inductive FirstCopied (D : Set ℕ) (mem : PhysMem) (src : BitVec 64) : BitVec 64 → Prop
  | absent : present src = false → FirstCopied D mem src 0#64
  | table {pdpt : ℕ} : present src = true → IsFrame pdpt → pdpt ∈ D →
      (∀ i, PdpteCopied p m₁ copyUser i D mem (m₁.mem (entryAddr src) i) (mem pdpt i)) →
      FirstCopied D mem src (mkEntry pdpt (tableFlags src))

/-- The constructed root: entries from 1 on are shared. -/
structure RootCopied (mem : PhysMem) (r : ℕ) : Prop where
  first : FirstCopied p m₁ copyUser (below ownedBy mem r []) mem (m₁.mem m₁.cr3 0) (mem r 0)
  kernel : ∀ x, x ≠ 0 → mem r x = m₁.mem m₁.cr3 x

end Descriptions

section Stability

variable {p : PmmAllocator} {m₁ : Mach} {copyUser : Bool} {i j : Fin 512}
  {D D' : Set ℕ} {mem mem' : PhysMem} {src e : BitVec 64}

theorem PteCopied.congr (hD : D ⊆ D') (hmem : ∀ f ∈ D, mem' f = mem f)
    (h : PteCopied p m₁ D mem src e) : PteCopied p m₁ D' mem' src e := by
  cases h with
  | shared h => exact .shared h
  | cloned hleaf hframe hin hcopy =>
    refine .cloned hleaf hframe (hD hin) ?_
    rw [hmem _ hin]
    exact hcopy

theorem PdeCopied.congr (hD : D ⊆ D') (hmem : ∀ f ∈ D, mem' f = mem f)
    (h : PdeCopied p m₁ copyUser i j D mem src e) :
    PdeCopied p m₁ copyUser i j D' mem' src e := by
  cases h with
  | absent h => exact .absent h
  | dropped hv h => exact .dropped hv h
  | shared h => exact .shared h
  | kernelHuge hv hc hh hu => exact .kernelHuge hv hc hh hu
  | cloned hv hc htab hframe hin hpt =>
    refine .cloned hv hc htab hframe (hD hin) ?_
    rw [hmem _ hin]
    exact fun k => (hpt k).congr hD hmem

theorem PdpteCopied.congr (hD : D ⊆ D') (hmem : ∀ f ∈ D, mem' f = mem f)
    (h : PdpteCopied p m₁ copyUser i D mem src e) :
    PdpteCopied p m₁ copyUser i D' mem' src e := by
  cases h with
  | absent h => exact .absent h
  | scratch h => exact .scratch h
  | dropped hi h => exact .dropped hi h
  | hugePage hi hh hu => exact .hugePage hi hh hu
  | table hi htab hframe hin hpd =>
    refine .table hi htab hframe (hD hin) ?_
    rw [hmem _ hin]
    exact fun j => (hpd j).congr hD hmem

end Stability

section Loops

variable {p : PmmAllocator} {m₁ : Mach} {l1 r srcPt newPt : ℕ} {copyUser : Bool}
  {failAfter : Option ℕ} {i j k : Fin 512} {s : CloneState}

/-! ### The loops -/

/-- Copying a user page in a state of the construction: only the fresh child is written. -/
theorem Built.copyThroughScratch {m : Mach} {bm : Bitmap} {child : ℕ} (hs : Source p m₁ true l1)
    (h : Built p NotUserHuge m₁ r ∅ m) (htake : p.Taken m.bitmap {child} bm)
    (hsrc : frameAt tableOf m₁.mem m₁.cr3 [j, i, 0] = some srcPt) (hi : i ≠ scratchIndex)
    (hpr : present (m₁.mem srcPt k) = true) :
    ∃ w, copyUserPageThroughScratch { m with bitmap := bm } (pdVaddr i j + k * 0x1000) child =
        some ({ m with mem := m.mem.setFrame child w, bitmap := bm }, true) ∧
      (entryAddr (m₁.mem srcPt k) ≠ l1 → w = m.mem (entryAddr (m₁.mem srcPt k))) := by
  obtain ⟨hhuge, hscr, hleaf⟩ := hs.scratch rfl
  have hfree : child ∈ p.freeFrames m.bitmap := htake.sub rfl
  have hwf := h.wf hs.wf
  have hpte : m.mem srcPt = m₁.mem srcPt := h.active hs.wf ⟨_, hsrc⟩
  have hroot : m.mem m.cr3 = m₁.mem m₁.cr3 := by
    rw [h.cr3]
    exact h.active hs.wf root_mem_footprint
  have hcopy := copyThroughScratch_spec (p := p) (m := { m with bitmap := bm })
    (hwf.congr rfl (fun _ _ => rfl) fun _ => htake.not_free_of_not_free)
    (by simpa only [hroot] using hhuge)
    (show frameAt tableOf m.mem m.cr3 _ = some l1 by rw [h.frameAt_active hs.wf, hscr])
    (by simpa only [h.active hs.wf ⟨_, hscr⟩] using hleaf)
    (show frameAt tableOf m.mem m.cr3 _ = some srcPt by rw [h.frameAt_active hs.wf, hsrc]) hi
    (show present (m.mem srcPt k) = true by rw [hpte, hpr]) (isFrame_of_free hs.phys hfree)
    (fun hmem => hwf.used child hmem hfree)
  simpa only [hpte] using hcopy

theorem ownedBy_leaf_none {e : BitVec 64} (h : isUserLeaf e = false) :
    ownedBy [j, i, 0] k e = none := by
  rw [isUserLeaf] at h
  simp only [ownedBy, h, Bool.false_eq_true, ↓reduceIte]

theorem ownedBy_clone {child : ℕ} {e : BitVec 64} (hf : IsFrame child)
    (h : isUserLeaf e = true) :
    ownedBy [j, i, 0] k (mkEntry child (e &&& ~~~addrMask)) = some child := by
  rw [isUserLeaf_eq_true] at h
  simp [ownedBy, present_mkEntry hf, user_mkEntry hf, present_compl, user_compl, h.1, h.2,
    entryAddr_mkEntry hf (noAddr_compl e)]

/-- **One PT entry.** -/
theorem cloneLeaf_spec (hs : Source p m₁ true l1)
    (hsrc : frameAt tableOf m₁.mem m₁.cr3 [j, i, 0] = some srcPt) (hi : i ≠ scratchIndex)
    (h : Built p NotUserHuge m₁ r ∅ s.1) (hq : frameAt ownedBy s.1.mem r [j, i, 0] = some newPt)
    (hzero : s.1.mem newPt k = 0#64) :
    Filled p m₁ r newPt k s (cloneLeaf p failAfter srcPt newPt (pdVaddr i j) k s)
      fun m' => PteCopied p m₁ (below ownedBy m'.mem r [j, i, 0]) m'.mem (m₁.mem srcPt k)
        (m'.mem newPt k) := by
  have hpte : s.1.mem srcPt k = m₁.mem srcPt k := by rw [h.active hs.wf ⟨_, hsrc⟩]
  have hnone : ownedBy [j, i, 0] k (s.1.mem newPt k) = none := by
    rw [hzero]
    exact ownedBy_zero _ k
  unfold cloneLeaf
  cases hleaf : isUserLeaf (m₁.mem srcPt k) with
  | false =>
    have hcond : (!present (m₁.mem srcPt k) || !user (m₁.mem srcPt k)) = true := by
      rw [isUserLeaf] at hleaf
      rw [← Bool.not_and, hleaf]
      rfl
    simp only [hpte, hcond, ↓reduceIte]
    refine Filled.write (h.write hq ?_ ?_).1 ?_
    · rw [hnone, ownedBy_leaf_none hleaf]
    · intro i' hpath
      simp at hpath
    · rw [write_entry]
      exact .shared hleaf
  | true =>
    obtain ⟨hpr, hu⟩ := isUserLeaf_eq_true.mp hleaf
    simp only [hpte, hpr, hu, Bool.not_true, Bool.or_self, Bool.false_eq_true, ↓reduceIte]
    by_cases hfail : failAfter = some s.2
    · simp only [hfail, ↓reduceIte]
      exact Filled.abandon h
    · by_cases hnull : (p.alloc s.1.bitmap).2 = 0
      · simp only [hfail, hnull, ↓reduceIte, mach_alloc_null hs.phys hnull]
        exact Filled.abandon h
      · have htake := PmmAllocator.taken_alloc hs.phys.toValid hnull
        have hframe : IsFrame (p.alloc s.1.bitmap).2 := isFrame_of_free hs.phys (htake.sub rfl)
        obtain ⟨w, hcopy, hw⟩ := h.copyThroughScratch hs htake hsrc hi hpr
        obtain ⟨hb, hpath, hsame, hnew, hentry⟩ :=
          h.publish (w := w) hq hnone htake (Or.inl rfl) (ownedBy_clone hframe hleaf)
            (fun i' hpath => by simp at hpath) (fun y i' hpath => by simp at hpath) rfl
        simp only [hfail, hnull, ↓reduceIte, hcopy]
        refine ⟨_, true, rfl, hb, hsame, fun _ => ?_⟩
        dsimp only
        rw [hentry]
        refine .cloned hleaf hframe (child_mem_below hpath) ?_
        intro hused htable
        refine hnew.trans ?_
        rw [hw fun heq => htable (heq ▸ ⟨_, (hs.scratch rfl).2.1⟩)]
        exact h.outside _ hused

theorem ownedBy_mkEntry_pt {pt : ℕ} {e : BitVec 64} (hv : userCodeAddr ≤ pdVaddr i j)
    (hf : IsFrame pt) (h : isTable e = true) :
    ownedBy [i, 0] j (mkEntry pt (e &&& ~~~addrMask)) = some pt := by
  rw [isTable_eq_true] at h
  simp [ownedBy, hv, present_mkEntry hf, huge_mkEntry hf, present_compl, huge_compl, h.1, h.2,
    entryAddr_mkEntry hf (noAddr_compl e)]

/-- **One PD entry.** -/
theorem copyPde_spec {srcPd newPd : ℕ} (hs : Source p m₁ copyUser l1)
    (hsrc : frameAt tableOf m₁.mem m₁.cr3 [i, 0] = some srcPd) (hi : i ≠ scratchIndex)
    (h : Built p NotUserHuge m₁ r ∅ s.1) (hq : frameAt ownedBy s.1.mem r [i, 0] = some newPd)
    (hzero : s.1.mem newPd j = 0#64) :
    Filled p m₁ r newPd j s (copyPde p copyUser failAfter i srcPd newPd j s)
      fun m' => PdeCopied p m₁ copyUser i j (below ownedBy m'.mem r [i, 0]) m'.mem
        (m₁.mem srcPd j) (m'.mem newPd j) := by
  have hpde : s.1.mem srcPd j = m₁.mem srcPd j := by rw [h.active hs.wf ⟨_, hsrc⟩]
  unfold copyPde
  simp only [hpde]
  set src := m₁.mem srcPd j with hsrcE
  -- entries that are written as they are: nothing is owned through them
  have hshare : (userCodeAddr ≤ pdVaddr i j →
        huge src = true ∧ user src = false ∧ copyUser = true) →
      Filled p m₁ r newPd j s (some ((s.1.write newPd j src, s.2), true))
        fun m' => PdeCopied p m₁ copyUser i j (below ownedBy m'.mem r [i, 0]) m'.mem src
          (m'.mem newPd j) := by
    intro hhigh
    refine Filled.write (h.write hq ?_ ?_).1 ?_
    · rw [hzero, ownedBy_zero]
      simp only [ownedBy]
      rw [if_neg]
      rintro ⟨hv, htab⟩
      rw [(hhigh hv).1] at htab
      simp at htab
    · intro i' hpath hv _ _
      obtain rfl : i = i' := by simpa using hpath
      exact (hhigh hv).2.1
    · rw [write_entry]
      by_cases hv : userCodeAddr ≤ pdVaddr i j
      · exact .kernelHuge hv (hhigh hv).2.2 (hhigh hv).1 (hhigh hv).2.1
      · exact .shared (Nat.not_le.mp hv)
  split
  next hpr =>
    refine Filled.skip h ?_
    rw [hzero]
    exact .absent (by simpa using hpr)
  next hpr =>
  split
  · exact Filled.abandon h
  split
  next hdrop =>
    simp only [Bool.and_eq_true, decide_eq_true_eq, Bool.not_eq_true'] at hdrop
    refine Filled.skip h ?_
    rw [hzero]
    exact .dropped hdrop.1 hdrop.2
  next hdrop =>
  split
  next hclone =>
    simp only [Bool.and_eq_true, decide_eq_true_eq, Bool.not_eq_true'] at hclone
    obtain ⟨⟨rfl, hv⟩, hhuge⟩ := hclone
    have htab : isTable src = true := isTable_eq_true.mpr ⟨by simpa using hpr, hhuge⟩
    have hsrcPt : frameAt tableOf m₁.mem m₁.cr3 [j, i, 0] = some (entryAddr src) := by
      rw [frameAt_cons_of hsrc, ← hsrcE]
      exact tableOf_of_isTable (by simp) htab
    have hpub := Filled.publish (src &&& ~~~addrMask)
      (fun new => cloneLeaf p failAfter (entryAddr src) new (pdVaddr i j))
      (fun D mem k e => PteCopied p m₁ D mem (m₁.mem (entryAddr src) k) e)
      (fun _ _ _ _ _ _ hD hmem hspec => hspec.congr hD hmem)
      (fun new k s hb hq hz => cloneLeaf_spec hs hsrcPt hi hb hq hz) hs.phys h hq hzero
      (fun new hf => ownedBy_mkEntry_pt hv hf htab) (by rw [huge_compl, hhuge])
    obtain ⟨s', b, hrun, hb, hsame, hspec⟩ := hpub
    refine ⟨s', b, hrun, hb, hsame, fun hbt => ?_⟩
    obtain ⟨pt, hentry, hframe, hin, hpt⟩ := hspec hbt
    rw [hentry]
    exact .cloned hv rfl htab hframe hin hpt
  next hclone =>
  split
  next hkernel =>
    simp only [Bool.and_eq_true, decide_eq_true_eq] at hkernel
    split
    · exact Filled.abandon h
    next huser => exact hshare fun _ => ⟨hkernel.2, by simpa using huser, hkernel.1.1⟩
  next hkernel =>
    refine hshare fun hv => ?_
    simp only [hv, decide_true, Bool.true_and, Bool.and_true] at hdrop hclone hkernel
    cases copyUser <;> simp_all

theorem overlapsKernelScratch_iff :
    overlapsKernelScratch (i * 2 ^ 30) (i * 2 ^ 30 + 2 ^ 30) = true ↔ i = scratchIndex := by
  have hone : (scratchIndex : Fin 512).val = 1 := rfl
  simp only [overlapsKernelScratch, Bool.and_eq_true, decide_eq_true_eq, Fin.ext_iff, hone]
  simp only [kernelScratchVa]
  omega

theorem ownedBy_mkEntry_pd {pd : ℕ} {e : BitVec 64} (hf : IsFrame pd) (h : present e = true) :
    ownedBy [0] i (mkEntry pd (tableFlags e)) = some pd := by
  simp [ownedBy, present_mkEntry hf, huge_mkEntry hf, present_tableFlags, huge_tableFlags, h,
    entryAddr_mkEntry hf (noAddr_tableFlags e)]

/-- **One PDPT entry.** -/
theorem copyPdpte_spec {srcPdpt newPdpt : ℕ} (hs : Source p m₁ copyUser l1)
    (hsrc : frameAt tableOf m₁.mem m₁.cr3 [0] = some srcPdpt)
    (h : Built p NotUserHuge m₁ r ∅ s.1) (hq : frameAt ownedBy s.1.mem r [0] = some newPdpt)
    (hzero : s.1.mem newPdpt i = 0#64) :
    Filled p m₁ r newPdpt i s (copyPdpte p copyUser failAfter srcPdpt newPdpt i s)
      fun m' => PdpteCopied p m₁ copyUser i (below ownedBy m'.mem r [0]) m'.mem
        (m₁.mem srcPdpt i) (m'.mem newPdpt i) := by
  have hpdpte : s.1.mem srcPdpt i = m₁.mem srcPdpt i := by rw [h.active hs.wf ⟨_, hsrc⟩]
  unfold copyPdpte
  simp only [hpdpte]
  set src := m₁.mem srcPdpt i with hsrcE
  split
  next hpr =>
    refine Filled.skip h ?_
    rw [hzero]
    exact .absent (by simpa using hpr)
  next hpr =>
  split
  next hscr =>
    refine Filled.skip h ?_
    rw [hzero]
    exact .scratch (overlapsKernelScratch_iff.mp hscr)
  next hscr =>
  have hi : i ≠ scratchIndex := fun heq => hscr (overlapsKernelScratch_iff.mpr heq)
  split
  next hhuge =>
    split
    · exact Filled.abandon h
    next hbad =>
    split
    next hdrop =>
      simp only [Bool.and_eq_true, decide_eq_true_eq, Bool.not_eq_true'] at hdrop
      refine Filled.skip h ?_
      rw [hzero]
      refine .dropped ?_ hdrop.2
      rintro rfl
      simp [userCodeAddr] at hdrop
    · refine Filled.write (h.write hq ?_ ?_).1 ?_
      · rw [hzero, ownedBy_zero]
        simp [ownedBy, huge_freshHuge, hhuge]
      · intro i' hpath
        simp at hpath
      · rw [write_entry]
        refine .hugePage hi hhuge ?_
        rintro rfl
        have hlt : userCodeAddr < i.val * 2 ^ 30 + 2 ^ 30 := by
          simp only [userCodeAddr]
          omega
        simpa only [hlt, decide_true, Bool.and_true, Bool.true_and, Bool.not_eq_true] using hbad
  next hhuge =>
    have htab : isTable src = true :=
      isTable_eq_true.mpr ⟨by simpa using hpr, by simpa using hhuge⟩
    have hsrcPd : frameAt tableOf m₁.mem m₁.cr3 [i, 0] = some (entryAddr src) := by
      rw [frameAt_cons_of hsrc, ← hsrcE]
      exact tableOf_of_isTable (by simp) htab
    have hpub := Filled.publish (tableFlags src)
      (fun new => copyPde p copyUser failAfter i (entryAddr src) new)
      (fun D mem j e => PdeCopied p m₁ copyUser i j D mem (m₁.mem (entryAddr src) j) e)
      (fun _ _ _ _ _ _ hD hmem hspec => hspec.congr hD hmem)
      (fun new j s hb hq hz => copyPde_spec hs hsrcPd hi hb hq hz) hs.phys h hq hzero
      (fun new hf => ownedBy_mkEntry_pd hf (isTable_eq_true.mp htab).1) (huge_tableFlags src)
    obtain ⟨s', b, hrun, hb, hsame, hspec⟩ := hpub
    refine ⟨s', b, hrun, hb, hsame, fun hbt => ?_⟩
    obtain ⟨pd, hentry, hframe, hin, hpd⟩ := hspec hbt
    rw [hentry]
    exact .table hi htab hframe hin hpd

theorem ownedBy_mkEntry_pdpt {pdpt : ℕ} {e : BitVec 64} (hf : IsFrame pdpt)
    (h : present e = true) : ownedBy [] 0 (mkEntry pdpt (tableFlags e)) = some pdpt := by
  simp [ownedBy, present_mkEntry hf, present_tableFlags, h,
    entryAddr_mkEntry hf (noAddr_tableFlags e)]

/-- **Filling the fresh root.** -/
theorem fillPml4_spec {bm : Bitmap} (failAfter : Option ℕ) (hs : Source p m₁ copyUser l1)
    (htake : p.Taken m₁.bitmap {r} bm) :
    ∃ m' b, fillPml4 p copyUser failAfter (({ m₁ with bitmap := bm } : Mach).zero r) r =
        some (m', b) ∧ Built p NotUserHuge m₁ r ∅ m' ∧ (b = true → RootCopied p m₁ copyUser m'.mem r) := by
  have hfree : r ∈ p.freeFrames m₁.bitmap := htake.sub rfl
  have hne : ∀ f ∈ tables m₁.mem m₁.cr3, f ≠ r := fun f hf heq => hs.wf.used f hf (heq ▸ hfree)
  set m := copyKernelEntries (({ m₁ with bitmap := bm } : Mach).zero r) r with hm
  have hmem : ∀ f, f ≠ r → m.mem f = m₁.mem f := by
    intro f hf
    simp only [hm, copyKernelEntries, Mach.zero]
    rw [PhysMem.setFrame_ne _ hf, PhysMem.setFrame_ne _ hf]
  have hcr3 : m.cr3 = m₁.cr3 := rfl
  have hroot : m.mem m.cr3 = m₁.mem m₁.cr3 := by
    rw [hcr3]
    exact hmem _ (hne _ root_mem_footprint)
  have hzero : m.mem r 0 = 0#64 := by simp [hm, copyKernelEntries]
  have hkernel : ∀ x, x ≠ 0 → m.mem r x = m₁.mem m₁.cr3 x := by
    intro x hx
    simp only [hm, copyKernelEntries, PhysMem.setFrame_same, if_neg hx, Mach.zero]
    rw [PhysMem.setFrame_ne _ (hne _ root_mem_footprint)]
  have hb : Built p NotUserHuge m₁ r ∅ m := by
    refine Built.init hcr3 htake hmem ?_ fun x i hpath => by simp at hpath
    rw [hzero, present_zero]
  unfold fillPml4
  simp only [← hm, hroot]
  split
  next hpr =>
    refine ⟨m, true, rfl, hb, fun _ => ⟨?_, hkernel⟩⟩
    rw [hzero]
    exact .absent (by simpa using hpr)
  next hpr =>
    have hpr' : present (m₁.mem m₁.cr3 0) = true := by simpa using hpr
    have hpub := Filled.publish (s := (m, 0)) (tableFlags (m₁.mem m₁.cr3 0))
      (fun new => copyPdpte p copyUser failAfter (entryAddr (m₁.mem m₁.cr3 0)) new)
      (fun D mem i e => PdpteCopied p m₁ copyUser i D mem
        (m₁.mem (entryAddr (m₁.mem m₁.cr3 0)) i) e)
      (fun _ _ _ _ _ _ hD hmem hspec => hspec.congr hD hmem)
      (fun new i s hb hq hz => copyPdpte_spec hs (frameAt_pdpt hpr') hb hq hz) hs.phys hb
      (q := []) rfl hzero (fun new hf => ownedBy_mkEntry_pdpt hf hpr') (huge_tableFlags _)
    obtain ⟨s', b, hrun, hb', hsame, hspec⟩ := hpub
    refine ⟨s'.1, b, ?_, hb', fun hbt => ⟨?_, ?_⟩⟩
    · dsimp only at hrun ⊢
      split at hrun
      next hnull =>
        rw [if_pos hnull]
        cases hrun
        rfl
      next hnull =>
        rw [if_neg hnull, hrun]
        rfl
    · obtain ⟨pdpt, hentry, hframe, hin, hpdpt⟩ := hspec hbt
      rw [hentry]
      exact .table hpr' hframe hin hpdpt
    · intro x hx
      rw [hsame r root_mem_footprint x fun hc => hx hc.2]
      exact hkernel x hx

end Loops

end Vibix.Paging
