import Vibix.Paging.View

/-! # Mapping fresh frames

The steps by which address spaces grow: a frame is allocated and filled (`Fetched`) and then mapped.
`Extended` is what a series of such steps does to a root: the pages in question are mapped to frames
that were free, and nothing else is different.  Such steps compose (`Extended.trans`).

`map_4k` of a frame of zeros is such a step (`map4k_zeroFilled`); in the end the frames are still zero,
and no two pages share one (`ZeroFilled`).  `try_map_4k` refuses a page that is mapped already, so what
it adds was not there before: `Populated`, `tryMap4k_populated`. -/

namespace Vibix.Paging

open FrameTree

/-- From `m` to `m'` the pages `S` were mapped under `root`, each to a frame that was free, and
nothing else happened. -/
structure Extended (p : PmmAllocator) (root : ℕ) (S : Set ℕ) (m m' : Mach) : Prop where
  cr3 : m'.cr3 = m.cr3
  kept : Kept p root m m'
  space : ProcessSpace p m' root
  mapped : ∀ w, ∀ v ∈ S, inKernelScratch v = false → SamePage w v →
    ∃ f ∈ p.freeFrames m.bitmap, leafEntry m'.mem root w = mkEntry f pageUserRw
  others : ∀ w, (∀ v ∈ S, inKernelScratch v = false → ¬ SamePage w v) →
    leafEntry m'.mem root w = leafEntry m.mem root w

section

variable {p : PmmAllocator} {root v : ℕ} {m m₁ m₂ m' : Mach} {S T : Set ℕ}

theorem tryGetOrCreateTable_cr3 (p : PmmAllocator) (m : Mach) (t : ℕ) (x : Fin 512) :
    (tryGetOrCreateTable p m t x).1.cr3 = m.cr3 := by
  unfold tryGetOrCreateTable
  dsimp only
  split_ifs <;> rfl

/-- What each of the three steps of `tablesFor` does, all of them do. -/
theorem tablesFor_induct {R : Mach → Mach → Prop} (htrans : ∀ {a b c}, R a b → R b c → R a c)
    (hstep : ∀ m t x, R m (tryGetOrCreateTable p m t x).1) (m : Mach) (root v : ℕ) :
    R m (tablesFor p m root v).1 := by
  unfold tablesFor
  have h₄ := hstep m root (l4Index v)
  split
  next m₁ heq => rwa [heq] at h₄
  next m₁ l3 heq =>
    rw [heq] at h₄
    have h₃ := hstep m₁ l3 (l3Index v)
    split
    next m₂ heq =>
      rw [heq] at h₃
      exact htrans h₄ h₃
    next m₂ l2 heq =>
      rw [heq] at h₃
      have h₂ := hstep m₂ l2 (l2Index v)
      split <;> rename_i heq <;> rw [heq] at h₂ <;> exact htrans h₄ (htrans h₃ h₂)

theorem tablesFor_cr3 (p : PmmAllocator) (m : Mach) (root v : ℕ) :
    (tablesFor p m root v).1.cr3 = m.cr3 :=
  tablesFor_induct (R := fun m m' => m'.cr3 = m.cr3) (fun h₁ h₂ => h₂.trans h₁)
    (tryGetOrCreateTable_cr3 p) m root v

/-- Linking tables frees nothing. -/
theorem tablesFor_free (hv : p.Valid) (m : Mach) (root v : ℕ) :
    p.freeFrames (tablesFor p m root v).1.bitmap ⊆ p.freeFrames m.bitmap := by
  refine tablesFor_induct (R := fun m m' => p.freeFrames m'.bitmap ⊆ p.freeFrames m.bitmap)
    (fun h₁ h₂ => h₂.trans h₁) (fun m t x => ?_) m root v
  unfold tryGetOrCreateTable
  dsimp only
  split_ifs with hpr hnull
  · exact subset_rfl
  · rw [(PmmAllocator.alloc_null hv hnull).1]
  · exact (PmmAllocator.taken_alloc hv hnull).free.trans_subset Set.sdiff_subset

/-- Mapping a page frees nothing. -/
theorem map4k_free {pa : ℕ} {flags : BitVec 64} (hv : p.Valid)
    (h : map4k p m root v pa flags = some m') :
    p.freeFrames m'.bitmap ⊆ p.freeFrames m.bitmap := by
  have htab := tablesFor_free hv m root v
  unfold map4k at h
  split at h
  next =>
    cases h
    exact subset_rfl
  next =>
    split at h
    next => cases h
    next heq =>
      cases h
      rw [heq] at htab
      rwa [mapLeaf_bitmap]

theorem map4k_cr3 {pa : ℕ} {flags : BitVec 64} (h : map4k p m root v pa flags = some m') :
    m'.cr3 = m.cr3 := by
  have htab := tablesFor_cr3 p m root v
  unfold map4k at h
  split at h
  next =>
    cases h
    rfl
  next =>
    split at h
    next => cases h
    next heq =>
      cases h
      rw [heq] at htab
      unfold mapLeaf
      dsimp only
      split <;> exact htab

theorem Extended.refl (h : ProcessSpace p m root) : Extended p root ∅ m m :=
  ⟨rfl, (Grown.refl h.ok h.noGiant).kept, h, nofun, fun _ _ => rfl⟩

theorem Extended.trans (h₁ : Extended p root S m m₁) (h₂ : Extended p root T m₁ m₂) :
    Extended p root (S ∪ T) m m₂ := by
  refine ⟨h₂.cr3.trans h₁.cr3, h₁.kept.trans h₂.kept, h₂.space, ?_, ?_⟩
  · rintro w v hv hns hsame
    by_cases hT : ∃ v ∈ T, inKernelScratch v = false ∧ SamePage w v
    · obtain ⟨v', hv', hns', hsame'⟩ := hT
      obtain ⟨f, hf, hleaf⟩ := h₂.mapped w v' hv' hns' hsame'
      exact ⟨f, h₁.kept.free hf, hleaf⟩
    · have hvS : v ∈ S := hv.resolve_right fun hvT => hT ⟨v, hvT, hns, hsame⟩
      rw [h₂.others w fun v' hv' hns' hsame' => hT ⟨v', hv', hns', hsame'⟩]
      exact h₁.mapped w v hvS hns hsame
  · intro w hw
    rw [h₂.others w fun v hv => hw v (.inr hv), h₁.others w fun v hv => hw v (.inl hv)]

/-- From `m` to `m₁` the frame `f` was allocated, and perhaps filled. -/
structure Fetched (p : PmmAllocator) (m : Mach) (f : ℕ) (m₁ : Mach) : Prop where
  cr3 : m₁.cr3 = m.cr3
  frame : f ∈ p.freeFrames m.bitmap
  used : f ∉ p.freeFrames m₁.bitmap
  free : p.freeFrames m₁.bitmap ⊆ p.freeFrames m.bitmap
  mem : ∀ g, g ≠ f → m₁.mem g = m.mem g

theorem fetched_of_alloc (hp : p.Physical) (hsome : (p.alloc m.bitmap).2 ≠ 0) {mem : PhysMem}
    (hmem : ∀ g, g ≠ (p.alloc m.bitmap).2 → mem g = m.mem g) :
    Fetched p m (p.alloc m.bitmap).2 { m with mem := mem, bitmap := (p.alloc m.bitmap).1 } := by
  have htaken := PmmAllocator.taken_alloc hp.toValid hsome
  exact ⟨rfl, htaken.sub rfl, htaken.not_free rfl, htaken.free.trans_subset Set.sdiff_subset, hmem⟩

section Fetched

variable {f : ℕ} (hf : Fetched p m f m₁)
include hf

theorem Fetched.mem_used {g : ℕ} (hg : g ∉ p.freeFrames m.bitmap) : m₁.mem g = m.mem g :=
  hf.mem g fun hc => hg (hc ▸ hf.frame)

theorem Fetched.space (h : ProcessSpace p m root) : ProcessSpace p m₁ root :=
  h.congr (fun _ => hf.mem_used) hf.free

theorem Fetched.kept (h : ProcessSpace p m root) : Kept p root m m₁ :=
  .of_used h.ok h.noGiant (fun _ => hf.mem_used) hf.free
    fun g hg => hf.mem g fun hc => hf.used (hc ▸ hg)

theorem Fetched.leafEntry_eq (h : ProcessSpace p m root) (w : ℕ) :
    leafEntry m₁.mem root w = leafEntry m.mem root w :=
  leafEntry_congr (fun g hg => hf.mem_used (h.ok.used g hg)) w

theorem Fetched.not_table (h : ProcessSpace p m root) : f ∉ tables m₁.mem root := by
  rw [tables, footprint_congr (frameAt_of_eqOn fun g hg => hf.mem_used (h.ok.used g hg))]
  exact fun hc => h.ok.used f hc hf.frame

end Fetched

/-- Mapping a fetched frame at `v`. -/
theorem Fetched.extended {f : ℕ} (hp : p.Physical) (hf : Fetched p m f m₁)
    (h : ProcessSpace p m root) (hk : Kept p root m₁ m') (hcr3 : m'.cr3 = m₁.cr3)
    (hleaf : ∀ w, leafEntry m'.mem root w =
      if inKernelScratch v = false ∧ SamePage w v then mkEntry f pageUserRw
      else leafEntry m₁.mem root w) : Extended p root {v} m m' := by
  have hframe := isFrame_of_free hp hf.frame
  refine ⟨hcr3.trans hf.cr3, (hf.kept h).trans hk,
    (hf.space h).mapped hframe hk hf.used (hf.not_table h) hleaf, ?_, ?_⟩
  · rintro w v rfl hns hsame
    exact ⟨f, hf.frame, by rw [hleaf, if_pos ⟨hns, hsame⟩]⟩
  · intro w hw
    rw [hleaf, if_neg fun hc => hw v rfl hc.1 hc.2, hf.leafEntry_eq h]

/-! ### Frames of zeros -/

/-- The page of `w` is one of `S`, and not the scratch page. -/
def Covers (S : Set ℕ) (w : ℕ) : Prop := ∃ v ∈ S, inKernelScratch v = false ∧ SamePage w v

/-- The pages `S` were mapped under `root`, each to a frame of zeros of its own. -/
structure ZeroFilled (p : PmmAllocator) (root : ℕ) (S : Set ℕ) (m m' : Mach) : Prop where
  ext : Extended p root S m m'
  frame : ∀ w, Covers S w → ∃ f, leafEntry m'.mem root w = mkEntry f pageUserRw ∧
    f ∈ p.freeFrames m.bitmap ∧ f ∉ p.freeFrames m'.bitmap ∧ f ∉ tables m'.mem root ∧
    m'.mem f = fun _ => 0#64
  distinct : ∀ w w', Covers S w → Covers S w' →
    leafEntry m'.mem root w = leafEntry m'.mem root w' → SamePage w w'

theorem Extended.outside {w : ℕ} (h : Extended p root S m m') (hw : ¬ Covers S w) :
    leafEntry m'.mem root w = leafEntry m.mem root w :=
  h.others w fun v hv hns hsame => hw ⟨v, hv, hns, hsame⟩

/-- Pages that were not mapped are seen as before. -/
theorem Extended.walk_outside {w : ℕ} (h : Extended p root S m m') (hs : ProcessSpace p m root)
    (hw : ¬ Covers S w) : walk m'.mem root w = walk m.mem root w ∧
      userWalk m'.mem root w = userWalk m.mem root w := by
  have hs' := h.space
  rw [walk_view hs'.noGiant, walk_view hs.noGiant, userWalk_view hs'.noGiant hs'.userTables,
    userWalk_view hs.noGiant hs.userTables, h.kept.huges, h.outside hw]
  exact ⟨rfl, rfl⟩

theorem Extended.userLeaf_outside {w : ℕ} (h : Extended p root S m m') (hs : ProcessSpace p m root)
    (hw : ¬ Covers S w) : userLeaf m'.mem root w = userLeaf m.mem root w := by
  have hs' := h.space
  rw [userLeaf_view hs'.noGiant hs'.userTables, userLeaf_view hs.noGiant hs.userTables, h.outside hw]

/-- Pages that were mapped are user pages, in frames of zeros. -/
theorem ZeroFilled.userLeaf_covered {w : ℕ} (hp : p.Physical) (h : ZeroFilled p root S m m')
    (hw : Covers S w) : ∃ f ∈ p.freeFrames m.bitmap, f ∉ p.freeFrames m'.bitmap ∧
      userLeaf m'.mem root w = some (mkEntry f pageUserRw) ∧
      leafEntry m'.mem root w = mkEntry f pageUserRw ∧ m'.mem f = fun _ => 0#64 := by
  have hs' := h.ext.space
  obtain ⟨f, hentry, hfree, hused, -, hzero⟩ := h.frame w hw
  have hframe := isFrame_of_free hp hfree
  refine ⟨f, hfree, hused, ?_, hentry, hzero⟩
  rw [userLeaf_view hs'.noGiant hs'.userTables, hentry, if_pos]
  rw [isUserLeaf_eq_true, present_mkEntry hframe, user_mkEntry hframe]
  exact ⟨present_pageUserRw, user_pageUserRw⟩

theorem ZeroFilled.refl (h : ProcessSpace p m root) : ZeroFilled p root ∅ m m :=
  ⟨.refl h, fun _ ⟨_, hv, _⟩ => hv.elim, fun _ _ ⟨_, hv, _⟩ => hv.elim⟩

theorem mkEntry_inj {f g : ℕ} (hf : IsFrame f) (hg : IsFrame g)
    (h : mkEntry f pageUserRw = mkEntry g pageUserRw) : f = g := by
  rw [← entryAddr_mkEntry hf noAddr_pageUserRw, h, entryAddr_mkEntry hg noAddr_pageUserRw]

theorem ZeroFilled.trans (hp : p.Physical) (h₁ : ZeroFilled p root S m m₁)
    (h₂ : ZeroFilled p root T m₁ m₂) : ZeroFilled p root (S ∪ T) m m₂ := by
  have hk := h₂.ext.kept
  have hcases : ∀ {w}, Covers (S ∪ T) w → ¬ Covers T w → Covers S w := by
    rintro w ⟨v, hv, hns, hsame⟩ hT
    exact ⟨v, hv.resolve_right fun hvT => hT ⟨v, hvT, hns, hsame⟩, hns, hsame⟩
  -- a frame that was mapped first is not one that was mapped later
  have hapart : ∀ {w w'}, Covers T w → Covers S w' →
      leafEntry m₂.mem root w ≠ leafEntry m₁.mem root w' := by
    intro w w' hT hS heq
    obtain ⟨f, hleaf, hfree, -⟩ := h₂.frame w hT
    obtain ⟨g, hleaf', hfree', hused, -⟩ := h₁.frame w' hS
    rw [hleaf, hleaf'] at heq
    have hfg := mkEntry_inj (isFrame_of_free hp hfree) (isFrame_of_free hp hfree') heq
    exact hused (hfg ▸ hfree)
  refine ⟨h₁.ext.trans h₂.ext, fun w hw => ?_, fun w w' hw hw' heq => ?_⟩
  · by_cases hT : Covers T w
    · obtain ⟨f, hleaf, hfree, hrest⟩ := h₂.frame w hT
      exact ⟨f, hleaf, h₁.ext.kept.free hfree, hrest⟩
    · obtain ⟨f, hleaf, hfree, hused, htab, hzero⟩ := h₁.frame w (hcases hw hT)
      refine ⟨f, (h₂.ext.outside hT).trans hleaf, hfree, fun hc => hused (hk.free hc),
        fun hc => (hk.table_cases f hc).elim htab hused, ?_⟩
      rw [hk.other f htab hused, hzero]
  · by_cases hT : Covers T w <;> by_cases hT' : Covers T w'
    · exact h₂.distinct w w' hT hT' heq
    · rw [h₂.ext.outside hT'] at heq
      exact absurd heq (hapart hT (hcases hw' hT'))
    · rw [h₂.ext.outside hT] at heq
      exact absurd heq.symm (hapart hT' (hcases hw hT))
    · rw [h₂.ext.outside hT, h₂.ext.outside hT'] at heq
      exact h₁.distinct w w' (hcases hw hT) (hcases hw' hT') heq

/-- `map_4k` of a frame of zeros, at an address that is not part of a huge page. -/
theorem map4k_zeroFilled {f : ℕ} (hp : p.Physical) (hf : Fetched p m f m₁)
    (hzero : m₁.mem f = fun _ => 0#64) (h : ProcessSpace p m root)
    (hhuge : inKernelScratch v = false → hugeEntry m.mem root v = 0#64)
    (hrun : map4k p m₁ root v f pageUserRw = some m') : ZeroFilled p root {v} m m' := by
  have hk₁ := hf.kept h
  obtain ⟨hk, hleaf⟩ := map4k_page hp hk₁.ok hk₁.noGiant (isFrame_of_free hp hf.frame)
    (fun hns => (hk₁.huges v).trans (hhuge hns)) hrun
  have htab := hf.not_table h
  refine ⟨hf.extended hp h hk (map4k_cr3 hrun) hleaf, ?_, ?_⟩
  · rintro w ⟨_, rfl, hns, hsame⟩
    refine ⟨f, by rw [hleaf, if_pos ⟨hns, hsame⟩], hf.frame, fun hc => hf.used (hk.free hc),
      fun hc => (hk.table_cases f hc).elim htab hf.used, ?_⟩
    rw [hk.other f htab hf.used, hzero]
  · rintro w w' ⟨_, rfl, -, hsame⟩ ⟨_, rfl, -, hsame'⟩ -
    exact hsame.trans hsame'.symm

/-! ### Pages that were not mapped before -/

/-- Nothing is mapped at `v`. -/
def Unmapped (mem : PhysMem) (root v : ℕ) : Prop :=
  present (leafEntry mem root v) = false ∧ hugeEntry mem root v = 0#64

/-- Nothing is mapped where the processor finds nothing. -/
theorem unmapped_iff (hs : ProcessSpace p m root) :
    walk m.mem root v = none ↔ Unmapped m.mem root v := by
  rw [walk_view hs.noGiant, Unmapped]
  by_cases hhuge : hugeEntry m.mem root v = 0#64
  · simp [hhuge, present]
  · simp [present_hugeEntry hs.ok hhuge, hhuge]

theorem Unmapped.userLeaf (h : Unmapped m.mem root v) (hs : ProcessSpace p m root) :
    Paging.userLeaf m.mem root v = none := by
  rw [userLeaf_view hs.noGiant hs.userTables, if_neg]
  rw [isUserLeaf_eq_true, h.1]
  simp

/-- The pages `S` were mapped under `root`, where there was nothing. -/
structure Populated (p : PmmAllocator) (root : ℕ) (S : Set ℕ) (m m' : Mach) : Prop where
  ext : Extended p root S m m'
  fresh : ∀ v ∈ S, inKernelScratch v = false ∧ Unmapped m.mem root v

theorem Populated.refl (h : ProcessSpace p m root) : Populated p root ∅ m m := ⟨.refl h, nofun⟩

theorem Populated.trans (hp : p.Physical) (h₁ : Populated p root S m m₁)
    (h₂ : Populated p root T m₁ m₂) : Populated p root (S ∪ T) m m₂ := by
  refine ⟨h₁.ext.trans h₂.ext, ?_⟩
  rintro v (hv | hv)
  · exact h₁.fresh v hv
  · obtain ⟨hns, hleaf, hhuge⟩ := h₂.fresh v hv
    rw [h₁.ext.kept.huges] at hhuge
    refine ⟨hns, ?_, hhuge⟩
    by_cases hS : ∃ w ∈ S, inKernelScratch w = false ∧ SamePage v w
    · obtain ⟨w, hw, hws, hsame⟩ := hS
      obtain ⟨f, hf, heq⟩ := h₁.ext.mapped v w hw hws hsame
      rw [heq, present_mkEntry (isFrame_of_free hp hf), present_pageUserRw] at hleaf
      cases hleaf
    · rwa [h₁.ext.others v fun w hw hws hsame => hS ⟨w, hw, hws, hsame⟩] at hleaf

/-- Where `translate_in_pml4` finds nothing, nothing is mapped. -/
theorem unmapped_of_translate (hok : TablesOk p m root)
    (hnone : translateInPml4 m.mem v root = none) : Unmapped m.mem root v := by
  refine ⟨?_, hugeEntry_of_translate hnone fun t ht => hok.zero t ⟨_, ht⟩ _⟩
  unfold leafEntry
  cases ht1 : frameAt tableOf m.mem root (ptPath v) with
  | none => simp [present]
  | some t1 =>
    obtain ⟨t2, ht2, hown₂⟩ := frameAt_cons_eq_some.mp ht1
    obtain ⟨t3, ht3, hown₃⟩ := frameAt_cons_eq_some.mp ht2
    obtain ⟨rt, hrt, hown₄⟩ := frameAt_cons_eq_some.mp ht3
    obtain rfl : root = rt := Option.some.inj hrt
    simp only [tableOf, Option.ite_none_right_eq_some, Option.some.injEq, Bool.and_eq_true,
      Bool.not_eq_true'] at hown₂ hown₃ hown₄
    obtain ⟨hpr₄, rfl⟩ := hown₄
    obtain ⟨⟨hpr₃, _⟩, rfl⟩ := hown₃
    obtain ⟨⟨hpr₂, hh₂⟩, rfl⟩ := hown₂
    by_contra hpr
    rw [Bool.not_eq_false] at hpr
    simp [translateInPml4, hpr₄, hpr₃, hpr₂, hh₂, hpr] at hnone

theorem tryMap4k_cr3 (p : PmmAllocator) (m : Mach) (root v pa : ℕ) (flags : BitVec 64) :
    (tryMap4k p m root v pa flags).1.cr3 = m.cr3 := by
  have htab := tablesFor_cr3 p m root v
  unfold tryMap4k
  split
  · rfl
  split
  · rfl
  split
  next heq => rwa [heq] at htab
  next heq =>
    rw [heq] at htab
    unfold mapLeaf
    dsimp only
    split <;> exact htab

/-- **`try_map_4k` of a fetched frame** that succeeds. -/
theorem tryMap4k_populated {f : ℕ} (hp : p.Physical) (hf : Fetched p m f m₁)
    (h : ProcessSpace p m root) (hrun : tryMap4k p m₁ root v f pageUserRw = (m', true)) :
    Populated p root {v} m m' ∧ leafEntry m'.mem root v = mkEntry f pageUserRw ∧
      f ∉ p.freeFrames m'.bitmap ∧ f ∉ tables m'.mem root ∧ m'.mem f = m₁.mem f := by
  have hk₁ := hf.kept h
  have hcr3 := tryMap4k_cr3 p m₁ root v f pageUserRw
  obtain ⟨m₂, b, hrun', hk₂, -, hleaf⟩ :=
    tryMap4k_page (v := v) hp hk₁.ok hk₁.noGiant (isFrame_of_free hp hf.frame)
  rw [hrun] at hrun' hcr3
  obtain ⟨rfl, rfl⟩ := Prod.mk.inj hrun'
  simp only [true_and] at hleaf
  have hcond : inKernelScratch v = false ∧ translateInPml4 m₁.mem v root = none := by
    unfold tryMap4k at hrun
    split at hrun
    · cases hrun
    next hns =>
      split at hrun
      · cases hrun
      next hnone => exact ⟨by simpa using hns, by simpa using hnone⟩
  obtain ⟨hns, hnone⟩ := hcond
  have hunm := unmapped_of_translate hk₁.ok hnone
  have hntab := hf.not_table h
  refine ⟨⟨hf.extended hp h hk₂ hcr3 (by simpa [hns] using hleaf), ?_⟩,
    by rw [hleaf, if_pos ⟨rfl, rfl⟩], fun hc => hf.used (hk₂.free hc), fun hc => (hk₂.table_cases f hc).elim hntab hf.used,
    hk₂.other f hntab hf.used⟩
  rintro w rfl
  rw [Unmapped, hf.leafEntry_eq h, hk₁.huges] at hunm
  exact ⟨hns, hunm⟩

/-- Writing to pages that were mapped. -/
theorem Populated.setMem {mem : PhysMem} (h : Populated p root S m m')
    (hmem : ∀ g, mem g ≠ m'.mem g → g ∈ p.freeFrames m.bitmap ∧ g ∉ p.freeFrames m'.bitmap ∧
      g ∉ tables m'.mem root) : Populated p root S m { m' with mem := mem } := by
  have hsame : ∀ g, (g ∉ p.freeFrames m.bitmap ∨ g ∈ p.freeFrames m'.bitmap ∨
      g ∈ tables m'.mem root) → mem g = m'.mem g := by
    intro g hg
    by_contra hne
    obtain ⟨h1, h2, h3⟩ := hmem g hne
    rcases hg with hg | hg | hg
    · exact hg h1
    · exact h2 hg
    · exact h3 hg
  have htab : ∀ g ∈ tables m'.mem root, mem g = m'.mem g := fun g hg => hsame g (.inr (.inr hg))
  have htables : tables mem root = tables m'.mem root := footprint_congr (frameAt_of_eqOn htab)
  have hk := h.ext.kept
  have hs := h.ext.space
  refine ⟨⟨h.ext.cr3, ⟨hk.ok.congr htab fun _ hf => hf, hk.noGiant.congr htab,
    fun w hw => (hk.users w hw).congr htab, fun w => (hugeEntry_congr htab w).trans (hk.huges w),
    fun hu => (hk.userTables hu).congr htab, ?_, hk.free, ?_, ?_⟩,
    ⟨hk.ok.congr htab fun _ hf => hf, hs.noGiant.congr htab, hs.userTables.congr htab, ?_⟩, ?_, ?_⟩,
    h.fresh⟩
  · rw [htables]
    exact hk.table_cases
  · exact fun f hf hfree => (hsame f (.inl hfree)).trans (hk.other f hf hfree)
  · exact fun f hf => (hsame f (.inr (.inl hf))).trans (hk.still f hf)
  · intro v hv
    rw [leafEntry_congr htab] at hv ⊢
    rw [htables]
    exact hs.leaf v hv
  · intro w v hv hns hsame
    rw [leafEntry_congr htab]
    exact h.ext.mapped w v hv hns hsame
  · intro w hw
    rw [leafEntry_congr htab]
    exact h.ext.others w hw

end

end Vibix.Paging
