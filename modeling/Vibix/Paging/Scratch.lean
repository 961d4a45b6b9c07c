import Vibix.Paging.Owned

/-! # The scratch mapping

`WellFormed p m` is what the construction relies on in the active root: its tables are distinct
frames, none of them free in the PMM, and entries that are not present are zero.

The scratch walk is provisioned in two steps of the same kind, each linking one fresh table or
borrowing the one that is there (`Linked`).  `Linked.wf` says that the root stays well formed and
`Linked.undo` that unlinking restores what was there, whatever happened to other frames meanwhile.
With the walk in place, copying a user page through it changes the child frame only
(`copyThroughScratch_spec`). -/

namespace Vibix.Paging

open FrameTree

/-- The tables of a root: distinct used frames, entries that are not present are zero. -/
structure TablesOk (p : PmmAllocator) (m : Mach) (root : ℕ) : Prop where
  priv : Private tableOf m.mem root
  used : ∀ f ∈ tables m.mem root, f ∉ p.freeFrames m.bitmap
  zero : ∀ f ∈ tables m.mem root, ∀ x, present (m.mem f x) = false → m.mem f x = 0#64

/-- The active root is well formed. -/
abbrev WellFormed (p : PmmAllocator) (m : Mach) : Prop := TablesOk p m m.cr3

variable {p : PmmAllocator} {m m' m₂ : Mach} {t new f : ℕ} {x i j k : Fin 512}
  {q : List (Fin 512)} {S : Set ℕ} {flags : BitVec 64}

/-- Well-formedness only depends on the tables and on which frames are free. -/
theorem TablesOk.congr {root : ℕ} (h : TablesOk p m root)
    (hmem : ∀ f ∈ tables m.mem root, m'.mem f = m.mem f)
    (hused : ∀ f, f ∉ p.freeFrames m.bitmap → f ∉ p.freeFrames m'.bitmap) : TablesOk p m' root := by
  have hframe := frameAt_of_eqOn hmem
  have htables : tables m'.mem root = tables m.mem root := footprint_congr hframe
  refine ⟨h.priv.congr hframe, ?_, ?_⟩
  · rw [htables]
    exact fun f hf => hused f (h.used f hf)
  · rw [htables]
    intro f hf x hx
    rw [hmem f hf] at hx ⊢
    exact h.zero f hf x hx

theorem WellFormed.congr (h : WellFormed p m) (hcr3 : m'.cr3 = m.cr3)
    (hmem : ∀ f ∈ tables m.mem m.cr3, m'.mem f = m.mem f)
    (hused : ∀ f, f ∉ p.freeFrames m.bitmap → f ∉ p.freeFrames m'.bitmap) : WellFormed p m' := by
  unfold WellFormed
  rw [hcr3]
  exact TablesOk.congr h hmem hused

/-! ### Entries that lead to a table -/

theorem tableOf_of_isTable {e : BitVec 64} (hq : q.length ≤ 2) (he : isTable e = true) :
    tableOf q x e = some (entryAddr e) := by
  match q, hq with
  | [], _ => simp only [tableOf, (isTable_eq_true.mp he).1, ↓reduceIte]
  | [_], _ =>
    rw [isTable] at he
    simp only [tableOf, he, ↓reduceIte]
  | [_, _], _ =>
    rw [isTable] at he
    simp only [tableOf, he, ↓reduceIte]

theorem tableOf_zero (q : List (Fin 512)) (x : Fin 512) : tableOf q x 0#64 = none := by
  match q with
  | [] => simp [tableOf]
  | [_] => simp [tableOf]
  | [_, _] => simp [tableOf]
  | _ :: _ :: _ :: _ => rfl

theorem isFrame_of_free (hp : p.Physical) (hf : f ∈ p.freeFrames m.bitmap) : IsFrame f := by
  have hm := PmmAllocator.managed_of_mem_freeFrames hf
  refine ⟨hm.aligned hp.toValid, ?_⟩
  have hlt := hm.lt
  have htop := hp.top
  omega

theorem isTable_mkEntry (hf : IsFrame f) {flags : BitVec 64} (h : isTable flags = true) :
    isTable (mkEntry f flags) = true := by
  rw [isTable_eq_true] at h ⊢
  rw [present_mkEntry hf, huge_mkEntry hf]
  exact h

/-! ### Linking one scratch table -/

/-- One step at entry `x` of `t`: the table there is borrowed (`new = 0`), or a fresh zeroed one is
linked with `flags`. -/
inductive Linked (p : PmmAllocator) (flags : BitVec 64) (m : Mach) (t : ℕ) (x : Fin 512) :
    ℕ → Mach → Prop
  | borrowed : isTable (m.mem t x) = true → Linked p flags m t x 0 m
  | fresh {new : ℕ} {bm : Bitmap} : new ≠ 0 → m.mem t x = 0#64 → p.Taken m.bitmap {new} bm →
      Linked p flags m t x new
        ((({ m with bitmap := bm } : Mach).zero new).write t x (mkEntry new flags))

theorem Linked.cr3 (h : Linked p flags m t x new m') : m'.cr3 = m.cr3 := by
  cases h with
  | borrowed => rfl
  | fresh => rfl

/-- What was used stays used. -/
theorem Linked.used (h : Linked p flags m t x new m') (hf : f ∉ p.freeFrames m.bitmap) :
    f ∉ p.freeFrames m'.bitmap := by
  cases h with
  | borrowed => exact hf
  | fresh _ _ htake => exact htake.not_free_of_not_free hf

/-- A linked table was free. -/
theorem Linked.new_free (h : Linked p flags m t x new m') (hne : new ≠ 0) :
    new ∈ p.freeFrames m.bitmap := by
  cases h with
  | borrowed => exact absurd rfl hne
  | fresh _ _ htake => exact htake.sub rfl

theorem fresh_apply {bm : Bitmap} {e : BitVec 64} (hf : f ≠ new) (y : Fin 512) :
    ((({ m with bitmap := bm } : Mach).zero new).write t x e).mem f y =
      if f = t ∧ y = x then e else m.mem f y := by
  simp only [Mach.write, Mach.zero, PhysMem.setSlot]
  rw [PhysMem.setFrame_ne _ hf]

theorem fresh_new {bm : Bitmap} {e : BitVec 64} (ht : t ≠ new) :
    ((({ m with bitmap := bm } : Mach).zero new).write t x e).mem new = fun _ => 0#64 := by
  funext y
  simp only [Mach.write, Mach.zero, PhysMem.setSlot]
  rw [if_neg (by rintro ⟨h, _⟩; exact ht h.symm), PhysMem.setFrame_same]

/-- Linking changes one entry of the frames in use. -/
theorem Linked.mem_eq (h : Linked p flags m t x new m') (hf : f ∉ p.freeFrames m.bitmap)
    {y : Fin 512} (hfy : ¬ (f = t ∧ y = x)) : m'.mem f y = m.mem f y := by
  cases h with
  | borrowed => rfl
  | @fresh _ bm _ _ htake =>
    have hfn : f ≠ new := by
      rintro rfl
      exact hf (htake.sub rfl)
    rw [fresh_apply hfn, if_neg hfy]

/-- **Linking keeps a root well formed**: the entry now leads to a table, and the tables are those
before with `new`. -/
theorem Linked.tables_ok {root : ℕ} (hp : p.Physical) (hflags : isTable flags = true)
    (hna : NoAddr flags) (hwf : TablesOk p m root) (hq : frameAt tableOf m.mem root q = some t)
    (hlen : q.length ≤ 2) (h : Linked p flags m t x new m') :
    TablesOk p m' root ∧ isTable (m'.mem t x) = true ∧
      frameAt tableOf m'.mem root (x :: q) = some (entryAddr (m'.mem t x)) ∧
      (∀ path f, frameAt tableOf m.mem root path = some f →
        frameAt tableOf m'.mem root path = some f) ∧
      (∀ f, f ∈ tables m'.mem root → f ∈ tables m.mem root ∨ (f = new ∧ new ≠ 0)) ∧
      (new ≠ 0 → new ∉ tables m.mem root ∧ entryAddr (m'.mem t x) = new ∧
        m'.mem new = fun _ => 0#64) := by
  cases h with
  | borrowed htab =>
    refine ⟨hwf, htab, ?_, fun _ _ hf => hf, fun _ hf => Or.inl hf, by simp⟩
    rw [frameAt_cons_of hq]
    exact tableOf_of_isTable hlen htab
  | @fresh _ bm hne hzero htake =>
    have hfree : new ∈ p.freeFrames m.bitmap := htake.sub rfl
    have hframe : IsFrame new := isFrame_of_free hp hfree
    have htused := hwf.used t ⟨q, hq⟩
    have htn : t ≠ new := by
      rintro rfl
      exact htused hfree
    have hnew : new ∉ tables m.mem root := fun hmem => hwf.used new hmem hfree
    set m' := (({ m with bitmap := bm } : Mach).zero new).write t x (mkEntry new flags)
      with hm'
    have hentry : m'.mem t x = mkEntry new flags := by
      rw [hm', fresh_apply htn, if_pos ⟨rfl, rfl⟩]
    have htab : isTable (m'.mem t x) = true := by
      rw [hentry]
      exact isTable_mkEntry hframe hflags
    have haddr : entryAddr (m'.mem t x) = new := by
      rw [hentry]
      exact entryAddr_mkEntry hframe hna
    have hsame : SameBut tableOf m.mem root m'.mem t x := by
      intro f hf y hfy
      have hfn : f ≠ new := by
        rintro rfl
        exact hnew hf
      rw [hm', fresh_apply hfn, if_neg hfy]
    have hown : tableOf q x (m'.mem t x) = some new := by
      rw [tableOf_of_isTable hlen htab, haddr]
    have hnone : tableOf q x (m.mem t x) = none := by
      rw [hzero]
      exact tableOf_zero q x
    have hleaf : ∀ y, tableOf (x :: q) y (m'.mem new y) = none := by
      intro y
      rw [hm', fresh_new htn]
      exact tableOf_zero _ y
    have hlink := frameAt_link hwf.priv hsame hq hnone hown hleaf
    have hnone' : frameAt tableOf m.mem root (x :: q) = none := by
      rw [frameAt_cons_of hq, hnone]
    have hfoot : ∀ f, f ∈ tables m'.mem root → f = new ∨ f ∈ tables m.mem root := by
      intro f hf
      rw [tables, footprint_insert hlink hnone'] at hf
      exact hf
    refine ⟨⟨hwf.priv.insert hlink hnew, ?_, ?_⟩, htab, ?_, ?_, ?_, ?_⟩
    · intro f hf
      rcases hfoot f hf with rfl | hf
      · exact htake.not_free rfl
      · exact htake.not_free_of_not_free (hwf.used f hf)
    · intro f hf y hy
      rcases hfoot f hf with rfl | hold
      · rw [hm', fresh_new htn]
      · have hfn : f ≠ new := fun heq => hnew (heq ▸ hold)
        rw [hm', fresh_apply hfn] at hy ⊢
        split_ifs at hy ⊢ with hfy
        · rw [present_mkEntry hframe, (isTable_eq_true.mp hflags).1] at hy
          cases hy
        · exact hwf.zero f hold y hy
    · rw [hlink, if_pos rfl, haddr]
    · intro path f hf
      rw [hlink, if_neg]
      · exact hf
      · rintro rfl
        rw [hnone'] at hf
        cases hf
    · intro f hf
      rcases hfoot f hf with rfl | hf
      · exact Or.inr ⟨rfl, hne⟩
      · exact Or.inl hf
    · intro _
      exact ⟨hnew, haddr, by rw [hm', fresh_new htn]⟩

theorem Linked.wf (hp : p.Physical) (hwf : WellFormed p m)
    (hq : frameAt tableOf m.mem m.cr3 q = some t) (hlen : q.length ≤ 2)
    (h : Linked p pageKernel m t x new m') :
    WellFormed p m' ∧ isTable (m'.mem t x) = true ∧
      frameAt tableOf m'.mem m.cr3 (x :: q) = some (entryAddr (m'.mem t x)) ∧
      (∀ path f, frameAt tableOf m.mem m.cr3 path = some f →
        frameAt tableOf m'.mem m.cr3 path = some f) ∧
      (∀ f, f ∈ tables m'.mem m.cr3 → f ∈ tables m.mem m.cr3 ∨ (f = new ∧ new ≠ 0)) ∧
      (new ≠ 0 → new ∉ tables m.mem m.cr3 ∧ entryAddr (m'.mem t x) = new ∧
        m'.mem new = fun _ => 0#64) := by
  obtain ⟨hok, hrest⟩ := h.tables_ok hp (by decide) noAddr_pageKernel hwf hq hlen
  rw [← h.cr3] at hok
  exact ⟨hok, hrest⟩

/-- **Unlinking restores the root**, whatever else was taken and written meanwhile. -/
theorem Linked.undo (hwf : WellFormed p m) (hq : frameAt tableOf m.mem m.cr3 q = some t)
    (h : Linked p flags m t x new m') (htake : p.Taken m'.bitmap S m₂.bitmap)
    (hmem : ∀ f ∈ tables m.mem m.cr3, m₂.mem f = m'.mem f) :
    p.Taken m.bitmap S (unlinkScratch p m₂ t x new).bitmap ∧
      (∀ f ∈ tables m.mem m.cr3, (unlinkScratch p m₂ t x new).mem f = m.mem f) ∧
      (∀ f, f ∉ tables m.mem m.cr3 → (unlinkScratch p m₂ t x new).mem f = m₂.mem f) ∧
      (unlinkScratch p m₂ t x new).cr3 = m₂.cr3 := by
  cases h with
  | borrowed => exact ⟨htake, hmem, fun _ _ => rfl, rfl⟩
  | @fresh _ bm hne hzero hnew =>
    have hfree : new ∈ p.freeFrames m.bitmap := hnew.sub rfl
    have htn : t ≠ new := by
      rintro rfl
      exact hwf.used t ⟨q, hq⟩ hfree
    rw [unlinkScratch, if_pos hne]
    have hall := hnew.trans htake
    have hback := hall.release hfree
    have hS : new ∉ S := fun hmemS => htake.sub hmemS |> hnew.not_free rfl
    have hset : ({new} ∪ S) \ {new} = S := by
      ext g
      simp only [Set.mem_sdiff, Set.mem_union, Set.mem_singleton_iff]
      constructor
      · rintro ⟨rfl | hg, hgn⟩
        · exact absurd rfl hgn
        · exact hg
      · intro hg
        exact ⟨Or.inr hg, fun hgn => hS (hgn ▸ hg)⟩
    rw [hset] at hback
    refine ⟨hback, ?_, ?_, rfl⟩
    · intro f hf
      have hfn : f ≠ new := by
        rintro rfl
        exact hwf.used f hf hfree
      funext y
      simp only [Mach.free, Mach.write, PhysMem.setSlot]
      rw [hmem f hf, fresh_apply hfn]
      split_ifs with hfy
      · rw [hfy.1, hfy.2, hzero]
      · rfl
    · intro f hf
      have hft : f ≠ t := by
        rintro rfl
        exact hf ⟨q, hq⟩
      simp only [Mach.free, Mach.write]
      exact PhysMem.setSlot_frame_ne _ hft _ _

/-- Unlinking restores every frame that was in use. -/
theorem Linked.undo_used (hwf : WellFormed p m) (hq : frameAt tableOf m.mem m.cr3 q = some t)
    (h : Linked p flags m t x new m') (htake : p.Taken m'.bitmap S m₂.bitmap)
    (hmem : ∀ f, f ∉ p.freeFrames m.bitmap → m₂.mem f = m'.mem f)
    (hf : f ∉ p.freeFrames m.bitmap) : (unlinkScratch p m₂ t x new).mem f = m.mem f := by
  obtain ⟨_, hkeep, hrest, _⟩ := h.undo hwf hq htake fun f hf => hmem f (hwf.used f hf)
  by_cases htab : f ∈ tables m.mem m.cr3
  · exact hkeep f htab
  · rw [hrest f htab, hmem f hf]
    funext y
    apply h.mem_eq hf
    rintro ⟨rfl, _⟩
    exact htab ⟨q, hq⟩

/-- The cleanup finds the provisioned table and unlinks it. -/
theorem reclaimScratch_eq (h : new ≠ 0 → entryAddr (m.mem t x) = new ∧
      huge (m.mem t x) = false ∧ m.mem new = fun _ => 0#64) :
    reclaimScratch p m t x new = unlinkScratch p m t x new := by
  unfold reclaimScratch unlinkScratch
  by_cases hne : new ≠ 0
  · obtain ⟨haddr, hhuge, hempty⟩ := h hne
    have hall : tableEmpty m (entryAddr (m.mem t x)) = true := by
      rw [haddr, tableEmpty, hempty]
      simp
    rw [if_pos ⟨hne, haddr, hhuge, hall⟩, if_pos hne]
  · rw [if_neg (fun hc => hne hc.1), if_neg hne]

/-! ### Provisioning and cleanup -/

theorem linkScratch_spec (hp : p.Physical)
    (hzero : present (m.mem t x) = false → m.mem t x = 0#64) :
    linkScratch p m t x = (m, none) ∨
    ∃ new m', linkScratch p m t x = (m', some new) ∧ Linked p pageKernel m t x new m' := by
  unfold linkScratch
  by_cases hpr : present (m.mem t x) = true
  · simp only [hpr, Bool.not_true, Bool.false_eq_true, ↓reduceIte]
    by_cases hh : huge (m.mem t x) = true
    · left
      simp only [hh, ↓reduceIte]
    · simp only [hh, Bool.false_eq_true, ↓reduceIte]
      refine Or.inr ⟨0, m, rfl, Linked.borrowed ?_⟩
      rw [isTable_eq_true]
      exact ⟨hpr, by simpa using hh⟩
  · have hpr' : present (m.mem t x) = false := by simpa using hpr
    simp only [hpr', Bool.not_false, ↓reduceIte]
    by_cases hnull : (p.alloc m.bitmap).2 = 0
    · simp only [hnull, ↓reduceIte]
      left
      rw [(PmmAllocator.alloc_null hp.toValid hnull).1]
    · simp only [hnull, ↓reduceIte]
      exact Or.inr ⟨_, _, rfl, Linked.fresh hnull (hzero hpr')
        (PmmAllocator.taken_alloc hp.toValid hnull)⟩

/-- The provisioning of the scratch walk in the active root: its PDPT is `l3`, the PD `l2`, the PT
`l1`; PD and PT were linked one after the other, and the scratch leaf is unused. -/
structure Provisioned (p : PmmAllocator) (m : Mach) (prov : ScratchProvision) (m₁ m' : Mach)
    (l3 l2 l1 : ℕ) : Prop where
  root : present (m.mem m.cr3 0) = true ∧ huge (m.mem m.cr3 0) = false ∧
    entryAddr (m.mem m.cr3 0) = l3
  pd : Linked p pageKernel m l3 scratchIndex prov.newPd m₁
  pd_addr : entryAddr (m₁.mem l3 scratchIndex) = l2
  pt : Linked p pageKernel m₁ l2 0 prov.newPt m'
  pt_addr : entryAddr (m'.mem l2 0) = l1
  leaf : m'.mem l1 0 = 0#64

section Provisioned

variable {m₁ : Mach} {prov : ScratchProvision} {l3 l2 l1 : ℕ}

/-- The PDPT of the active root. -/
theorem frameAt_pdpt (h : present (m.mem m.cr3 0) = true) :
    frameAt tableOf m.mem m.cr3 [0] = some (entryAddr (m.mem m.cr3 0)) := by
  rw [frameAt_cons_of rfl]
  simp [tableOf, h]

/-- The scratch walk after the provisioning, and the state in between. -/
theorem Provisioned.spec (hp : p.Physical) (hwf : WellFormed p m)
    (h : Provisioned p m prov m₁ m' l3 l2 l1) :
    WellFormed p m₁ ∧ WellFormed p m' ∧ m'.cr3 = m.cr3 ∧
      frameAt tableOf m.mem m.cr3 [0] = some l3 ∧
      frameAt tableOf m₁.mem m.cr3 [scratchIndex, 0] = some l2 ∧
      frameAt tableOf m'.mem m.cr3 [0] = some l3 ∧
      frameAt tableOf m'.mem m.cr3 [scratchIndex, 0] = some l2 ∧
      frameAt tableOf m'.mem m.cr3 [0, scratchIndex, 0] = some l1 := by
  have hl3 : frameAt tableOf m.mem m.cr3 [0] = some l3 := by
    rw [frameAt_pdpt h.root.1, h.root.2.2]
  obtain ⟨hwf₁, _, hpd, hold₁, _, _⟩ := h.pd.wf hp hwf hl3 (by simp)
  rw [h.pd_addr] at hpd
  have hcr3 := h.pd.cr3
  obtain ⟨hwf', _, hpt, hold', _, _⟩ :=
    h.pt.wf hp hwf₁ (q := [scratchIndex, 0]) (by rw [hcr3]; exact hpd) (by simp)
  rw [h.pt_addr, hcr3] at hpt
  rw [hcr3] at hold'
  exact ⟨hwf₁, hwf', h.pt.cr3.trans hcr3, hl3, hpd, hold' _ _ (hold₁ _ _ hl3), hold' _ _ hpd, hpt⟩

/-- The root entry is not touched by the provisioning. -/
theorem Provisioned.root_entry (hp : p.Physical) (hwf : WellFormed p m)
    (h : Provisioned p m prov m₁ m' l3 l2 l1) : m'.mem m.cr3 0 = m.mem m.cr3 0 := by
  obtain ⟨hwf₁, _, _, hl3, hl2, _⟩ := h.spec hp hwf
  have hroot₁ : m₁.cr3 ∈ tables m₁.mem m₁.cr3 := root_mem_footprint
  have hcr3 := h.pd.cr3
  have hne₃ : m.cr3 ≠ l3 := by
    rintro rfl
    cases hwf.priv [] [0] _ rfl hl3
  have hne₂ : m.cr3 ≠ l2 := by
    rintro rfl
    have hpriv := hwf₁.priv
    rw [hcr3] at hpriv
    cases hpriv [] [scratchIndex, 0] _ rfl hl2
  rw [h.pt.mem_eq (hcr3 ▸ hwf₁.used _ hroot₁) (fun hc => hne₂ hc.1),
    h.pd.mem_eq (hwf.used _ root_mem_footprint) (fun hc => hne₃ hc.1)]

/-- **The cleanup undoes the provisioning**: whatever was taken and written outside the tables of
the active root meanwhile, exactly the scratch tables are unlinked and given back. -/
theorem Provisioned.cleanup (hp : p.Physical) (hwf : WellFormed p m)
    (h : Provisioned p m prov m₁ m' l3 l2 l1) (hcr3 : m₂.cr3 = m.cr3)
    (htake : p.Taken m'.bitmap S m₂.bitmap)
    (hmem : ∀ f ∈ tables m'.mem m.cr3, m₂.mem f = m'.mem f) :
    p.Taken m.bitmap S (cleanupKernelScratch p m₂ prov).bitmap ∧
      (∀ f ∈ tables m.mem m.cr3, (cleanupKernelScratch p m₂ prov).mem f = m.mem f) ∧
      (∀ f, f ∉ tables m'.mem m.cr3 → (cleanupKernelScratch p m₂ prov).mem f = m₂.mem f) ∧
      (cleanupKernelScratch p m₂ prov).cr3 = m.cr3 := by
  obtain ⟨hwf₁, hwf', hcr3', hl3, hl2, hl3', hl2', _⟩ := h.spec hp hwf
  have hcr3₁ := h.pd.cr3
  have hl2₁ : frameAt tableOf m₁.mem m₁.cr3 [scratchIndex, 0] = some l2 := by
    rw [hcr3₁]
    exact hl2
  obtain ⟨_, htab₃, _, hold₁, _, hnewPd⟩ := h.pd.wf hp hwf hl3 (by simp)
  obtain ⟨_, htab₂, _, hold', _, hnewPt⟩ := h.pt.wf hp hwf₁ hl2₁ (by simp)
  rw [hcr3₁] at hold' hnewPt
  have hin : ∀ f ∈ tables m.mem m.cr3, f ∈ tables m₁.mem m.cr3 := by
    rintro f ⟨path, hpath⟩
    exact ⟨path, hold₁ path f hpath⟩
  have hin₁ : ∀ f ∈ tables m₁.mem m.cr3, f ∈ tables m'.mem m.cr3 := by
    rintro f ⟨path, hpath⟩
    exact ⟨path, hold' path f hpath⟩
  have hmem₁ : ∀ f ∈ tables m₁.mem m₁.cr3, m₂.mem f = m'.mem f := by
    rw [hcr3₁]
    exact fun f hf => hmem f (hin₁ f hf)
  -- first the PT, then the PD
  obtain ⟨htake₁, hkeep₁, hrest₁, hcr₁⟩ := h.pt.undo hwf₁ hl2₁ htake hmem₁
  rw [hcr3₁] at hkeep₁ hrest₁
  obtain ⟨htake₀, hkeep₀, hrest₀, hcr₀⟩ := h.pd.undo hwf hl3 htake₁
    (fun f hf => hkeep₁ f (hin f hf))
  have hreclaim₂ : reclaimScratch p m₂ l2 0 prov.newPt = unlinkScratch p m₂ l2 0 prov.newPt := by
    apply reclaimScratch_eq
    intro hne
    obtain ⟨_, haddr, hzero⟩ := hnewPt hne
    have hmem₂ : m₂.mem l2 = m'.mem l2 := hmem l2 ⟨_, hl2'⟩
    have hnewmem : prov.newPt ∈ tables m'.mem m.cr3 := by
      refine ⟨[0, scratchIndex, 0], ?_⟩
      rw [frameAt_cons_of hl2', tableOf_of_isTable (by simp) htab₂, haddr]
    rw [hmem₂, hmem _ hnewmem]
    exact ⟨haddr, (isTable_eq_true.mp htab₂).2, hzero⟩
  have hreclaim₃ : ∀ m₃, m₃ = unlinkScratch p m₂ l2 0 prov.newPt →
      reclaimScratch p m₃ l3 scratchIndex prov.newPd =
        unlinkScratch p m₃ l3 scratchIndex prov.newPd := by
    rintro m₃ rfl
    apply reclaimScratch_eq
    intro hne
    obtain ⟨_, haddr, hzero⟩ := hnewPd hne
    have hnewmem : prov.newPd ∈ tables m₁.mem m.cr3 := by
      refine ⟨[scratchIndex, 0], ?_⟩
      rw [frameAt_cons_of (hold₁ _ _ hl3), tableOf_of_isTable (by simp) htab₃, haddr]
    rw [hkeep₁ l3 ⟨_, hold₁ _ _ hl3⟩, hkeep₁ _ hnewmem]
    exact ⟨haddr, (isTable_eq_true.mp htab₃).2, hzero⟩
  have hclean : cleanupKernelScratch p m₂ prov =
      unlinkScratch p (unlinkScratch p m₂ l2 0 prov.newPt) l3 scratchIndex prov.newPd := by
    have hroot : m₂.mem m₂.cr3 0 = m.mem m.cr3 0 := by
      rw [hcr3, hmem _ root_mem_footprint, h.root_entry hp hwf]
    have he3 : m₂.mem l3 scratchIndex = m'.mem l3 scratchIndex := by rw [hmem l3 ⟨_, hl3'⟩]
    have htab₃' : isTable (m'.mem l3 scratchIndex) = true ∧
        entryAddr (m'.mem l3 scratchIndex) = l2 := by
      have hpd := hl2'
      rw [frameAt_cons_of hl3'] at hpd
      simp only [tableOf] at hpd
      split_ifs at hpd with htab
      exact ⟨htab, Option.some.inj hpd⟩
    obtain ⟨hpr₃, hhuge₃⟩ := isTable_eq_true.mp htab₃'.1
    unfold cleanupKernelScratch
    by_cases hboth : prov.newPd = 0 ∧ prov.newPt = 0
    · rw [if_pos hboth]
      simp [unlinkScratch, hboth.1, hboth.2]
    · rw [if_neg hboth]
      simp only [hroot, h.root.1, h.root.2.1, h.root.2.2, he3, hpr₃, hhuge₃, htab₃'.2, Bool.not_true,
        Bool.or_self, Bool.false_eq_true, ↓reduceIte]
      rw [hreclaim₂, hreclaim₃ _ rfl]
  rw [hclean]
  refine ⟨htake₀, hkeep₀, ?_, ?_⟩
  · intro f hf
    rw [hrest₀ f (fun hc => hf (hin₁ f (hin f hc))), hrest₁ f (fun hc => hf (hin₁ f hc))]
  · rw [hcr₀, hcr₁, hcr3]

/-- **Provisioning** either fails and leaves the bitmap and all frames in use as they were, or
provisions the scratch walk. -/
theorem provisionKernelScratch_spec (hp : p.Physical) (hwf : WellFormed p m) :
    (∃ m', provisionKernelScratch p m = (m', none) ∧ m'.bitmap = m.bitmap ∧ m'.cr3 = m.cr3 ∧
      ∀ f, f ∉ p.freeFrames m.bitmap → m'.mem f = m.mem f) ∨
    ∃ prov m₁ m' l3 l2 l1, provisionKernelScratch p m = (m', some prov) ∧
      Provisioned p m prov m₁ m' l3 l2 l1 := by
  unfold provisionKernelScratch
  by_cases hroot : (!present (m.mem m.cr3 0) || huge (m.mem m.cr3 0)) = true
  · rw [if_pos hroot]
    exact Or.inl ⟨m, rfl, rfl, rfl, fun _ _ => rfl⟩
  · rw [if_neg hroot]
    have hroot' : present (m.mem m.cr3 0) = true ∧ huge (m.mem m.cr3 0) = false := by
      simpa [not_or] using hroot
    have hl3 := frameAt_pdpt hroot'.1
    rcases linkScratch_spec hp (hwf.zero _ ⟨_, hl3⟩ scratchIndex) with
      hfail | ⟨newPd, m₁, hlink, hpd⟩
    · simp only [hfail]
      exact Or.inl ⟨m, rfl, rfl, rfl, fun _ _ => rfl⟩
    · simp only [hlink]
      obtain ⟨hwf₁, _, hl2, _⟩ := hpd.wf hp hwf hl3 (by simp)
      have hcr3₁ := hpd.cr3
      have hl2₁ : frameAt tableOf m₁.mem m₁.cr3 [scratchIndex, 0] =
          some (entryAddr (m₁.mem (entryAddr (m.mem m.cr3 0)) scratchIndex)) := by
        rw [hcr3₁]
        exact hl2
      have hundo : ∀ m₂ : Mach, m₂.bitmap = m₁.bitmap → m₂.cr3 = m.cr3 →
          (∀ f, f ∉ p.freeFrames m.bitmap → m₂.mem f = m₁.mem f) →
          ∃ m', unlinkScratch p m₂ (entryAddr (m.mem m.cr3 0)) scratchIndex newPd = m' ∧
            m'.bitmap = m.bitmap ∧ m'.cr3 = m.cr3 ∧
            ∀ f, f ∉ p.freeFrames m.bitmap → m'.mem f = m.mem f := by
        intro m₂ hbm hcr hsame
        have htake : p.Taken m₁.bitmap ∅ m₂.bitmap := by
          rw [hbm]
          exact PmmAllocator.Taken.refl _ _
        obtain ⟨hback, _, _, hcr'⟩ :=
          hpd.undo hwf hl3 htake fun f hf => hsame f (hwf.used f hf)
        exact ⟨_, rfl, hback.eq, hcr'.trans hcr, fun _ => hpd.undo_used hwf hl3 htake hsame⟩
      rcases linkScratch_spec hp (hwf₁.zero _ ⟨_, hl2₁⟩ 0) with hfail | ⟨newPt, m', hlink', hpt⟩
      · rw [hfail]
        obtain ⟨m', hm', h⟩ := hundo m₁ rfl hcr3₁ (fun _ _ => rfl)
        exact Or.inl ⟨m', by simp only [hm'], h⟩
      · rw [hlink']
        by_cases hleaf : m'.mem (entryAddr (m'.mem
            (entryAddr (m₁.mem (entryAddr (m.mem m.cr3 0)) scratchIndex)) 0)) 0 = 0#64
        · right
          refine ⟨⟨newPd, newPt⟩, m₁, m', _, _, _, ?_,
            ⟨⟨hroot'.1, hroot'.2, rfl⟩, hpd, rfl, hpt, rfl, hleaf⟩⟩
          simp [hleaf]
        · left
          have htake := PmmAllocator.Taken.refl p m'.bitmap
          obtain ⟨hback, _, _, hcr'⟩ := hpt.undo hwf₁ hl2₁ htake (fun _ _ => rfl)
          obtain ⟨m'', hm'', h⟩ := hundo _ hback.eq (hcr'.trans (hpt.cr3.trans hcr3₁))
            (fun _ hf => hpt.undo_used hwf₁ hl2₁ htake (fun _ _ => rfl) (hpd.used hf))
          refine ⟨m'', ?_, h⟩
          simp only [hleaf, ne_eq, not_false_eq_true, ↓reduceIte, hm'']

end Provisioned

/-! ### Copying through the scratch mapping -/

theorem index_pdVaddr (i j k : Fin 512) :
    l4Index (pdVaddr i j + k * 0x1000) = 0 ∧ l3Index (pdVaddr i j + k * 0x1000) = i ∧
      l2Index (pdVaddr i j + k * 0x1000) = j ∧ l1Index (pdVaddr i j + k * 0x1000) = k := by
  have hi := i.isLt
  have hj := j.isLt
  have hk := k.isLt
  simp only [pdVaddr, l4Index, l3Index, l2Index, l1Index, Fin.ext_iff, Fin.val_zero]
  omega

theorem index_scratch : l4Index kernelScratchVa = 0 ∧ l3Index kernelScratchVa = scratchIndex ∧
    l2Index kernelScratchVa = 0 ∧ l1Index kernelScratchVa = 0 := by
  refine ⟨?_, ?_, ?_, ?_⟩
  · rfl
  · rfl
  · rfl
  · rfl

/-- The processor's walk along a path of tables to a 4 KiB page. -/
theorem walk_of_path {mem : PhysMem} {root v tp : ℕ}
    (hpath : frameAt tableOf mem root [l2Index v, l3Index v, l4Index v] = some tp)
    (hpr : present (mem tp (l1Index v)) = true) :
    walk mem root v = some (entryAddr (mem tp (l1Index v)) + v % 2 ^ 12) := by
  obtain ⟨pd, hpd, hown₂⟩ := frameAt_cons_eq_some.mp hpath
  obtain ⟨pdpt, hpdpt, hown₃⟩ := frameAt_cons_eq_some.mp hpd
  obtain ⟨rt, hrt, hown₄⟩ := frameAt_cons_eq_some.mp hpdpt
  obtain rfl : root = rt := Option.some.inj hrt
  simp only [tableOf] at hown₂ hown₃ hown₄
  split_ifs at hown₂ hown₃ hown₄ with h₂ h₃ h₄
  obtain rfl := Option.some.inj hown₄
  obtain rfl := Option.some.inj hown₃
  obtain rfl := Option.some.inj hown₂
  simp only [Bool.and_eq_true, Bool.not_eq_true'] at h₂ h₃
  simp [walk, h₂.1, h₂.2, h₃.1, h₃.2, h₄, hpr]

theorem kernelScratchPte_eq {l1 : ℕ} (hhuge : huge (m.mem m.cr3 0) = false)
    (hpath : frameAt tableOf m.mem m.cr3 [0, scratchIndex, 0] = some l1) :
    kernelScratchPte m = some l1 := by
  obtain ⟨pd, hpd, hown₂⟩ := frameAt_cons_eq_some.mp hpath
  obtain ⟨pdpt, hpdpt, hown₃⟩ := frameAt_cons_eq_some.mp hpd
  obtain ⟨rt, hrt, hown₄⟩ := frameAt_cons_eq_some.mp hpdpt
  obtain rfl : m.cr3 = rt := Option.some.inj hrt
  simp only [tableOf] at hown₂ hown₃ hown₄
  split_ifs at hown₂ hown₃ hown₄ with h₂ h₃ h₄
  obtain rfl := Option.some.inj hown₄
  obtain rfl := Option.some.inj hown₃
  obtain rfl := Option.some.inj hown₂
  simp only [Bool.and_eq_true, Bool.not_eq_true'] at h₂ h₃
  simp [kernelScratchPte, h₂.1, h₂.2, h₃.1, h₃.2, h₄, hhuge]

/-- **Copying through the scratch mapping** changes the child frame only, and copies the page the
source address maps, unless that page is the scratch PT itself. -/
theorem copyThroughScratch_spec {l1 tp child : ℕ} (hwf : WellFormed p m)
    (hhuge : huge (m.mem m.cr3 0) = false)
    (hscr : frameAt tableOf m.mem m.cr3 [0, scratchIndex, 0] = some l1)
    (hleaf : m.mem l1 0 = 0#64)
    (hsrc : frameAt tableOf m.mem m.cr3 [j, i, 0] = some tp) (hi : i ≠ scratchIndex)
    (hpr : present (m.mem tp k) = true) (hchild : IsFrame child)
    (hfresh : child ∉ tables m.mem m.cr3) :
    ∃ w, copyUserPageThroughScratch m (pdVaddr i j + k * 0x1000) child =
        some ({ m with mem := m.mem.setFrame child w }, true) ∧
      (entryAddr (m.mem tp k) ≠ l1 → w = m.mem (entryAddr (m.mem tp k))) := by
  set mem₁ := m.mem.setSlot l1 0 (mkEntry child pageKernel) with hmem₁
  have hcl : child ≠ l1 := by
    rintro rfl
    exact hfresh ⟨_, hscr⟩
  have hframe : ∀ q, frameAt tableOf mem₁ m.cr3 q = frameAt tableOf m.mem m.cr3 q := by
    apply frameAt_of_own_eq
    intro q t x hq
    by_cases ht : t = l1
    · obtain rfl := hwf.priv q _ t hq (ht ▸ hscr)
      rfl
    · rw [hmem₁, PhysMem.setSlot_frame_ne _ ht]
  have htp : tp ≠ l1 := by
    rintro rfl
    have := hwf.priv _ _ _ hsrc hscr
    simp only [List.cons.injEq, and_true] at this
    exact hi this.2
  obtain ⟨i4, i3, i2, i1⟩ := index_pdVaddr i j k
  obtain ⟨s4, s3, s2, s1⟩ := index_scratch
  have hwalkSrc : walk mem₁ m.cr3 (pdVaddr i j + k * 0x1000) =
      some (entryAddr (m.mem tp k)) := by
    have hpt : mem₁ tp k = m.mem tp k := by rw [hmem₁, PhysMem.setSlot_frame_ne _ htp]
    have hpath : frameAt tableOf mem₁ m.cr3 [l2Index (pdVaddr i j + k * 0x1000),
        l3Index (pdVaddr i j + k * 0x1000), l4Index (pdVaddr i j + k * 0x1000)] = some tp := by
      rw [i2, i3, i4, hframe, hsrc]
    rw [walk_of_path hpath (by rw [i1, hpt, hpr]), i1, hpt]
    have hmod : (pdVaddr i j + k * 0x1000) % 2 ^ 12 = 0 := by
      simp only [pdVaddr]
      omega
    rw [hmod, Nat.add_zero]
  have hwalkDst : walk mem₁ m.cr3 kernelScratchVa = some child := by
    have hpt : mem₁ l1 0 = mkEntry child pageKernel := by rw [hmem₁, PhysMem.setSlot_same]
    have hpath : frameAt tableOf mem₁ m.cr3 [l2Index kernelScratchVa, l3Index kernelScratchVa,
        l4Index kernelScratchVa] = some l1 := by rw [s2, s3, s4, hframe, hscr]
    rw [walk_of_path hpath (by rw [s1, hpt, present_mkEntry hchild]; rfl), s1, hpt,
      entryAddr_mkEntry hchild noAddr_pageKernel]
    rfl
  refine ⟨mem₁ (entryAddr (m.mem tp k)), ?_, ?_⟩
  · have hpte : present (m.mem l1 0) = false := by rw [hleaf, present_zero]
    simp only [copyUserPageThroughScratch, kernelScratchPte_eq hhuge hscr, hpte, copyPage,
      Mach.write, ← hmem₁, hwalkSrc, hwalkDst, Bool.false_eq_true, ↓reduceIte, Option.some.injEq,
      Prod.mk.injEq, and_true, Mach.mk.injEq]
    funext f y
    simp only [hmem₁, PhysMem.setSlot, PhysMem.setFrame]
    by_cases hfl : f = l1 ∧ y = 0
    · rw [if_pos hfl, if_neg (by rw [hfl.1]; exact hcl.symm), hfl.1, hfl.2, hleaf]
    · rw [if_neg hfl]
      by_cases hfc : f = child
      · rw [if_pos hfc, if_pos hfc]
      · rw [if_neg hfc, if_neg hfc, PhysMem.setSlot_apply, if_neg hfl]
  · intro hne
    rw [hmem₁, PhysMem.setSlot_frame_ne _ hne]

end Vibix.Paging
