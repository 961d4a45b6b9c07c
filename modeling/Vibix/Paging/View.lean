import Vibix.Paging.MapPage

/-! # Address spaces

What a root means to the processor, for kernel accesses (`walk`) and for user accesses (`userWalk`),
is determined page by page by two entries, that of the 4 KiB page (`leafEntry`) and that of the 2 MiB
page (`hugeEntry`): `walk_view` and `userWalk_view`.

`ProcessSpace` is what holds of the root of a process: its tables are in order, user mode reaches all
of them, and user pages are neither tables nor free.  Mapping a fresh frame at an address that is not
part of a huge page changes one leaf (`map4k_page`), and keeps this (`ProcessSpace.mapped`). -/

namespace Vibix.Paging

open FrameTree

/-- The walk of the processor for a user access. -/
def userWalk (mem : PhysMem) (root v : ℕ) : Option ℕ :=
  let l4e := mem root (l4Index v)
  if !(present l4e && user l4e) then none
  else
    let l3e := mem (entryAddr l4e) (l3Index v)
    if !(present l3e && user l3e) then none
    else if huge l3e then some (entryAddr l3e / 2 ^ 30 * 2 ^ 30 + v % 2 ^ 30)
    else
      let l2e := mem (entryAddr l3e) (l2Index v)
      if !(present l2e && user l2e) then none
      else if huge l2e then some (entryAddr l2e / 2 ^ 21 * 2 ^ 21 + v % 2 ^ 21)
      else
        let l1e := mem (entryAddr l2e) (l1Index v)
        if !(present l1e && user l1e) then none else some (entryAddr l1e + v % 2 ^ 12)

/-- Where a 2 MiB page takes an address. -/
def hugeAddr (e : BitVec 64) (v : ℕ) : ℕ := entryAddr e / 2 ^ 21 * 2 ^ 21 + v % 2 ^ 21

section View

variable {mem mem' : PhysMem} {root v t : ℕ}

/-- The PDPT of an address. -/
theorem pdptAt (h : present (mem root (l4Index v)) = true) :
    frameAt tableOf mem root [l4Index v] = some (entryAddr (mem root (l4Index v))) := by
  rw [frameAt_cons_of rfl]
  simp [tableOf, h]

/-- **The processor's walk**, seen page by page. -/
theorem walk_view (hg : NoGiant mem root) :
    walk mem root v =
      if present (hugeEntry mem root v) then some (hugeAddr (hugeEntry mem root v) v)
      else if present (leafEntry mem root v) then
        some (entryAddr (leafEntry mem root v) + v % 2 ^ 12)
      else none := by
  unfold walk hugeEntry leafEntry hugeAddr
  by_cases h4 : present (mem root (l4Index v)) = true
  · have hg3 := hg _ _ (l3Index v) (pdptAt h4) (by simp)
    generalize ht3 : entryAddr (mem root (l4Index v)) = t3 at *
    by_cases h3 : present (mem t3 (l3Index v)) = true
    · generalize ht2 : entryAddr (mem t3 (l3Index v)) = t2
      by_cases h2 : present (mem t2 (l2Index v)) = true
      · by_cases hh : huge (mem t2 (l2Index v)) = true
        · simp [frameAt, tableOf, h4, ht3, h3, hg3 h3, ht2, h2, hh]
        · by_cases h1 : present (mem (entryAddr (mem t2 (l2Index v))) (l1Index v)) = true
          · simp [frameAt, tableOf, h4, ht3, h3, hg3 h3, ht2, h2, hh, h1]
          · simp [frameAt, tableOf, h4, ht3, h3, hg3 h3, ht2, h2, hh, h1]
      · by_cases hh : huge (mem t2 (l2Index v)) = true
        · simp [frameAt, tableOf, h4, ht3, h3, hg3 h3, ht2, h2, hh]
        · simp [frameAt, tableOf, h4, ht3, h3, hg3 h3, ht2, h2, hh]
    · simp [frameAt, tableOf, h4, ht3, h3]
  · simp [frameAt, tableOf, h4]

/-- **`translate_in_pml4`**, seen page by page. -/
theorem translate_view (hg : NoGiant mem root) :
    translateInPml4 mem v root =
      if present (hugeEntry mem root v) then
        some (entryAddr (hugeEntry mem root v) ||| v % 2 ^ 21)
      else if present (leafEntry mem root v) then
        some (entryAddr (leafEntry mem root v) ||| v % 2 ^ 12)
      else none := by
  unfold translateInPml4 hugeEntry leafEntry
  by_cases h4 : present (mem root (l4Index v)) = true
  · have hg3 := hg _ _ (l3Index v) (pdptAt h4) (by simp)
    generalize ht3 : entryAddr (mem root (l4Index v)) = t3 at *
    by_cases h3 : present (mem t3 (l3Index v)) = true
    · generalize ht2 : entryAddr (mem t3 (l3Index v)) = t2
      by_cases h2 : present (mem t2 (l2Index v)) = true
      · by_cases hh : huge (mem t2 (l2Index v)) = true
        · simp [frameAt, tableOf, h4, ht3, h3, hg3 h3, ht2, h2, hh]
        · by_cases h1 : present (mem (entryAddr (mem t2 (l2Index v))) (l1Index v)) = true
          · simp [frameAt, tableOf, h4, ht3, h3, hg3 h3, ht2, h2, hh, h1]
          · simp [frameAt, tableOf, h4, ht3, h3, hg3 h3, ht2, h2, hh, h1]
      · by_cases hh : huge (mem t2 (l2Index v)) = true
        · simp [frameAt, tableOf, h4, ht3, h3, hg3 h3, ht2, h2, hh]
        · simp [frameAt, tableOf, h4, ht3, h3, hg3 h3, ht2, h2, hh]
    · simp [frameAt, tableOf, h4, ht3, h3]
  · simp [frameAt, tableOf, h4]

/-- **The walk for user accesses**, seen page by page. -/
theorem userWalk_view (hg : NoGiant mem root) (hu : UserTables mem root) :
    userWalk mem root v =
      if present (hugeEntry mem root v) && user (hugeEntry mem root v) then
        some (hugeAddr (hugeEntry mem root v) v)
      else if isUserLeaf (leafEntry mem root v) then
        some (entryAddr (leafEntry mem root v) + v % 2 ^ 12)
      else none := by
  have htab : ∀ {q t x}, frameAt tableOf mem root q = some t → q.length ≤ 2 →
      present (mem t x) = true → huge (mem t x) = false → user (mem t x) = true :=
    fun hq hlen hpr hh => hu _ _ _ hq hlen (isTable_eq_true.mpr ⟨hpr, hh⟩)
  unfold userWalk hugeEntry leafEntry hugeAddr isUserLeaf
  by_cases h4 : present (mem root (l4Index v)) = true
  · have hu4 := htab (q := []) rfl (by simp) h4 (hg [] _ _ rfl (by simp) h4)
    have hp3 := pdptAt h4
    have hg3 := hg _ _ (l3Index v) hp3 (by simp)
    generalize ht3 : entryAddr (mem root (l4Index v)) = t3 at *
    by_cases h3 : present (mem t3 (l3Index v)) = true
    · have hu3 := htab hp3 (by simp) h3 (hg3 h3)
      have hp2 : frameAt tableOf mem root [l3Index v, l4Index v] =
          some (entryAddr (mem t3 (l3Index v))) := by
        rw [frameAt_cons_of hp3]
        simp [tableOf, h3, hg3 h3]
      generalize ht2 : entryAddr (mem t3 (l3Index v)) = t2 at *
      by_cases h2 : present (mem t2 (l2Index v)) = true
      · by_cases hh : huge (mem t2 (l2Index v)) = true
        · cases hu2 : user (mem t2 (l2Index v)) <;>
            simp [frameAt, tableOf, h4, hu4, ht3, h3, hu3, hg3 h3, ht2, h2, hh, hu2]
        · have hu2 := htab hp2 (by simp) h2 (by simpa using hh)
          simp only [frameAt, tableOf, h4, hu4, ht3, h3, hu3, hg3 h3, ht2, h2, hu2, hh,
            Bool.and_self, Bool.not_true, Bool.not_false, Bool.false_eq_true, ↓reduceIte,
            Option.bind_some, Bool.not_eq_true']
          split_ifs <;> simp_all
      · by_cases hh : huge (mem t2 (l2Index v)) = true
        · simp [frameAt, tableOf, h4, hu4, ht3, h3, hu3, hg3 h3, ht2, h2, hh]
        · simp [frameAt, tableOf, h4, hu4, ht3, h3, hu3, hg3 h3, ht2, h2, hh]
    · simp [frameAt, tableOf, h4, ht3, h3]
  · simp [frameAt, tableOf, h4]

/-- A user access to a 4 KiB page. -/
theorem userWalk_of_userLeaf {e : BitVec 64} (h : userLeaf mem root v = some e) :
    userWalk mem root v = some (entryAddr e + v % 2 ^ 12) := by
  simp only [userLeaf] at h
  split_ifs at h with h4 h3 h2 h1
  simp only [Bool.not_eq_true', Bool.not_eq_false, isUserTable, isTable, isUserLeaf,
    Bool.and_eq_true] at h4 h3 h2 h1
  cases h
  simp [userWalk, h4, h3, h2, h1]

/-- Whether user mode reaches a leaf is known from the leaf, if it reaches all tables. -/
theorem userLeaf_view (hg : NoGiant mem root) (hu : UserTables mem root) :
    userLeaf mem root v =
      if isUserLeaf (leafEntry mem root v) then some (leafEntry mem root v) else none := by
  split
  next hleaf =>
    rw [userLeaf_eq_some]
    refine ⟨?_, hleaf, rfl⟩
    unfold leafEntry at hleaf
    split at hleaf
    next t1 ht1 =>
      obtain ⟨t2, ht2, hown₂⟩ := frameAt_cons_eq_some.mp ht1
      obtain ⟨t3, ht3, hown₃⟩ := frameAt_cons_eq_some.mp ht2
      obtain ⟨rt, hrt, hown₄⟩ := frameAt_cons_eq_some.mp ht3
      obtain rfl : root = rt := Option.some.inj hrt
      simp only [tableOf, Option.ite_none_right_eq_some] at hown₂ hown₃ hown₄
      have htab₄ : isTable (mem root (l4Index v)) = true :=
        isTable_eq_true.mpr ⟨hown₄.1, hg [] _ _ rfl (by simp) hown₄.1⟩
      refine ⟨t3, t2, ht3, ht2, ?_, ?_, ?_⟩
      · exact isUserTable_eq_true.mpr ⟨htab₄, hu [] _ _ rfl (by simp) htab₄⟩
      · exact isUserTable_eq_true.mpr ⟨hown₃.1, hu _ _ _ ht3 (by simp) hown₃.1⟩
      · exact isUserTable_eq_true.mpr ⟨hown₂.1, hu _ _ _ ht2 (by simp) hown₂.1⟩
    next => exact absurd hleaf (by decide)
  next hleaf =>
    cases h : userLeaf mem root v with
    | none => rfl
    | some e => exact absurd (userLeaf_eq_some.mp h).2.1 hleaf

end View

/-! ### Roots of processes -/

/-- What holds of the root of a process. -/
structure ProcessSpace (p : PmmAllocator) (m : Mach) (root : ℕ) : Prop where
  ok : TablesOk p m root
  noGiant : NoGiant m.mem root
  userTables : UserTables m.mem root
  /-- User pages are neither free nor tables. -/
  leaf : ∀ v, isUserLeaf (leafEntry m.mem root v) = true →
    entryAddr (leafEntry m.mem root v) ∉ p.freeFrames m.bitmap ∧
      entryAddr (leafEntry m.mem root v) ∉ tables m.mem root

section Map

variable {p : PmmAllocator} {root v pa : ℕ} {m m' : Mach}

theorem hugeEntry_congr {mem mem' : PhysMem} (hmem : ∀ f ∈ tables mem root, mem' f = mem f)
    (w : ℕ) : hugeEntry mem' root w = hugeEntry mem root w := by
  unfold hugeEntry
  rw [frameAt_of_eqOn hmem]
  cases ht : frameAt tableOf mem root [l3Index w, l4Index w] with
  | none => rfl
  | some t => simp only [hmem t ⟨_, ht⟩]

theorem UserTables.congr {mem mem' : PhysMem} (h : UserTables mem root)
    (hmem : ∀ f ∈ tables mem root, mem' f = mem f) : UserTables mem' root := by
  intro q t x hq
  rw [frameAt_of_eqOn hmem] at hq
  rw [hmem t ⟨q, hq⟩]
  exact h q t x hq

/-- A 2 MiB page is present. -/
theorem present_hugeEntry (hok : TablesOk p m root) (h : hugeEntry m.mem root v ≠ 0#64) :
    present (hugeEntry m.mem root v) = true := by
  unfold hugeEntry at h ⊢
  cases ht : frameAt tableOf m.mem root [l3Index v, l4Index v] with
  | none => simp [ht] at h
  | some t =>
    simp only [ht] at h ⊢
    split_ifs at h ⊢ with hh
    · by_contra hc
      exact h (hok.zero t ⟨_, ht⟩ _ (by simpa using hc))
    · exact absurd rfl h

/-- Frames that are free may change, and be taken. -/
theorem Kept.of_used (h : TablesOk p m root) (hg : NoGiant m.mem root)
    (hmem : ∀ f, f ∉ p.freeFrames m.bitmap → m'.mem f = m.mem f)
    (hfree : p.freeFrames m'.bitmap ⊆ p.freeFrames m.bitmap)
    (hstill : ∀ f ∈ p.freeFrames m'.bitmap, m'.mem f = m.mem f) : Kept p root m m' := by
  have htab : ∀ f ∈ tables m.mem root, m'.mem f = m.mem f := fun f hf => hmem f (h.used f hf)
  refine ⟨h.congr htab fun f hf hc => hf (hfree hc), hg.congr htab, fun w hw => hw.congr htab,
    hugeEntry_congr htab, fun hu => hu.congr htab, ?_, hfree, fun f _ hf => hmem f hf, hstill⟩
  intro f hf
  rw [tables, footprint_congr (frameAt_of_eqOn htab)] at hf
  exact .inl hf

/-- **`map_4k` of a user page** that is not part of a huge page, in any root: the page is mapped,
unless it is the scratch page. -/
theorem map4k_page (hp : p.Physical) (h : TablesOk p m root) (hg : NoGiant m.mem root)
    (hpa : IsFrame pa) (hhuge : inKernelScratch v = false → hugeEntry m.mem root v = 0#64)
    (hrun : map4k p m root v pa pageUserRw = some m') :
    Kept p root m m' ∧ ∀ w, leafEntry m'.mem root w =
      if inKernelScratch v = false ∧ SamePage w v then mkEntry pa pageUserRw
      else leafEntry m.mem root w := by
  unfold map4k at hrun
  simp only [user_pageUserRw, Bool.true_and] at hrun
  split at hrun
  next hscratch =>
    cases hrun
    exact ⟨(Grown.refl h hg).kept, by simp [hscratch]⟩
  next hscratch =>
    obtain ⟨m₁, res, htab, hgrown, hres⟩ :=
      tablesFor_grown hp h hg (hhuge (by simpa using hscratch))
    rw [htab] at hrun
    match res, hres with
    | none, _ => cases hrun
    | some (l3, l2, l1), hres =>
      cases hrun
      obtain ⟨hl3, hl2, hl1, htab₄, htab₃, htab₂⟩ := hres l3 l2 l1 rfl
      obtain ⟨hk, -, hleaf⟩ :=
        mapLeaf_page hgrown.ok hgrown.noGiant hpa hl3 hl2 hl1 htab₄ htab₃ htab₂
      refine ⟨hgrown.kept.trans hk, fun w => ?_⟩
      rw [hleaf, hgrown.leafEntry_eq]
      simp [hscratch]

/-- Frames that are free may change, and be taken. -/
theorem ProcessSpace.congr (h : ProcessSpace p m root)
    (hmem : ∀ f, f ∉ p.freeFrames m.bitmap → m'.mem f = m.mem f)
    (hfree : p.freeFrames m'.bitmap ⊆ p.freeFrames m.bitmap) : ProcessSpace p m' root := by
  have htab : ∀ f ∈ tables m.mem root, m'.mem f = m.mem f := fun f hf => hmem f (h.ok.used f hf)
  refine ⟨h.ok.congr htab fun f hf hc => hf (hfree hc), h.noGiant.congr htab,
    h.userTables.congr htab, fun w hw => ?_⟩
  rw [leafEntry_congr htab] at hw ⊢
  obtain ⟨hused, hntab⟩ := h.leaf w hw
  refine ⟨fun hc => hused (hfree hc), ?_⟩
  rwa [tables, footprint_congr (frameAt_of_eqOn htab)]

/-- A root that was kept, with one leaf more. -/
theorem ProcessSpace.mapped {c : Prop} [Decidable c] (h : ProcessSpace p m root)
    (hpa : IsFrame pa) (hk : Kept p root m m') (hfree : pa ∉ p.freeFrames m.bitmap)
    (htab : pa ∉ tables m.mem root)
    (hleaf : ∀ w, leafEntry m'.mem root w =
      if c ∧ SamePage w v then mkEntry pa pageUserRw else leafEntry m.mem root w) :
    ProcessSpace p m' root := by
  have hkeep : ∀ f, f ∉ p.freeFrames m.bitmap → f ∉ tables m.mem root →
      f ∉ p.freeFrames m'.bitmap ∧ f ∉ tables m'.mem root :=
    fun f hf ht => ⟨fun hc => hf (hk.free hc), fun hc => (hk.table_cases f hc).elim ht hf⟩
  refine ⟨hk.ok, hk.noGiant, hk.userTables h.userTables, fun w hw => ?_⟩
  rw [hleaf] at hw ⊢
  split_ifs at hw ⊢ with hc
  · rw [entryAddr_mkEntry hpa noAddr_pageUserRw]
    exact hkeep pa hfree htab
  · exact hkeep _ (h.leaf w hw).1 (h.leaf w hw).2

end Map

section Boot

variable {l4 l3 l2 : ℕ}

theorem bootMem_userTables (h : BootFrames l4 l3 l2) : UserTables (bootMem l4 l3 l2) l4 := by
  intro q t x hq hlen htab
  obtain ⟨hpr, hh⟩ := isTable_eq_true.mp htab
  rcases frameAt_bootMem h hq with ⟨rfl, rfl⟩ | ⟨rfl, rfl⟩ | ⟨rfl, rfl⟩
  · rw [bootMem_l4] at hpr ⊢
    split_ifs at hpr ⊢
    · rw [user_mkEntry h.pdpt, user_pageUserRw]
    · simp at hpr
  · rw [bootMem_l3 h] at hpr ⊢
    split_ifs at hpr ⊢
    · rw [user_mkEntry h.pd, user_pageUserRw]
    · simp at hpr
  · rw [bootMem_l2 h] at hpr hh
    split_ifs at hpr hh
    · rw [huge_mkEntry (isFrame_identity x)] at hh
      exact absurd hh (by decide)
    · simp at hpr

/-- After boot there are no 4 KiB pages. -/
theorem bootMem_leafEntry (h : BootFrames l4 l3 l2) (v : ℕ) :
    leafEntry (bootMem l4 l3 l2) l4 v = 0#64 := by
  unfold leafEntry
  split
  next t ht =>
    rcases frameAt_bootMem h ht with ⟨hq, -⟩ | ⟨hq, -⟩ | ⟨hq, -⟩ <;> simp [ptPath] at hq
  next => rfl

end Boot

end Vibix.Paging
