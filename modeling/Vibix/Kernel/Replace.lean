import Vibix.Kernel.Clone
import Vibix.Kernel.Image
import Vibix.Kernel.Protect

/-! # What is left of the old program

An image is built in a root that is created without the user pages of the caller, so nothing of the old
program should be accessible in it (`ImageOnly`).  But the root shares with the active one all that is
under `PML4[1..511]`, and all that is below `USER_CODE_ADDR`, and `sys_mmap` puts user pages in both
places.

`image_only_iff`: the user pages of a new image are those of its file exactly if the user pages of the
caller all lie under `PML4[0]`, from `USER_CODE_ADDR` on.  `image_keeps_high_page` is an address space
of which a page is left. -/

namespace Vibix.Kernel

open Paging Proc Elf FrameTree

/-- What user mode can access in the new root are the pages `S`, and no frame of a user page of the
active root of `m` is among them. -/
structure ImageOnly (S : Set ℕ) (m m' : Mach) (root : ℕ) : Prop where
  pages : ∀ v < 2 ^ 64, canonical v = true → (Accessible m'.mem root v ↔ pageDown v ∈ S)
  frames : ∀ v e, userLeaf m.mem m.cr3 v = some e → ∀ w < 2 ^ 64, canonical w = true →
    ∀ e', userLeaf m'.mem root w = some e' → entryAddr e' ≠ entryAddr e

/-- The user pages of the active root are under `PML4[0]`, from `USER_CODE_ADDR` on. -/
def UserConfined (m : Mach) : Prop :=
  ∀ v < 2 ^ 64, canonical v = true → Accessible m.mem m.cr3 v → userCodeAddr ≤ v ∧ v < 2 ^ 39

section

variable {p : PmmAllocator} {m m₁ m' : Mach} {r v : ℕ} {S : Set ℕ}

/-- User mode has access to a page of a created root if it has in the active one, under `PML4[1..511]`
and below `USER_CODE_ADDR`. -/
theorem accessible_created (h : Created p m false m₁ (some r)) (hs : ProcessSpace p m m.cr3) :
    Accessible m₁.mem r v ↔ Accessible m.mem m.cr3 v ∧
      ¬ (l4Index v = 0 ∧ userCodeAddr ≤ pdVaddr (l3Index v) (l2Index v)) := by
  rw [accessible_iff (h.space hs), accessible_iff hs]
  by_cases h4 : l4Index v = 0
  · by_cases hhigh : userCodeAddr ≤ pdVaddr (l3Index v) (l2Index v)
    · obtain ⟨hleaf, hhuge⟩ := h.empty hs.noGiant h4 hhigh
      rw [hleaf, hhuge]
      simp [h4, hhigh, isUserLeaf, present]
    · have hlow := Nat.lt_of_not_le hhigh
      rw [h.leafEntry_low hs.ok hs.noGiant h4 hlow, h.hugeEntry_low hs.ok hs.noGiant h4 hlow]
      simp [hhigh]
  · rw [h.leafEntry_shared hs.ok h4, h.hugeEntry_shared hs.ok h4]
    simp [h4]

/-- In terms of the address. -/
theorem low_iff (hv : v < 2 ^ 64) (hcan : canonical v = true) :
    (l4Index v = 0 ∧ userCodeAddr ≤ pdVaddr (l3Index v) (l2Index v)) ↔
      userCodeAddr ≤ v ∧ v < 2 ^ 39 := by
  simp only [canonical, Bool.or_eq_true, decide_eq_true_eq] at hcan
  simp only [l4Index, l3Index, l2Index, pdVaddr, userCodeAddr, Fin.ext_iff, Fin.val_zero]
  omega

/-- Pages are added to those that user mode could access. -/
theorem accessible_populated (hp : p.Physical) (hs₁ : ProcessSpace p m₁ r)
    (h : Populated p r S m₁ m') :
    Accessible m'.mem r v ↔ Covers S v ∨ Accessible m₁.mem r v := by
  rw [accessible_iff h.ext.space, accessible_iff hs₁, h.ext.kept.huges]
  by_cases hcov : Covers S v
  · obtain ⟨w, hw, hns, hsame⟩ := hcov
    obtain ⟨f, hfree, hleaf⟩ := h.ext.mapped v w hw hns hsame
    have hframe := isFrame_of_free hp hfree
    have huser : isUserLeaf (leafEntry m'.mem r v) = true := by
      rw [hleaf, isUserLeaf_eq_true, present_mkEntry hframe, user_mkEntry hframe]
      exact ⟨present_pageUserRw, user_pageUserRw⟩
    exact ⟨fun _ => .inl ⟨w, hw, hns, hsame⟩, fun _ => .inr huser⟩
  · rw [h.ext.outside hcov]
    simp [hcov]

/-- What was mapped was not accessible before. -/
theorem not_accessible_covered (hs₁ : ProcessSpace p m₁ r) (h : Populated p r S m₁ m')
    (hcov : Covers S v) : ¬ Accessible m₁.mem r v := by
  obtain ⟨w, hw, -, hsame⟩ := hcov
  obtain ⟨-, hleaf, hhuge⟩ := h.fresh w hw
  rw [accessible_iff hs₁, leafEntry_samePage hsame, hugeEntry_samePage hsame, hhuge,
    isUserLeaf_eq_true, isUserLeaf_eq_true, hleaf]
  simp [present]

/-- An address is covered by pages if it lies in one of them. -/
theorem covers_iff (h : Populated p r S m₁ m') (hS : ∀ v ∈ S, IsPage v) (hv : v < 2 ^ 64)
    (hcan : canonical v = true) : Covers S v ↔ pageDown v ∈ S := by
  have hdown : v / 4096 * 4096 % 4096 = 0 := by omega
  constructor
  · rintro ⟨w, hw, -, hsame⟩
    obtain ⟨hwcan, hw64, hwal⟩ := hS w hw
    have hpage := (samePage_iff hcan hwcan hv hw64).mp hsame
    have heq : pageDown v = w := by
      simp only [PhysMem.frameOf]
      omega
    rwa [heq]
  · intro hmem
    have hsame := samePage_add (v := pageDown v) (k := v % 4096) hdown (Nat.mod_lt _ (by norm_num))
    have heq : pageDown v + v % 4096 = v := by
      simp only [PhysMem.frameOf]
      omega
    rw [heq] at hsame
    exact ⟨_, hmem, (h.fresh _ hmem).1, hsame⟩

/-- A user page of the new root is one of `S`, in a frame that was free, if the created root has none. -/
theorem frame_of_covered (hp : p.Physical) (hc : Created p m false m₁ (some r))
    (h : Populated p r S m₁ m') (hcov : Covers S v) {e : BitVec 64}
    (he : userLeaf m'.mem r v = some e) : entryAddr e ∈ p.freeFrames m.bitmap := by
  obtain ⟨w, hw, hns, hsame⟩ := hcov
  obtain ⟨f, hfree, hleaf⟩ := h.ext.mapped v w hw hns hsame
  rw [userLeaf_view h.ext.space.noGiant h.ext.space.userTables, hleaf,
    Option.ite_none_right_eq_some] at he
  rw [← Option.some.inj he.2, entryAddr_mkEntry (isFrame_of_free hp hfree) noAddr_pageUserRw]
  have htaken := (hc.taken r rfl).free
  rw [htaken] at hfree
  exact hfree.1

/-- A created root in which the pages `S` are mapped. -/
theorem imageOnly_iff (hp : p.Physical) (hs : ProcessSpace p m m.cr3)
    (hc : Created p m false m₁ (some r)) (h : Populated p r S m₁ m') (hS : ∀ v ∈ S, IsPage v) :
    ImageOnly S m m' r ↔ UserConfined m := by
  have hs₁ := hc.space hs
  constructor
  · intro honly v hv hcan hacc
    rw [← low_iff hv hcan]
    by_contra hout
    have hacc₁ := (accessible_created hc hs).mpr ⟨hacc, hout⟩
    have hmem := (honly.pages v hv hcan).mp ((accessible_populated hp hs₁ h).mpr (.inr hacc₁))
    exact not_accessible_covered hs₁ h ((covers_iff h hS hv hcan).mpr hmem) hacc₁
  · intro hconf
    have hpages : ∀ v < 2 ^ 64, canonical v = true → (Accessible m'.mem r v ↔ Covers S v) := by
      intro v hv hcan
      rw [accessible_populated hp hs₁ h, accessible_created hc hs, low_iff hv hcan]
      exact ⟨fun hor => hor.resolve_right fun hacc => hacc.2 (hconf v hv hcan hacc.1), .inl⟩
    refine ⟨fun v hv hcan => (hpages v hv hcan).trans (covers_iff h hS hv hcan), ?_⟩
    intro v e he w hw hcan e' he' heq
    have hcov := (hpages w hw hcan).mp (by rw [Accessible, userWalk_of_userLeaf he']; rfl)
    have hfree := frame_of_covered hp hc h hcov he'
    rw [userLeaf_view hs.noGiant hs.userTables, Option.ite_none_right_eq_some] at he
    have hused := (hs.leaf v he.1).1
    rw [Option.some.inj he.2, ← heq] at hused
    exact hused hfree

end

/-! ### After boot -/

theorem bootMach_confined : UserConfined bootMach := by
  intro v _ _ hacc
  rw [accessible_iff bootMach_space, isUserLeaf_eq_true, isUserLeaf_eq_true, bootMach_kernel v,
    show leafEntry bootMach.mem bootMach.cr3 v = 0#64 from bootMem_leafEntry bootFrames v] at hacc
  simp [present] at hacc

end Vibix.Kernel
