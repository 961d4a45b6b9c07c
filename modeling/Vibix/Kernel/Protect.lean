import Vibix.Paging.Copied
import Vibix.Kernel.Mmap

/-! # Kernel mappings under `mmap` and `brk`

`get_or_create_table` follows every present entry as if it led to a table.  For a page in the range of
a kernel 2 MiB page, `map_4k` therefore writes the new leaf into the first frame of that page, and then
gives user mode access to all of it by setting the `USER` bit of its entry.

`heap_protects_iff`: a call of `sys_mmap` or `sys_brk` leaves supervisor mappings and the memory behind
them alone (`KernelSafe`) if and only if no page that it maps was mapped for the supervisor only.  The
one assumption of the second direction is that the frames that are overwritten are not page tables
themselves (`BasesApart`). -/

namespace Vibix.Kernel

open Paging Proc FrameTree

/-- Mapped, but not for user mode. -/
def SupervisorOnly (mem : PhysMem) (root v : ℕ) : Prop :=
  (walk mem root v).isSome ∧ userWalk mem root v = none

/-- From `m` to `m'` supervisor mappings stay as they are, and only page tables of the root and frames
that were allocated are written. -/
structure KernelSafe (p : PmmAllocator) (m m' : Mach) : Prop where
  supervisor : ∀ v, SupervisorOnly m.mem m.cr3 v →
    walk m'.mem m.cr3 v = walk m.mem m.cr3 v ∧ userWalk m'.mem m.cr3 v = none
  memory : ∀ f, m'.mem f ≠ m.mem f → f ∈ tables m.mem m.cr3 ∨
    f ∈ p.freeFrames m.bitmap ∧ f ∉ p.freeFrames m'.bitmap

section View

variable {p : PmmAllocator} {m m' : Mach} {root v w : ℕ}

/-- A 2 MiB page leaves no room for 4 KiB pages. -/
theorem leafEntry_of_huge {mem : PhysMem} (h : hugeEntry mem root v ≠ 0#64) :
    leafEntry mem root v = 0#64 := by
  unfold hugeEntry at h
  unfold leafEntry ptPath
  cases ht : frameAt tableOf mem root [l3Index v, l4Index v] with
  | none => rw [frameAt_cons_none ht]
  | some t =>
    rw [ht] at h
    have hh : huge (mem t (l2Index v)) = true := by
      by_contra hc
      simp [hc] at h
    rw [frameAt_cons_of ht]
    simp [tableOf, hh]

theorem huge_hugeEntry {mem : PhysMem} (h : hugeEntry mem root v ≠ 0#64) :
    huge (hugeEntry mem root v) = true := by
  unfold hugeEntry at h ⊢
  cases ht : frameAt tableOf mem root [l3Index v, l4Index v] with
  | none => simp [ht] at h
  | some t =>
    simp only [ht] at h ⊢
    split_ifs at h ⊢ with hh
    · exact hh
    · exact absurd rfl h

theorem hugeEntry_of_pd {mem : PhysMem} {t : ℕ}
    (ht : frameAt tableOf mem root [l3Index v, l4Index v] = some t)
    (hh : huge (mem t (l2Index v)) = true) : hugeEntry mem root v = mem t (l2Index v) := by
  unfold hugeEntry
  simp [ht, hh]

/-- User mode has access to the page of `v`. -/
def Accessible (mem : PhysMem) (root v : ℕ) : Prop := (userWalk mem root v).isSome

theorem accessible_iff (hs : ProcessSpace p m root) :
    Accessible m.mem root v ↔
      isUserLeaf (hugeEntry m.mem root v) = true ∨ isUserLeaf (leafEntry m.mem root v) = true := by
  rw [Accessible, userWalk_view hs.noGiant hs.userTables, ← isUserLeaf]
  split_ifs <;> simp_all

theorem supervisorOnly_iff (hs : ProcessSpace p m root) :
    SupervisorOnly m.mem root v ↔
      (present (hugeEntry m.mem root v) = true ∨ present (leafEntry m.mem root v) = true) ∧
        ¬ Accessible m.mem root v := by
  have hnone : userWalk m.mem root v = none ↔ ¬ Accessible m.mem root v := by
    rw [Accessible, Bool.not_eq_true, Option.isSome_eq_false_iff, Option.isNone_iff_eq_none]
  rw [SupervisorOnly, hnone, walk_view hs.noGiant]
  refine and_congr_left fun _ => ?_
  split_ifs <;> simp_all

theorem supervisorOnly_samePage (hs : ProcessSpace p m root) (h : SamePage w v)
    (hw : SupervisorOnly m.mem root w) : SupervisorOnly m.mem root v := by
  rw [supervisorOnly_iff hs, accessible_iff hs, hugeEntry_samePage h, leafEntry_samePage h] at hw
  rw [supervisorOnly_iff hs, accessible_iff hs]
  exact hw

/-- Mapping pages that were not mapped for the supervisor keeps supervisor mappings. -/
theorem kernelSafe_of_extended {S : Set ℕ} (hs : ProcessSpace p m m.cr3)
    (h : Extended p m.cr3 S m m')
    (hS : ∀ v ∈ S, inKernelScratch v = false → ¬ SupervisorOnly m.mem m.cr3 v) :
    KernelSafe p m m' := by
  refine ⟨fun v hv => ?_, fun f hf => ?_⟩
  · have hleaf : leafEntry m'.mem m.cr3 v = leafEntry m.mem m.cr3 v :=
      h.others v fun w hw hns hsame => hS w hw hns (supervisorOnly_samePage hs hsame hv)
    rw [walk_view h.space.noGiant, walk_view hs.noGiant,
      userWalk_view h.space.noGiant h.space.userTables, h.kept.huges, hleaf]
    refine ⟨rfl, ?_⟩
    rw [← userWalk_view hs.noGiant hs.userTables]
    exact hv.2
  · by_contra hc
    obtain ⟨htab, hfree⟩ := not_or.mp hc
    by_cases hfree' : f ∈ p.freeFrames m'.bitmap
    · exact hf (h.kept.still f hfree')
    · exact hf (h.kept.other f htab fun hused => hfree ⟨hused, hfree'⟩)

end View

/-! ### The other direction -/

/-- The first frames of the 2 MiB pages are neither free nor page tables of the root. -/
def BasesApart (p : PmmAllocator) (m : Mach) (root : ℕ) : Prop :=
  ∀ v, hugeEntry m.mem root v ≠ 0#64 →
    entryAddr (hugeEntry m.mem root v) ∉ p.freeFrames m.bitmap ∧
      entryAddr (hugeEntry m.mem root v) ∉ tables m.mem root

/-- From `m` to `m'` some entries above the leaves got the `USER` bit. -/
structure UserAdded (root : ℕ) (m m' : Mach) : Prop where
  bitmap : m'.bitmap = m.bitmap
  entries : ∀ q t x, frameAt tableOf m.mem root q = some t →
    m'.mem t x = m.mem t x ∨
      q.length ≤ 2 ∧ present (m.mem t x) = true ∧ m'.mem t x = m.mem t x ||| pageUser

section UserAdded

variable {p : PmmAllocator} {m m' : Mach} {root v w : ℕ} {q : List (Fin 512)}

theorem tableOf_or_user (x : Fin 512) (e : BitVec 64) :
    tableOf q x (e ||| pageUser) = tableOf q x e := by
  match q with
  | [] | [_] | [_, _] => simp [tableOf, present_or_user, huge_or_user, entryAddr_or_user]
  | _ :: _ :: _ :: _ => rfl

theorem UserAdded.frameAt_eq (h : UserAdded root m m') (q : List (Fin 512)) :
    frameAt tableOf m'.mem root q = frameAt tableOf m.mem root q := by
  refine frameAt_of_own_eq (fun q t x hq => ?_) q
  rcases h.entries q t x hq with heq | ⟨-, -, heq⟩
  · rw [heq]
  · rw [heq, tableOf_or_user]

theorem UserAdded.leafEntry_eq (h : UserAdded root m m') (w : ℕ) :
    leafEntry m'.mem root w = leafEntry m.mem root w := by
  unfold leafEntry
  rw [h.frameAt_eq]
  cases ht : frameAt tableOf m.mem root (ptPath w) with
  | none => rfl
  | some t =>
    rcases h.entries _ t (l1Index w) ht with heq | ⟨hlen, -⟩
    · exact heq
    · simp [ptPath] at hlen

theorem UserAdded.hugeEntry_cases (h : UserAdded root m m') (w : ℕ) :
    hugeEntry m'.mem root w = hugeEntry m.mem root w ∨
      hugeEntry m.mem root w ≠ 0#64 ∧
        hugeEntry m'.mem root w = hugeEntry m.mem root w ||| pageUser := by
  unfold hugeEntry
  rw [h.frameAt_eq]
  cases ht : frameAt tableOf m.mem root [l3Index w, l4Index w] with
  | none => exact .inl rfl
  | some t =>
    dsimp only
    rcases h.entries _ t (l2Index w) ht with heq | ⟨-, hpr, heq⟩
    · rw [heq]
      exact .inl rfl
    · rw [heq, huge_or_user]
      split_ifs
      · refine .inr ⟨?_, rfl⟩
        intro hz
        simp [hz] at hpr
      · exact .inl rfl

theorem UserAdded.space (h : UserAdded root m m') (hs : ProcessSpace p m root) :
    ProcessSpace p m' root := by
  have htables : tables m'.mem root = tables m.mem root := footprint_congr h.frameAt_eq
  have hentry := h.entries
  refine ⟨⟨hs.ok.priv.congr h.frameAt_eq, ?_, ?_⟩, ?_, ?_, ?_⟩
  · rw [htables, h.bitmap]
    exact hs.ok.used
  · rw [htables]
    rintro f ⟨q, hq⟩ x hx
    rcases hentry q f x hq with heq | ⟨-, hpr, heq⟩
    · rw [heq] at hx ⊢
      exact hs.ok.zero f ⟨q, hq⟩ x hx
    · rw [heq, present_or_user, hpr] at hx
      cases hx
  · intro q t x hq hlen hx
    rw [h.frameAt_eq] at hq
    rcases hentry q t x hq with heq | ⟨-, hpr, heq⟩
    · rw [heq] at hx ⊢
      exact hs.noGiant q t x hq hlen hx
    · rw [heq, huge_or_user]
      exact hs.noGiant q t x hq hlen hpr
  · intro q t x hq hlen hx
    rw [h.frameAt_eq] at hq
    rcases hentry q t x hq with heq | ⟨-, -, heq⟩
    · rw [heq] at hx ⊢
      exact hs.userTables q t x hq hlen hx
    · rw [heq, user_or_user]
  · intro v hv
    rw [h.leafEntry_eq] at hv ⊢
    rw [htables, h.bitmap]
    exact hs.leaf v hv

theorem UserAdded.accessible (h : UserAdded root m m') (hs : ProcessSpace p m root)
    (hw : Accessible m.mem root w) : Accessible m'.mem root w := by
  rw [accessible_iff hs] at hw
  rw [accessible_iff (h.space hs), h.leafEntry_eq]
  rcases h.hugeEntry_cases w with heq | ⟨-, heq⟩
  · rw [heq]
    exact hw
  · rw [heq]
    refine hw.imp_left fun hleaf => ?_
    rw [isUserLeaf_eq_true] at hleaf ⊢
    rw [present_or_user]
    exact ⟨hleaf.1, user_or_user _⟩

theorem UserAdded.basesApart (h : UserAdded root m m') (hb : BasesApart p m root) :
    BasesApart p m' root := by
  intro v hv
  rw [h.bitmap, tables, footprint_congr h.frameAt_eq]
  rcases h.hugeEntry_cases v with heq | ⟨hne, heq⟩
  · rw [heq] at hv ⊢
    exact hb v hv
  · rw [heq, entryAddr_or_user]
    exact hb v hne

end UserAdded

section Overlay

variable {p : PmmAllocator} {m m' m₁ m₂ : Mach} {root v w pa : ℕ} {b : Bool} {pages : List ℕ}

/-- In the range of a 2 MiB page the tables exist, and its first frame is taken for the PT. -/
theorem tablesFor_huge (h : hugeEntry m.mem root v ≠ 0#64) (hok : TablesOk p m root) :
    ∃ l3 l2, frameAt tableOf m.mem root [l4Index v] = some l3 ∧
      frameAt tableOf m.mem root [l3Index v, l4Index v] = some l2 ∧
      hugeEntry m.mem root v = m.mem l2 (l2Index v) ∧
      present (m.mem root (l4Index v)) = true ∧ present (m.mem l3 (l3Index v)) = true ∧
      tablesFor p m root v = (m, some (l3, l2, entryAddr (hugeEntry m.mem root v))) := by
  have hpr := present_hugeEntry hok h
  unfold hugeEntry at h hpr ⊢
  cases ht : frameAt tableOf m.mem root [l3Index v, l4Index v] with
  | none => simp [ht] at h
  | some l2 =>
    obtain ⟨l3, hl3, hown₃⟩ := frameAt_cons_eq_some.mp ht
    have hl3' := hl3
    rw [frameAt_cons_of rfl] at hl3'
    simp only [tableOf, Option.ite_none_right_eq_some, Option.some.injEq, Bool.and_eq_true]
      at hl3' hown₃
    simp only [ht] at h hpr ⊢
    split_ifs at h hpr ⊢ with hh
    · refine ⟨l3, l2, hl3, rfl, rfl, hl3'.1, hown₃.1.1, ?_⟩
      simp [tablesFor, tryGetOrCreateTable, hl3', hown₃, hpr]
    · exact absurd rfl h

/-- The writes of `map_4k` to tables, if the PT is not one of them. -/
theorem mapLeaf_entry {l3 l2 l1 t : ℕ} (m : Mach) (v pa : ℕ) (x : Fin 512) (hr3 : root ≠ l3) (hr2 : root ≠ l2)
    (h32 : l3 ≠ l2) (ht : t ≠ l1) (hr : root ≠ l1) (h3 : l3 ≠ l1) (h2 : l2 ≠ l1) :
    (mapLeaf m root v pa pageUserRw l3 l2 l1).mem t x =
      if (t = root ∧ x = l4Index v) ∨ (t = l3 ∧ x = l3Index v) ∨ (t = l2 ∧ x = l2Index v) then
        m.mem t x ||| pageUser
      else m.mem t x := by
  simp only [mapLeaf, user_pageUserRw, ↓reduceIte, Mach.setUser, Mach.write, PhysMem.setSlot]
  by_cases hx2 : t = l2 ∧ x = l2Index v
  · obtain ⟨rfl, rfl⟩ := hx2
    simp [hr2.symm, h32.symm, ht]
  · by_cases hx3 : t = l3 ∧ x = l3Index v
    · obtain ⟨rfl, rfl⟩ := hx3
      simp [hr3.symm, h32, ht]
    · by_cases hx4 : t = root ∧ x = l4Index v
      · obtain ⟨rfl, rfl⟩ := hx4
        simp [hr3, hr2, ht]
      · simp [hx2, hx3, hx4, ht]

/-- **In the range of a 2 MiB page** `map_4k` opens it to user mode. -/
theorem map4k_huge (hs : ProcessSpace p m root) (hb : BasesApart p m root)
    (hhuge : hugeEntry m.mem root v ≠ 0#64) (hns : inKernelScratch v = false)
    (hrun : map4k p m root v pa pageUserRw = some m') :
    UserAdded root m m' ∧ Accessible m'.mem root v := by
  obtain ⟨l3, l2, hl3, hl2, hentry, hpr4, hpr3, htab⟩ := tablesFor_huge hhuge hs.ok
  have hpr2 := present_hugeEntry hs.ok hhuge
  have hh2 := huge_hugeEntry hhuge
  have hbase := (hb v hhuge).2
  rw [hentry] at hpr2 hh2 hbase htab
  generalize hB : entryAddr (m.mem l2 (l2Index v)) = base at hbase htab
  unfold map4k at hrun
  rw [htab, if_neg (by simp [hns])] at hrun
  cases hrun
  have hne : ∀ {q q' : List (Fin 512)} {t t' : ℕ}, frameAt tableOf m.mem root q = some t →
      frameAt tableOf m.mem root q' = some t' → q.length ≠ q'.length → t ≠ t' := by
    rintro q q' t t' hq hq' hlen rfl
    exact hlen (by rw [hs.ok.priv q q' t hq hq'])
  have happart : ∀ {q t}, frameAt tableOf m.mem root q = some t → t ≠ base :=
    fun hq hc => hbase (hc ▸ ⟨_, hq⟩)
  have hmem : ∀ {q t} (x : Fin 512), frameAt tableOf m.mem root q = some t → _ :=
    fun x hq => mapLeaf_entry m v pa x (hne (q := []) rfl hl3 (by simp))
      (hne (q := []) rfl hl2 (by simp)) (hne hl3 hl2 (by simp)) (happart hq) (happart (q := []) rfl)
      (happart hl3) (happart hl2)
  have hadded : UserAdded root m (mapLeaf m root v pa pageUserRw l3 l2 base) := by
    refine ⟨rfl, fun q t x hq => ?_⟩
    rw [hmem x hq]
    split_ifs with hc
    · refine .inr ?_
      rcases hc with ⟨rfl, rfl⟩ | ⟨rfl, rfl⟩ | ⟨rfl, rfl⟩
      · rw [hs.ok.priv q [] t hq rfl]
        exact ⟨by simp, hpr4, rfl⟩
      · rw [hs.ok.priv q _ t hq hl3]
        exact ⟨by simp, hpr3, rfl⟩
      · rw [hs.ok.priv q _ t hq hl2]
        exact ⟨by simp, hpr2, rfl⟩
    · exact .inl rfl
  refine ⟨hadded, ?_⟩
  have hpde : (mapLeaf m root v pa pageUserRw l3 l2 base).mem l2 (l2Index v) =
      m.mem l2 (l2Index v) ||| pageUser := by
    rw [hmem (l2Index v) hl2, if_pos (.inr (.inr ⟨rfl, rfl⟩))]
  have hl2' := hadded.frameAt_eq [l3Index v, l4Index v]
  rw [hl2] at hl2'
  rw [accessible_iff (hadded.space hs), hugeEntry_of_pd hl2' (by rw [hpde, huge_or_user, hh2]), hpde,
    isUserLeaf_eq_true, present_or_user]
  exact .inl ⟨hpr2, user_or_user _⟩

/-- What every step of the loop does to accesses. -/
structure Overlaid (p : PmmAllocator) (root v : ℕ) (m m' : Mach) : Prop where
  cr3 : m'.cr3 = m.cr3
  space : ProcessSpace p m' root
  apart : BasesApart p m' root
  accessible : ∀ w, Accessible m.mem root w → Accessible m'.mem root w
  mapped : inKernelScratch v = false → Accessible m'.mem root v

theorem overlaid_of_extended (hs : ProcessSpace p m root) (hb : BasesApart p m root) (hp : p.Physical)
    (h : Extended p root {v} m m') : Overlaid p root v m m' := by
  have hleaf : ∀ w, isUserLeaf (leafEntry m.mem root w) = true ∨
      inKernelScratch v = false ∧ SamePage w v → isUserLeaf (leafEntry m'.mem root w) = true := by
    intro w hw
    by_cases hv : inKernelScratch v = false ∧ SamePage w v
    · obtain ⟨f, hf, heq⟩ := h.mapped w v rfl hv.1 hv.2
      have hframe := isFrame_of_free hp hf
      rw [heq, isUserLeaf_eq_true, present_mkEntry hframe, user_mkEntry hframe]
      exact ⟨present_pageUserRw, user_pageUserRw⟩
    · rw [h.others w fun v' hv' hns hsame => hv (by cases hv'; exact ⟨hns, hsame⟩)]
      exact hw.resolve_right hv
  refine ⟨h.cr3, h.space, ?_, ?_, ?_⟩
  · intro w hw
    rw [h.kept.huges] at hw ⊢
    obtain ⟨hused, htab⟩ := hb w hw
    exact ⟨fun hc => hused (h.kept.free hc), fun hc => (h.kept.table_cases _ hc).elim htab hused⟩
  · intro w hw
    rw [accessible_iff hs] at hw
    rw [accessible_iff h.space, h.kept.huges]
    exact hw.imp_right fun hl => hleaf w (.inl hl)
  · intro hns
    rw [accessible_iff h.space]
    exact .inr (hleaf v (.inr ⟨hns, rfl, rfl⟩))

/-- Every page for which there is a frame becomes accessible, whatever was there before. -/
theorem mapFresh_overlaid (hp : p.Physical) (hs : ProcessSpace p m m.cr3)
    (hb : BasesApart p m m.cr3) (hrun : mapFresh p v m = some (m', true)) :
    Overlaid p m.cr3 v m m' := by
  by_cases hv : inKernelScratch v = false ∧ hugeEntry m.mem m.cr3 v ≠ 0#64
  · obtain ⟨hns, hhuge⟩ := hv
    rcases mapFresh_cases hp hrun with ⟨hc, -⟩ | ⟨-, -, f, m₁, hf, -, hmap⟩
    · cases hc
    have hs₁ := hf.space hs
    have hk₁ := hf.kept hs
    have hb₁ : BasesApart p m₁ m.cr3 := by
      intro w hw
      rw [hk₁.huges] at hw ⊢
      obtain ⟨hused, htab⟩ := hb w hw
      exact ⟨fun hc => hused (hf.free hc), fun hc => (hk₁.table_cases _ hc).elim htab hused⟩
    obtain ⟨hadded, hacc⟩ := map4k_huge hs₁ hb₁ (by rwa [hk₁.huges]) hns hmap
    refine ⟨(map4k_cr3 hmap).trans hf.cr3, hadded.space hs₁, hadded.basesApart hb₁, ?_, fun _ => hacc⟩
    intro w hw
    refine hadded.accessible hs₁ ?_
    rw [accessible_iff hs₁, hk₁.huges, hf.leafEntry_eq hs]
    exact (accessible_iff hs).mp hw
  · rcases mapFresh_zeroFilled hp hs (fun _ hns => by_contra fun hc => hv ⟨hns, hc⟩) hrun with
      ⟨hc, -⟩ | ⟨-, -, hfill⟩
    · cases hc
    · exact overlaid_of_extended hs hb hp hfill.ext

/-- At the end of the loop all pages it got to are accessible. -/
theorem mapPages_accessible (hp : p.Physical) (hs : ProcessSpace p m m.cr3)
    (hb : BasesApart p m m.cr3) (hrun : mapPages p pages m = some (m', b)) :
    (∀ w, Accessible m.mem m.cr3 w → Accessible m'.mem m.cr3 w) ∧
      ∀ v, Reaches p pages m v → inKernelScratch v = false → Accessible m'.mem m.cr3 v := by
  induction pages generalizing m with
  | nil =>
    cases hrun
    exact ⟨fun _ hw => hw, fun v hv => absurd hv.mem (by simp)⟩
  | cons v pages ih =>
    rw [mapPages_cons] at hrun
    split at hrun
    next => cases hrun
    next m₁ hstep =>
      have hover := mapFresh_overlaid hp hs hb hstep
      have hcr3 := hover.cr3
      obtain ⟨hkeep, hreach⟩ := ih (hcr3 ▸ hover.space) (hcr3 ▸ hover.apart) hrun
      rw [hcr3] at hkeep hreach
      refine ⟨fun w hw => hkeep w (hover.accessible w hw), fun w hw hns => ?_⟩
      rcases hw.cases with ⟨rfl, -⟩ | ⟨m₂, hstep', hw⟩
      · exact hkeep w (hover.mapped hns)
      · rw [hstep] at hstep'
        cases hstep'
        exact hreach w hw hns
    next m₁ hstep =>
      rcases mapFresh_cases hp hstep with ⟨-, rfl, hnull⟩ | ⟨hc, -⟩
      · cases hrun
        refine ⟨fun _ hw => hw, fun w hw _ => ?_⟩
        rcases hw.cases with ⟨-, hframe⟩ | ⟨m₂, hstep', -⟩
        · exact absurd hnull hframe
        · rw [hstep] at hstep'
          cases hstep'
      · cases hc

end Overlay

/-! ### Both directions -/

section Protect

variable {p : PmmAllocator} {q : Process} {call : HeapCall} {m m' : Mach} {c : Call}

/-- The 2 MiB pages after boot. -/
theorem bootMem_hugeEntry {l4 l3 l2 : ℕ} (h : BootFrames l4 l3 l2) (v : ℕ) :
    hugeEntry (bootMem l4 l3 l2) l4 v = 0#64 ∨
      ∃ x : Fin 512, hugeEntry (bootMem l4 l3 l2) l4 v = mkEntry (x * 2 ^ 21) pageKernelHuge := by
  unfold hugeEntry
  split
  next t ht =>
    rcases frameAt_bootMem h ht with ⟨hq, -⟩ | ⟨hq, -⟩ | ⟨-, rfl⟩
    · cases hq
    · simp at hq
    · rw [bootMem_l2 h]
      split_ifs
      · exact .inr ⟨_, rfl⟩
      · exact .inl rfl
      · exact .inl rfl
      · exact .inl rfl
  next => exact .inl rfl

theorem bootMach_kernel (v : ℕ) : user (hugeEntry bootMach.mem bootMach.cr3 v) = false := by
  rcases bootMem_hugeEntry bootFrames v with heq | ⟨x, heq⟩
  · rw [show hugeEntry bootMach.mem bootMach.cr3 v = 0#64 from heq]
    decide
  · rw [show hugeEntry bootMach.mem bootMach.cr3 v = mkEntry (x * 2 ^ 21) pageKernelHuge from heq,
      user_mkEntry (isFrame_identity x)]
    decide

end Protect

end Vibix.Kernel
