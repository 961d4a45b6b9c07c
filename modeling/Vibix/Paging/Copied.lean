import Vibix.Paging.Space
import Vibix.Paging.View

/-! # The address space of a created root

The root that `create_pml4` returns, seen page by page.  Everything under `PML4[1..511]` is shared with
the active root (`Created.leafEntry_shared`), and so is everything below `USER_CODE_ADDR`
(`Created.leafEntry_low`).  In between there is nothing, if user pages are not copied
(`Created.empty`); if they are, each page is cloned or shared (`Created.leafEntry_clone`),
and the scratch GiB is left out.

The new root is the root of a process if the active one is (`Created.space`). -/

namespace Vibix.Paging

open FrameTree

section Shared

variable {m : Mach} {mem : PhysMem} {r : ℕ} {q : List (Fin 512)} {v : ℕ}

/-- Below a table that two roots share they are the same. -/
theorem frameAt_shared (hmem : ∀ f ∈ tables m.mem m.cr3, mem f = m.mem f)
    (h : frameAt tableOf mem r q = frameAt tableOf m.mem m.cr3 q) (z : List (Fin 512)) :
    frameAt tableOf mem r (z ++ q) = frameAt tableOf m.mem m.cr3 (z ++ q) := by
  induction z with
  | nil => exact h
  | cons x z ih =>
    rw [List.cons_append, frameAt_cons, frameAt_cons, ih]
    cases hz : frameAt tableOf m.mem m.cr3 (z ++ q) with
    | none => rfl
    | some t => rw [Option.bind_some, Option.bind_some, hmem t ⟨_, hz⟩]

theorem leafEntry_of_frameAt (hmem : ∀ f ∈ tables m.mem m.cr3, mem f = m.mem f)
    (h : frameAt tableOf mem r (ptPath v) = frameAt tableOf m.mem m.cr3 (ptPath v)) :
    leafEntry mem r v = leafEntry m.mem m.cr3 v := by
  unfold leafEntry
  rw [h]
  cases ht : frameAt tableOf m.mem m.cr3 (ptPath v) with
  | none => rfl
  | some t => simp only [hmem t ⟨_, ht⟩]

end Shared

section Copied

variable {p : PmmAllocator} {m m' : Mach} {copyUser : Bool} {r v : ℕ}

/-- The PDs of a created root. -/
theorem RootCopied.pd_cases {mem : PhysMem} (h : RootCopied p m copyUser mem r)
    (hg : NoGiant m.mem m.cr3) (i : Fin 512) :
    (frameAt tableOf mem r [i, 0] = none ∧
      (frameAt tableOf m.mem m.cr3 [i, 0] = none ∨ i = scratchIndex ∨ i ≠ 0 ∧ copyUser = false)) ∨
    ∃ t src, frameAt tableOf mem r [i, 0] = some t ∧ frameAt tableOf m.mem m.cr3 [i, 0] = some src ∧
      i ≠ scratchIndex ∧
      ∀ j, PdeCopied p m copyUser i j (below ownedBy mem r []) mem (m.mem src j) (mem t j) := by
  have hfirst := h.first
  have hroot : ∀ {mem' : PhysMem} {r' : ℕ}, present (mem' r' 0) = false →
      frameAt tableOf mem' r' [i, 0] = none := by
    intro mem' r' hpr
    simp [frameAt, tableOf, hpr]
  generalize he4 : mem r 0 = e4 at hfirst
  cases hfirst with
  | absent hnp => exact .inl ⟨hroot (by rw [he4]; rfl), .inl (hroot hnp)⟩
  | @table pdpt hpr hframe _ hall =>
    have ht3 : frameAt tableOf mem r [0] = some pdpt := by
      rw [frameAt_cons_of rfl, he4]
      simp [tableOf, present_mkEntry hframe, present_tableFlags, hpr,
        entryAddr_mkEntry hframe (noAddr_tableFlags _)]
    have hs3 := frameAt_pdpt hpr
    have hi := hall i
    have hgi := hg _ _ i hs3 (by simp)
    generalize hsrc : m.mem (entryAddr (m.mem m.cr3 0)) i = src at hi hgi
    generalize he3 : mem pdpt i = e3 at hi
    have hpd : frameAt tableOf mem r [i, 0] = tableOf [0] i e3 := by rw [frameAt_cons_of ht3, he3]
    have hsd : frameAt tableOf m.mem m.cr3 [i, 0] = tableOf [0] i src := by
      rw [frameAt_cons_of hs3, hsrc]
    rw [hpd, hsd]
    cases hi with
    | absent hnp => exact .inl ⟨tableOf_zero _ _, .inl (by simp [tableOf, hnp])⟩
    | scratch hi => exact .inl ⟨tableOf_zero _ _, .inr (.inl hi)⟩
    | dropped hi hc => exact .inl ⟨tableOf_zero _ _, .inr (.inr ⟨hi, hc⟩)⟩
    | hugePage _ hh =>
      have hpr' : present src = false := by
        by_contra hpr'
        rw [hgi (by simpa using hpr')] at hh
        cases hh
      refine .inl ⟨?_, .inl ?_⟩
      · simp [tableOf, present_freshHuge, hpr']
      · simp [tableOf, hpr']
    | @table pd hi htab hframe' _ hall' =>
      have htab' := isTable_eq_true.mp htab
      refine .inr ⟨pd, entryAddr src, ?_, tableOf_of_isTable (by simp) htab, hi, hall'⟩
      simp [tableOf, present_mkEntry hframe', huge_mkEntry hframe', present_tableFlags,
        huge_tableFlags, htab'.1, entryAddr_mkEntry hframe' (noAddr_tableFlags _)]

/-! ### The new root, page by page -/

theorem Created.tables_eq (h : Created p m copyUser m' (some r)) (hwf : WellFormed p m) :
    ∀ f ∈ tables m.mem m.cr3, m'.mem f = m.mem f := fun f hf => h.used f (hwf.used f hf)

/-- The tables under `PML4[1..511]` are shared. -/
theorem Created.frameAt_high (h : Created p m copyUser m' (some r)) (hwf : WellFormed p m)
    {x : Fin 512} (hx : x ≠ 0) (z : List (Fin 512)) :
    frameAt tableOf m'.mem r (z ++ [x]) = frameAt tableOf m.mem m.cr3 (z ++ [x]) := by
  refine frameAt_shared (h.tables_eq hwf) ?_ z
  rw [frameAt_cons_of rfl, frameAt_cons_of rfl, (h.copied r rfl).kernel x hx]

/-- The PD entries below `USER_CODE_ADDR` are shared. -/
theorem Created.pde_low (h : Created p m copyUser m' (some r)) (hwf : WellFormed p m)
    (hg : NoGiant m.mem m.cr3) {j : Fin 512} (hlow : pdVaddr 0 j < userCodeAddr) :
    (frameAt tableOf m'.mem r [0, 0] = none ∧ frameAt tableOf m.mem m.cr3 [0, 0] = none) ∨
      ∃ t src, frameAt tableOf m'.mem r [0, 0] = some t ∧
        frameAt tableOf m.mem m.cr3 [0, 0] = some src ∧ m'.mem t j = m.mem src j := by
  rcases (h.copied r rfl).pd_cases hg 0 with ⟨hnone, hsrc | hs | ⟨h0, -⟩⟩ | ⟨t, src, ht, hsrc, -, hpde⟩
  · exact .inl ⟨hnone, hsrc⟩
  · exact absurd hs (by decide)
  · exact absurd rfl h0
  · refine .inr ⟨t, src, ht, hsrc, ?_⟩
    have hj := hpde j
    generalize m'.mem t j = e at hj
    generalize hs : m.mem src j = s at hj
    cases hj with
    | absent hnp => rw [← hs, hwf.zero src ⟨_, hsrc⟩ j (hs ▸ hnp)]
    | shared => rfl
    | dropped hv | kernelHuge hv | cloned hv => exact absurd hlow (Nat.not_lt.mpr hv)

theorem Created.leafEntry_shared (h : Created p m copyUser m' (some r)) (hwf : WellFormed p m)
    (hv : l4Index v ≠ 0) : leafEntry m'.mem r v = leafEntry m.mem m.cr3 v :=
  leafEntry_of_frameAt (h.tables_eq hwf) (h.frameAt_high hwf hv [l2Index v, l3Index v])

theorem Created.hugeEntry_shared (h : Created p m copyUser m' (some r)) (hwf : WellFormed p m)
    (hv : l4Index v ≠ 0) : hugeEntry m'.mem r v = hugeEntry m.mem m.cr3 v := by
  have hpd := h.frameAt_high hwf hv [l3Index v]
  rw [List.singleton_append] at hpd
  unfold hugeEntry
  rw [hpd]
  cases ht : frameAt tableOf m.mem m.cr3 [l3Index v, l4Index v] with
  | none => rfl
  | some t => simp only [h.tables_eq hwf t ⟨_, ht⟩]

/-- An address of `PML4[0]` below `USER_CODE_ADDR`. -/
theorem l3Index_low (hlow : pdVaddr (l3Index v) (l2Index v) < userCodeAddr) : l3Index v = 0 := by
  apply Fin.ext
  simp only [pdVaddr, userCodeAddr] at hlow
  simp only [Fin.val_zero]
  omega

theorem Created.frameAt_low (h : Created p m copyUser m' (some r)) (hwf : WellFormed p m)
    (hg : NoGiant m.mem m.cr3) {j : Fin 512} (hlow : pdVaddr 0 j < userCodeAddr) :
    frameAt tableOf m'.mem r [j, 0, 0] = frameAt tableOf m.mem m.cr3 [j, 0, 0] := by
  rcases h.pde_low hwf hg hlow with ⟨hn, hn'⟩ | ⟨t, src, ht, hsrc, heq⟩
  · rw [frameAt_cons_none hn, frameAt_cons_none hn']
  · rw [frameAt_cons_of ht, frameAt_cons_of hsrc, heq]

theorem Created.leafEntry_low (h : Created p m copyUser m' (some r)) (hwf : WellFormed p m)
    (hg : NoGiant m.mem m.cr3) (hv : l4Index v = 0)
    (hlow : pdVaddr (l3Index v) (l2Index v) < userCodeAddr) :
    leafEntry m'.mem r v = leafEntry m.mem m.cr3 v := by
  have h3 := l3Index_low hlow
  refine leafEntry_of_frameAt (h.tables_eq hwf) ?_
  rw [h3] at hlow
  rw [ptPath, hv, h3]
  exact h.frameAt_low hwf hg hlow

theorem Created.hugeEntry_low (h : Created p m copyUser m' (some r)) (hwf : WellFormed p m)
    (hg : NoGiant m.mem m.cr3) (hv : l4Index v = 0)
    (hlow : pdVaddr (l3Index v) (l2Index v) < userCodeAddr) :
    hugeEntry m'.mem r v = hugeEntry m.mem m.cr3 v := by
  have h3 := l3Index_low hlow
  rw [h3] at hlow
  unfold hugeEntry
  rw [hv, h3]
  rcases h.pde_low hwf hg hlow with ⟨hn, hn'⟩ | ⟨t, src, ht, hsrc, heq⟩
  · rw [hn, hn']
  · rw [ht, hsrc]
    simp only [heq]

/-- Without its user pages, a copy has nothing from `USER_CODE_ADDR` on. -/
theorem Created.empty (h : Created p m false m' (some r)) (hg : NoGiant m.mem m.cr3)
    (hv : l4Index v = 0) (hhigh : userCodeAddr ≤ pdVaddr (l3Index v) (l2Index v)) :
    leafEntry m'.mem r v = 0#64 ∧ hugeEntry m'.mem r v = 0#64 := by
  unfold leafEntry hugeEntry
  rw [ptPath, hv]
  rcases (h.copied r rfl).pd_cases hg (l3Index v) with ⟨hnone, -⟩ | ⟨t, src, ht, -, -, hpde⟩
  · rw [frameAt_cons, hnone]
    exact ⟨rfl, rfl⟩
  · have hz : m'.mem t (l2Index v) = 0#64 := by
      have hj := hpde (l2Index v)
      generalize m'.mem t (l2Index v) = e at hj
      cases hj with
      | absent | dropped => rfl
      | shared hlow => exact absurd hlow (Nat.not_lt.mpr hhigh)
      | kernelHuge _ hc | cloned _ hc => cases hc
    rw [frameAt_cons_of ht, ht]
    simp [hz, tableOf_zero]

/-- In a copy with its user pages, every page outside the scratch GiB is shared or cloned. -/
theorem Created.leafEntry_clone (h : Created p m true m' (some r)) (hg : NoGiant m.mem m.cr3)
    (hv : l4Index v = 0) (hhigh : userCodeAddr ≤ pdVaddr (l3Index v) (l2Index v))
    (hi : l3Index v ≠ scratchIndex) :
    PteCopied p m (below ownedBy m'.mem r []) m'.mem (leafEntry m.mem m.cr3 v)
      (leafEntry m'.mem r v) := by
  have hzero : PteCopied p m (below ownedBy m'.mem r []) m'.mem 0#64 0#64 := .shared (by decide)
  unfold leafEntry
  rw [ptPath, hv]
  rcases (h.copied r rfl).pd_cases hg (l3Index v) with
    ⟨hnone, hsrc | hs | ⟨-, hc⟩⟩ | ⟨t, src, ht, hsrc, -, hpde⟩
  · rw [frameAt_cons_none hnone, frameAt_cons_none hsrc]
    exact hzero
  · exact absurd hs hi
  · cases hc
  · have hj := hpde (l2Index v)
    rw [frameAt_cons_of ht, frameAt_cons_of hsrc]
    generalize m'.mem t (l2Index v) = e at hj
    generalize m.mem src (l2Index v) = s at hj
    cases hj with
    | absent hnp => simpa [tableOf, hnp] using hzero
    | dropped _ hc => cases hc
    | shared hlow => exact absurd hlow (Nat.not_lt.mpr hhigh)
    | kernelHuge _ _ hh => simpa [tableOf, hh] using hzero
    | cloned _ _ htab hframe _ hall =>
      have htab' := isTable_eq_true.mp htab
      simp only [tableOf, present_mkEntry hframe, huge_mkEntry hframe, present_compl, huge_compl,
        htab'.1, htab'.2, entryAddr_mkEntry hframe (noAddr_compl s), Bool.not_false, Bool.and_self,
        ↓reduceIte]
      exact hall (l1Index v)

/-- The scratch GiB is left out. -/
theorem Created.scratch (h : Created p m true m' (some r)) (hg : NoGiant m.mem m.cr3)
    (hv : l4Index v = 0) (hi : l3Index v = scratchIndex) : leafEntry m'.mem r v = 0#64 := by
  unfold leafEntry
  rw [ptPath, hv]
  rcases (h.copied r rfl).pd_cases hg (l3Index v) with ⟨hnone, -⟩ | ⟨t, src, ht, -, hne, -⟩
  · rw [frameAt_cons, hnone]
    rfl
  · exact absurd hi hne

/-! ### The tables of the new root -/

/-- From `USER_CODE_ADDR` on, the tables of `PML4[0]` are owned. -/
theorem frameAt_owned_pd {mem : PhysMem} {i : Fin 512} :
    frameAt ownedBy mem r [i, 0] = frameAt tableOf mem r [i, 0] := by
  simp [frameAt, ownedBy, tableOf]

theorem frameAt_owned_pt {mem : PhysMem} {i j : Fin 512} (hv : userCodeAddr ≤ pdVaddr i j) :
    frameAt ownedBy mem r [j, i, 0] = frameAt tableOf mem r [j, i, 0] := by
  simp [frameAt, ownedBy, tableOf, hv]

/-- A table of the new root is its own, or a table of the active root in the same place. -/
theorem Created.table_cases (h : Created p m copyUser m' (some r)) (hwf : WellFormed p m)
    (hg : NoGiant m.mem m.cr3) {q : List (Fin 512)} {t : ℕ}
    (ht : frameAt tableOf m'.mem r q = some t) :
    frameAt ownedBy m'.mem r q = some t ∨ frameAt tableOf m.mem m.cr3 q = some t := by
  rcases List.eq_nil_or_concat q with rfl | ⟨z, x, rfl⟩
  · exact .inl ht
  rw [List.concat_eq_append] at ht ⊢
  by_cases hx : x = 0
  · subst hx
    match z, ht with
    | [], ht =>
      refine .inl ?_
      rw [List.nil_append, frameAt_cons_of rfl] at ht ⊢
      simpa [ownedBy, tableOf] using ht
    | [i], ht => exact .inl (frameAt_owned_pd.trans ht)
    | [j, i], ht =>
      by_cases hv : userCodeAddr ≤ pdVaddr i j
      · exact .inl ((frameAt_owned_pt hv).trans ht)
      · have hi : i = 0 := by
          apply Fin.ext
          simp only [pdVaddr, userCodeAddr] at hv
          simp only [Fin.val_zero]
          omega
        subst hi
        exact .inr ((h.frameAt_low hwf hg (Nat.lt_of_not_le hv)).symm.trans ht)
    | k :: j :: i :: z, ht =>
      rw [List.cons_append, frameAt_cons_eq_some] at ht
      obtain ⟨t', -, hown⟩ := ht
      cases z <;> cases hown
  · exact .inr ((h.frameAt_high hwf hx z).symm.trans ht)

/-- An entry that is empty, or has the bits of the entry it was copied from. -/
def EntryCopied (src e : BitVec 64) : Prop :=
  e = 0#64 ∨ present src = true ∧ present e = true ∧ user e = user src ∧ huge e = huge src

theorem EntryCopied.refl {src : BitVec 64} (hz : present src = false → src = 0#64) :
    EntryCopied src src := by
  cases hsrc : present src with
  | false => exact .inl (hz hsrc)
  | true => exact .inr ⟨hsrc, hsrc, rfl, rfl⟩

theorem EntryCopied.compl {src : BitVec 64} {child : ℕ} (hframe : IsFrame child)
    (hsrc : present src = true) : EntryCopied src (mkEntry child (src &&& ~~~addrMask)) := by
  rw [EntryCopied, present_mkEntry hframe, user_mkEntry hframe, huge_mkEntry hframe, present_compl,
    user_compl, huge_compl]
  exact .inr ⟨hsrc, hsrc, rfl, rfl⟩

theorem EntryCopied.table {src : BitVec 64} {child : ℕ} (hframe : IsFrame child)
    (hsrc : present src = true) (hh : huge src = false) :
    EntryCopied src (mkEntry child (tableFlags src)) := by
  rw [EntryCopied, present_mkEntry hframe, user_mkEntry hframe, huge_mkEntry hframe,
    present_tableFlags, user_tableFlags, huge_tableFlags]
  exact .inr ⟨hsrc, hsrc, rfl, hh.symm⟩

/-- The entries of the new root's own tables are empty or copied from the same place. -/
theorem Created.entry_cases (h : Created p m copyUser m' (some r)) (hwf : WellFormed p m)
    (hg : NoGiant m.mem m.cr3) {q : List (Fin 512)} {t : ℕ}
    (ht : frameAt ownedBy m'.mem r q = some t) (hq : q.length ≤ 3) (x : Fin 512) :
    m'.mem t x = 0#64 ∨ ∃ src, frameAt tableOf m.mem m.cr3 q = some src ∧
      EntryCopied (m.mem src x) (m'.mem t x) := by
  have hcopy := h.copied r rfl
  rcases owned_cases ht with rfl | rfl | ⟨i, rfl⟩ | ⟨i, j, rfl⟩ | ⟨i, j, k, rfl⟩
  · obtain rfl : r = t := Option.some.inj ht
    refine .inr ⟨m.cr3, rfl, ?_⟩
    by_cases hx : x = 0
    · subst hx
      have hfirst := hcopy.first
      generalize m'.mem r 0 = e at hfirst
      cases hfirst with
      | absent => exact .inl rfl
      | table hsrc hframe =>
        exact .table hframe hsrc (hg [] _ 0 rfl (by simp) hsrc)
    · rw [hcopy.kernel x hx]
      exact .refl (hwf.zero _ root_mem_footprint x)
  · obtain ⟨hpdpt, -, -, hall⟩ := hcopy.pdpt ht
    have hsrc3 := frameAt_pdpt (owned_pdpt.mp hpdpt).1
    refine .inr ⟨_, hsrc3, ?_⟩
    have hx := hall x
    have hgx := hg _ _ x hsrc3 (by simp)
    have hz := hwf.zero _ ⟨_, hsrc3⟩ x
    generalize m'.mem t x = e at hx
    generalize m.mem _ x = src at hx hgx hz
    cases hx with
    | absent | scratch | dropped => exact .inl rfl
    | hugePage _ hh =>
      cases hpr : present src with
      | false => exact absurd (hz hpr ▸ hh) (by decide)
      | true => exact absurd hh (by rw [hgx hpr]; decide)
    | table _ htab hframe =>
      exact .table hframe (isTable_eq_true.mp htab).1 (isTable_eq_true.mp htab).2
  · rcases hcopy.pd_cases hg i with ⟨hnone, -⟩ | ⟨t', src, ht', hsrc, -, hpde⟩
    · rw [frameAt_owned_pd, hnone] at ht
      cases ht
    · obtain rfl : t' = t := by
        rw [frameAt_owned_pd, ht'] at ht
        exact Option.some.inj ht
      refine .inr ⟨src, hsrc, ?_⟩
      have hz := hwf.zero _ ⟨_, hsrc⟩ x
      have hx := hpde x
      generalize m'.mem t' x = e at hx
      generalize m.mem src x = s at hx hz
      cases hx with
      | absent | dropped => exact .inl rfl
      | shared | kernelHuge => exact .refl hz
      | cloned _ _ htab hframe => exact .compl hframe (isTable_eq_true.mp htab).1
  · obtain ⟨t', ht', hv, htab, rfl⟩ := owned_pt.mp ht
    rcases hcopy.pd_cases hg i with ⟨hnone, -⟩ | ⟨t₂, src, ht₂, hsrc, -, hpde⟩
    · rw [frameAt_owned_pd, hnone] at ht'
      cases ht'
    · obtain rfl : t₂ = t' := by
        rw [frameAt_owned_pd, ht₂] at ht'
        exact Option.some.inj ht'
      obtain ⟨-, hstab, -, hall⟩ := (hpde j).pt htab hv
      have hpt : frameAt tableOf m.mem m.cr3 [j, i, 0] = some (entryAddr (m.mem src j)) := by
        rw [frameAt_cons_of hsrc]
        simp [tableOf, isTable_eq_true.mp hstab]
      refine .inr ⟨_, hpt, ?_⟩
      have hz := hwf.zero _ ⟨_, hpt⟩ x
      have hx := hall x
      generalize m'.mem _ x = e at hx
      generalize m.mem (entryAddr (m.mem src j)) x = s at hx hz
      cases hx with
      | shared => exact .refl hz
      | cloned hleaf hframe => exact .compl hframe (isUserLeaf_eq_true.mp hleaf).1
  · simp at hq

theorem length_of_frameAt_tableOf {mem : PhysMem} {q : List (Fin 512)} {f : ℕ}
    (h : frameAt tableOf mem r q = some f) : q.length ≤ 3 := by
  match q, h with
  | [], _ | [_], _ | [_, _], _ | [_, _, _], _ => simp
  | _ :: a :: b :: c :: z, h =>
    obtain ⟨t, -, hown⟩ := frameAt_cons_eq_some.mp h
    cases hown

/-- Every entry of the new root's tables is empty or has the bits of the entry of the active root in
the same place. -/
theorem Created.copied_cases (h : Created p m copyUser m' (some r)) (hwf : WellFormed p m)
    (hg : NoGiant m.mem m.cr3) {q : List (Fin 512)} {t : ℕ}
    (ht : frameAt tableOf m'.mem r q = some t) (x : Fin 512) :
    m'.mem t x = 0#64 ∨ ∃ src, frameAt tableOf m.mem m.cr3 q = some src ∧
      present (m.mem src x) = true ∧ present (m'.mem t x) = true ∧
      user (m'.mem t x) = user (m.mem src x) ∧ huge (m'.mem t x) = huge (m.mem src x) := by
  have hentry : m'.mem t x = 0#64 ∨ ∃ src, frameAt tableOf m.mem m.cr3 q = some src ∧
      EntryCopied (m.mem src x) (m'.mem t x) := by
    rcases h.table_cases hwf hg ht with ho | ho
    · exact h.entry_cases hwf hg ho (length_of_frameAt_tableOf ht) x
    · refine .inr ⟨t, ho, ?_⟩
      rw [h.tables_eq hwf t ⟨_, ho⟩]
      exact .refl (hwf.zero t ⟨_, ho⟩ x)
  rcases hentry with hz | ⟨src, hsrc, hz | hc⟩
  · exact .inl hz
  · exact .inl hz
  · exact .inr ⟨src, hsrc, hc⟩

/-- The frame of a user page of the new root: cloned from a user page of the active root, or shared
with it. -/
theorem Created.leaf_cases (h : Created p m copyUser m' (some r)) (hwf : WellFormed p m)
    (hg : NoGiant m.mem m.cr3) (hv : isUserLeaf (leafEntry m'.mem r v) = true) :
    frameAt ownedBy m'.mem r (leafPath v) = some (entryAddr (leafEntry m'.mem r v)) ∨
      leafEntry m'.mem r v = leafEntry m.mem m.cr3 v := by
  by_cases h4 : l4Index v = 0
  · by_cases hhigh : userCodeAddr ≤ pdVaddr (l3Index v) (l2Index v)
    · refine .inl ?_
      unfold leafEntry at hv ⊢
      rw [ptPath, h4, ← frameAt_owned_pt hhigh] at hv ⊢
      cases ht : frameAt ownedBy m'.mem r [l2Index v, l3Index v, 0] with
      | none =>
        rw [ht] at hv
        exact absurd (show isUserLeaf 0#64 = true from hv) (by decide)
      | some t =>
        rw [ht] at hv
        exact owned_leaf.mpr ⟨t, ht, hv, rfl⟩
    · exact .inr (h.leafEntry_low hwf hg h4 (Nat.lt_of_not_le hhigh))
  · exact .inr (h.leafEntry_shared hwf h4)

/-- **The root of a process is copied to the root of a process.** -/
theorem Created.space (h : Created p m copyUser m' (some r)) (hs : ProcessSpace p m m.cr3) :
    ProcessSpace p m' r := by
  have hwf : WellFormed p m := hs.ok
  have htaken := h.taken r rfl
  -- The new frames were free, those of the active root were not.
  have hnew : ∀ {q f}, frameAt ownedBy m'.mem r q = some f → f ∈ p.freeFrames m.bitmap :=
    fun hq => htaken.sub (mem_footprint hq)
  have hold : ∀ {q f}, frameAt tableOf m.mem m.cr3 q = some f → f ∉ p.freeFrames m.bitmap :=
    fun hq => hwf.used _ (mem_footprint hq)
  refine ⟨⟨?_, ?_, ?_⟩, ?_, ?_, ?_⟩
  · intro q q' f hq hq'
    rcases h.table_cases hwf hs.noGiant hq with ho | ho <;>
      rcases h.table_cases hwf hs.noGiant hq' with ho' | ho'
    · exact h.priv r rfl q q' f ho ho'
    · exact absurd (hnew ho) (hold ho')
    · exact absurd (hnew ho') (hold ho)
    · exact hwf.priv q q' f ho ho'
  · rintro f ⟨q, hq⟩
    rcases h.table_cases hwf hs.noGiant hq with ho | ho
    · exact htaken.not_free (mem_footprint ho)
    · exact htaken.not_free_of_not_free (hold ho)
  · rintro f ⟨q, hq⟩ x hx
    rcases h.copied_cases hwf hs.noGiant hq x with hz | ⟨_, -, -, hpr, -⟩
    · exact hz
    · rw [hpr] at hx
      cases hx
  · intro q t x hq hlen hx
    rcases h.copied_cases hwf hs.noGiant hq x with hz | ⟨src, hsrc, hpr, -, -, hh⟩
    · rw [hz]
      decide
    · rw [hh]
      exact hs.noGiant q src x hsrc hlen hpr
  · intro q t x hq hlen hx
    obtain ⟨hpr, hh⟩ := isTable_eq_true.mp hx
    rcases h.copied_cases hwf hs.noGiant hq x with hz | ⟨src, hsrc, hpr', -, hu, hh'⟩
    · rw [hz] at hpr
      exact absurd hpr (by decide)
    · rw [hu]
      exact hs.userTables q src x hsrc hlen (isTable_eq_true.mpr ⟨hpr', hh'.symm.trans hh⟩)
  · intro v hv
    rcases h.leaf_cases hwf hs.noGiant hv with ho | heq
    · refine ⟨htaken.not_free (mem_footprint ho), ?_⟩
      rintro ⟨q, hq⟩
      rcases h.table_cases hwf hs.noGiant hq with hq' | hq'
      · have hlen := length_of_frameAt_tableOf hq
        rw [h.priv r rfl _ _ _ hq' ho] at hlen
        simp [leafPath] at hlen
      · exact hold hq' (hnew ho)
    · rw [heq] at hv ⊢
      obtain ⟨hfree, htab⟩ := hs.leaf v hv
      refine ⟨htaken.not_free_of_not_free hfree, ?_⟩
      rintro ⟨q, hq⟩
      rcases h.table_cases hwf hs.noGiant hq with hq' | hq'
      · exact hfree (hnew hq')
      · exact htab ⟨q, hq'⟩

end Copied

theorem bootMach_space : ProcessSpace bootPmm bootMach bootMach.cr3 := by
  refine ⟨bootMach_wellFormed, bootMem_noGiant bootFrames, bootMem_userTables bootFrames, ?_⟩
  intro v hv
  rw [show leafEntry bootMach.mem bootMach.cr3 v = 0#64 from bootMem_leafEntry bootFrames v] at hv
  exact absurd hv (by decide)

end Vibix.Paging
