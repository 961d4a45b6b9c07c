import Vibix.Lib.Spec
import Vibix.Paging.Fork
import Vibix.Paging.MapPage

/-! # Process roots

The root that `create_pml4` returns is laid out as a process root (`Created.built`), so that pages
can be mapped and unmapped in it and the whole be destroyed again.  In such a root an access to the
user range reaches only the leaves it owns (`Built.walk_user`), and writing to a leaf keeps the
layout (`Built.setLeaf`).  Destroying it undoes its construction (`restored_destroy`). -/

namespace Vibix.Paging

open FrameTree

/-! ### The levels of a copied root -/

section Levels

variable {p : PmmAllocator} {m : Mach} {copyUser : Bool} {mem : PhysMem} {r t : ℕ}
  {i j k : Fin 512} {D : Set ℕ} {src e : BitVec 64}

/-- The PDPT of a copied root. -/
theorem RootCopied.pdpt (h : RootCopied p m copyUser mem r)
    (ht : frameAt ownedBy mem r [0] = some t) :
    frameAt ownedBy m.mem m.cr3 [0] = some (entryAddr (m.mem m.cr3 0)) ∧
      user (mem r 0) = user (m.mem m.cr3 0) ∧ isTable (mem r 0) = true ∧
      ∀ i, PdpteCopied p m copyUser i (below ownedBy mem r []) mem
        (m.mem (entryAddr (m.mem m.cr3 0)) i) (mem t i) := by
  obtain ⟨hpr, rfl⟩ := owned_pdpt.mp ht
  have hfirst := h.first
  generalize hentry : mem r 0 = e at hfirst hpr ⊢
  cases hfirst with
  | absent => simp at hpr
  | @table pdpt hsrc hframe hin hall =>
    rw [entryAddr_mkEntry hframe (noAddr_tableFlags _)]
    refine ⟨owned_pdpt.mpr ⟨hsrc, rfl⟩, ?_, ?_, hall⟩
    · rw [user_mkEntry hframe, user_tableFlags]
    · rw [isTable_eq_true, present_mkEntry hframe, huge_mkEntry hframe, present_tableFlags,
        huge_tableFlags]
      exact ⟨hsrc, rfl⟩

/-- The PD under a copied PDPT entry. -/
theorem PdpteCopied.pd (h : PdpteCopied p m copyUser i D mem src e) (he : isTable e = true) :
    i ≠ scratchIndex ∧ isTable src = true ∧ user e = user src ∧
      ∀ j, PdeCopied p m copyUser i j D mem (m.mem (entryAddr src) j) (mem (entryAddr e) j) := by
  rw [isTable_eq_true] at he
  cases h with
  | absent => simp at he
  | scratch => simp at he
  | dropped => simp at he
  | hugePage _ hh => simp [huge_freshHuge, hh] at he
  | table hi htab hframe _ hall =>
    rw [entryAddr_mkEntry hframe (noAddr_tableFlags _), user_mkEntry hframe, user_tableFlags]
    exact ⟨hi, htab, rfl, hall⟩

/-- The PT under a copied PD entry of the user range. -/
theorem PdeCopied.pt (h : PdeCopied p m copyUser i j D mem src e) (he : isTable e = true)
    (hv : userCodeAddr ≤ pdVaddr i j) :
    copyUser = true ∧ isTable src = true ∧ user e = user src ∧
      ∀ k, PteCopied p m D mem (m.mem (entryAddr src) k) (mem (entryAddr e) k) := by
  rw [isTable_eq_true] at he
  cases h with
  | absent => simp at he
  | dropped => simp at he
  | shared hlow => exact absurd hlow (Nat.not_lt.mpr hv)
  | kernelHuge _ _ hh => simp [hh] at he
  | cloned _ hc htab hframe _ hall =>
    rw [entryAddr_mkEntry hframe (noAddr_compl _), user_mkEntry hframe, user_compl]
    exact ⟨hc, htab, rfl, hall⟩

theorem FirstCopied.layout (h : FirstCopied p m copyUser D mem src e) :
    e = 0#64 ∨ isTable e = true := by
  cases h with
  | absent => exact Or.inl rfl
  | table hsrc hframe =>
    right
    rw [isTable_eq_true, present_mkEntry hframe, huge_mkEntry hframe, present_tableFlags,
      huge_tableFlags]
    exact ⟨hsrc, rfl⟩

theorem PdpteCopied.layout (h : PdpteCopied p m copyUser i D mem src e)
    (hsrc : huge src = false) : e = 0#64 ∨ isTable e = true := by
  cases h with
  | absent => exact Or.inl rfl
  | scratch => exact Or.inl rfl
  | dropped => exact Or.inl rfl
  | hugePage _ hh =>
    rw [hsrc] at hh
    cases hh
  | table _ htab hframe =>
    right
    rw [isTable_eq_true, present_mkEntry hframe, huge_mkEntry hframe, present_tableFlags,
      huge_tableFlags]
    exact ⟨(isTable_eq_true.mp htab).1, rfl⟩

theorem PdeCopied.layout (h : PdeCopied p m copyUser i j D mem src e)
    (hv : userCodeAddr ≤ pdVaddr i j)
    (hsrc : copyUser = true → src = 0#64 ∨ isTable src = true) : e = 0#64 ∨ isTable e = true := by
  cases h with
  | absent => exact Or.inl rfl
  | dropped => exact Or.inl rfl
  | shared hlow => exact absurd hlow (Nat.not_lt.mpr hv)
  | kernelHuge _ hc => exact hsrc hc
  | cloned _ _ htab hframe =>
    right
    rw [isTable_eq_true, present_mkEntry hframe, huge_mkEntry hframe, present_compl, huge_compl]
    exact isTable_eq_true.mp htab

theorem PdeCopied.layout_low (h : PdeCopied p m copyUser i j D mem src e)
    (hv : pdVaddr i j < userCodeAddr) : e = 0#64 ∨ e = src := by
  cases h with
  | absent => exact Or.inl rfl
  | dropped => exact Or.inl rfl
  | shared => exact Or.inr rfl
  | kernelHuge => exact Or.inr rfl
  | cloned hv' => exact absurd hv (Nat.not_lt.mpr hv')

theorem PteCopied.layout (h : PteCopied p m D mem src e)
    (hsrc : src = 0#64 ∨ isUserLeaf src = true) : e = 0#64 ∨ isUserLeaf e = true := by
  cases h with
  | shared => exact hsrc
  | cloned hleaf hframe =>
    right
    rw [isUserLeaf_eq_true, present_mkEntry hframe, user_mkEntry hframe, present_compl,
      user_compl]
    exact isUserLeaf_eq_true.mp hleaf

end Levels

/-! ### The layout of a created root -/

section Created

variable {p : PmmAllocator} {m m' : Mach} {copyUser : Bool} {r : ℕ}
  {H : Fin 512 → BitVec 64 → Prop} {Lo : BitVec 64 → Prop}

/-- What is needed of the active root for the copy to be a process root; nothing about its user
part if that is not copied. -/
structure ParentOk (H : Fin 512 → BitVec 64 → Prop) (Lo : BitVec 64 → Prop) (copyUser : Bool)
    (m : Mach) : Prop where
  top : ∀ x, x ≠ 0 → H x (m.mem m.cr3 x)
  pdpte : ∀ t i, frameAt ownedBy m.mem m.cr3 [0] = some t → huge (m.mem t i) = false
  low : ∀ i j t, frameAt ownedBy m.mem m.cr3 [i, 0] = some t → pdVaddr i j < userCodeAddr →
    m.mem t j = 0#64 ∨ Lo (m.mem t j)
  space : copyUser = true → EntriesOk (SpaceOk H Lo) m.mem m.cr3

theorem Created.entries (h : Created p m copyUser m' (some r)) (hm : ParentOk H Lo copyUser m) :
    EntriesOk (SpaceOk H Lo) m'.mem r := by
  have hcopy := h.copied r rfl
  intro q t x hq
  rcases owned_cases hq with rfl | rfl | ⟨i, rfl⟩ | ⟨i, j, rfl⟩ | ⟨i, j, k, rfl⟩
  · obtain rfl := Option.some.inj hq
    by_cases hx : x = 0
    · subst hx
      simp only [SpaceOk, ↓reduceIte]
      exact hcopy.first.layout
    · simp only [SpaceOk, hx, ↓reduceIte]
      rw [hcopy.kernel x hx]
      exact hm.top x hx
  · obtain ⟨hsrc, -, -, hall⟩ := hcopy.pdpt hq
    exact (hall x).layout (hm.pdpte _ x hsrc)
  · obtain ⟨t3, ht3, htab, rfl⟩ := owned_pd.mp hq
    obtain ⟨hsrc, -, -, hall⟩ := hcopy.pdpt ht3
    obtain ⟨-, htab', -, hpd⟩ := (hall i).pd htab
    have hsrc' := owned_pd.mpr ⟨_, hsrc, htab', rfl⟩
    by_cases hv : pdVaddr i x < userCodeAddr
    · simp only [SpaceOk, hv, ↓reduceIte]
      rcases (hpd x).layout_low hv with he | he
      · exact Or.inl he
      · rw [he]
        exact hm.low i x _ hsrc' hv
    · simp only [SpaceOk, hv, ↓reduceIte]
      refine (hpd x).layout (Nat.not_lt.mp hv) fun hc => ?_
      have hok := hm.space hc _ _ x hsrc'
      simpa only [SpaceOk, hv, ↓reduceIte] using hok
  · obtain ⟨t2, ht2, hv, htab₂, rfl⟩ := owned_pt.mp hq
    obtain ⟨t3, ht3, htab, rfl⟩ := owned_pd.mp ht2
    obtain ⟨hsrc, -, -, hall⟩ := hcopy.pdpt ht3
    obtain ⟨-, htab', -, hpd⟩ := (hall i).pd htab
    obtain ⟨hc, htab₂', -, hpt⟩ := (hpd j).pt htab₂ hv
    exact (hpt x).layout (hm.space hc _ _ x
      (owned_pt.mpr ⟨_, owned_pd.mpr ⟨_, hsrc, htab', rfl⟩, hv, htab₂', rfl⟩))
  · trivial

/-- **A created root** is a process root. -/
theorem Created.built (h : Created p m copyUser m' (some r)) (hm : ParentOk H Lo copyUser m) :
    Built p (SpaceOk H Lo) m r ∅ m' := by
  refine ⟨h.cr3, ?_, by simp, h.priv r rfl, h.used, h.entries hm⟩
  rw [Set.union_empty]
  exact h.taken r rfl

end Created

/-! ### Accesses to the user range -/

section Access

variable {p : PmmAllocator} {m₁ m : Mach} {r f v pa : ℕ} {E : Set ℕ} {q : List (Fin 512)}
  {H : Fin 512 → BitVec 64 → Prop} {Lo : BitVec 64 → Prop}

/-- **Writing to a leaf** keeps the tree and its layout. -/
theorem Built.setLeaf {mem : PhysMem} (h : Built p (SpaceOk H Lo) m₁ r E m) (hq : q.length = 4)
    (hf : frameAt ownedBy m.mem r q = some f) (hmem : ∀ g, g ≠ f → mem g = m.mem g) :
    Built p (SpaceOk H Lo) m₁ r E { m with mem := mem } ∧
      ∀ path, frameAt ownedBy mem r path = frameAt ownedBy m.mem r path := by
  -- a leaf has no entries that own anything
  have hleaf : ∀ q' y, frameAt ownedBy m.mem r q' = some f → ∀ e, ownedBy q' y e = none ∧
      SpaceOk H Lo q' y e := by
    intro q' y hq' e
    rw [h.priv q' q f hq' hf]
    match q, hq with
    | [_, _, _, _], _ => exact ⟨rfl, trivial⟩
  have hframe : ∀ path, frameAt ownedBy mem r path = frameAt ownedBy m.mem r path := by
    apply frameAt_of_own_eq
    intro q' t y hq'
    by_cases ht : t = f
    · subst ht
      rw [(hleaf q' y hq' _).1, (hleaf q' y hq' _).1]
    · rw [hmem t ht]
  have howned : owned mem r = owned m.mem r := footprint_congr hframe
  refine ⟨⟨h.cr3, ?_, ?_, h.priv.congr hframe, ?_, ?_⟩, hframe⟩
  · rw [howned]
    exact h.taken
  · rw [howned]
    exact h.extra
  · intro g hg
    refine (hmem g ?_).trans (h.outside g hg)
    rintro rfl
    exact hg (h.free_of_owned ⟨q, hf⟩)
  · intro q' t y hq'
    rw [hframe] at hq'
    by_cases ht : t = f
    · subst ht
      exact (hleaf q' y hq' _).2
    · simp only [hmem t ht]
      exact h.entries q' t y hq'

/-- **An access to the user range** of a process root reaches a leaf it owns. -/
theorem Built.walk_user (h : Built p (SpaceOk H Lo) m₁ r E m) (hlow : userCodeAddr ≤ v)
    (hv : v < 2 ^ 39) (hwalk : walk m.mem r v = some pa) :
    ∃ f, frameAt ownedBy m.mem r (leafPath v) = some f ∧ pa = f + v % 4096 := by
  have htable : ∀ {q t x}, frameAt ownedBy m.mem r q = some t → TablePlace q x →
      present (m.mem t x) = true → isTable (m.mem t x) = true := by
    intro q t x hq hplace hpr
    refine (hplace.cases (h.entries q t x hq)).resolve_left fun hz => ?_
    simp [hz] at hpr
  simp only [walk, l4Index_low hv, Bool.not_eq_true'] at hwalk
  split at hwalk
  next => cases hwalk
  next hpr₄ =>
  have ht3 := owned_pdpt.mpr ⟨Bool.eq_true_of_not_eq_false hpr₄, rfl⟩
  split at hwalk
  next => cases hwalk
  next hpr₃ =>
  have htab₃ := htable ht3 (.pd (l3Index v)) (Bool.eq_true_of_not_eq_false hpr₃)
  have ht2 := owned_pd.mpr ⟨_, ht3, htab₃, rfl⟩
  rw [if_neg (by simp [(isTable_eq_true.mp htab₃).2])] at hwalk
  split at hwalk
  next => cases hwalk
  next hpr₂ =>
  have htab₂ := htable ht2 (.pt (pdVaddr_high hlow hv)) (Bool.eq_true_of_not_eq_false hpr₂)
  have ht1 := owned_pt.mpr ⟨_, ht2, pdVaddr_high hlow hv, htab₂, rfl⟩
  rw [if_neg (by simp [(isTable_eq_true.mp htab₂).2])] at hwalk
  split at hwalk
  next => cases hwalk
  next hpr₁ =>
  have hok : _ ∨ isUserLeaf _ = true := h.entries _ _ (l1Index v) ht1
  have hleaf := hok.resolve_left fun hz => by simp [hz] at hpr₁
  exact ⟨_, owned_leaf.mpr ⟨_, ht1, hleaf, rfl⟩, (Option.some.inj hwalk).symm⟩

/-- The frame an access to the user range writes to. -/
theorem Built.frameOf_walk (h : Built p (SpaceOk H Lo) m₁ r E m) (hlow : userCodeAddr ≤ v)
    (hv : v < 2 ^ 39) (hwalk : walk m.mem r v = some pa) :
    frameAt ownedBy m.mem r (leafPath v) = some (PhysMem.frameOf pa) := by
  obtain ⟨f, hf, rfl⟩ := h.walk_user hlow hv hwalk
  obtain ⟨t, -, -, rfl⟩ := owned_leaf.mp hf
  rw [PhysMem.frameOf_add (isFrame_entryAddr _).1 (Nat.mod_lt _ (by norm_num)), hf]

end Access

/-! ### Giving up a root -/

/-- Destroy the root and stop with an error, as the builders do. -/
def abandon {ε α : Type} (p : PmmAllocator) (root : ℕ) (e : ε) : EStateM ε Mach α := do
  modify fun m => destroyUncommittedPml4 p m root
  throw e

section Abandon

variable {p : PmmAllocator} {m₁ m : Mach} {r : ℕ} {H : Fin 512 → BitVec 64 → Prop}
  {Lo : BitVec 64 → Prop}

/-- Nothing that was in use at `m₁` has changed, and the bitmap is that of `m₁`. -/
structure Restored (p : PmmAllocator) (m₁ m : Mach) : Prop where
  cr3 : m.cr3 = m₁.cr3
  bitmap : m.bitmap = m₁.bitmap
  used : ∀ f, f ∉ p.freeFrames m₁.bitmap → m.mem f = m₁.mem f

/-- **Destroying a process root** undoes its construction. -/
theorem restored_destroy (h : Built p (SpaceOk H Lo) m₁ r ∅ m) :
    Restored p m₁ (destroyUncommittedPml4 p m r) := by
  rw [h.destroy SpaceOk.notUserHuge]
  exact ⟨h.cr3, rfl, h.outside⟩

theorem abandon_restored {ε α : Type} {e : ε} {Q : α → Mach → Prop}
    (h : Built p (SpaceOk H Lo) m₁ r ∅ m) :
    Spec (abandon p r e) m Q (fun _ m' => Restored p m₁ m') :=
  restored_destroy h

end Abandon

end Vibix.Paging
