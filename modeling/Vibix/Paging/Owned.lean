import Vibix.Paging.Create

/-! # What a root owns, and destroying it

The frames a root owns (`owned`) listed level by level, and that `destroyUncommittedPml4` gives
back exactly these (`mem_destroyFrames`), provided the root has no user huge page at or above
`USER_CODE_ADDR` (`NoUserHuge`), which no constructor ever creates. -/

namespace Vibix.Paging

open FrameTree

section Levels

variable {mem : PhysMem} {root f t : ℕ} {i j k x : Fin 512}

/-- An entry that leads to a table of the next level. -/
def isTable (e : BitVec 64) : Bool := present e && !huge e

/-- An entry that maps a user leaf. -/
def isUserLeaf (e : BitVec 64) : Bool := present e && user e

theorem isTable_eq_true {e : BitVec 64} : isTable e = true ↔ present e = true ∧ huge e = false := by
  simp [isTable]

theorem isUserLeaf_eq_true {e : BitVec 64} :
    isUserLeaf e = true ↔ present e = true ∧ user e = true := by
  simp [isUserLeaf]

theorem owned_pdpt :
    frameAt ownedBy mem root [0] = some f ↔
      present (mem root 0) = true ∧ entryAddr (mem root 0) = f := by
  rw [frameAt_cons_of rfl]
  simp [ownedBy]

theorem owned_pd :
    frameAt ownedBy mem root [i, 0] = some f ↔
      ∃ t, frameAt ownedBy mem root [0] = some t ∧ isTable (mem t i) = true ∧
        entryAddr (mem t i) = f := by
  rw [frameAt_cons_eq_some]
  simp [ownedBy, isTable]

theorem owned_pt :
    frameAt ownedBy mem root [j, i, 0] = some f ↔
      ∃ t, frameAt ownedBy mem root [i, 0] = some t ∧ userCodeAddr ≤ pdVaddr i j ∧
        isTable (mem t j) = true ∧ entryAddr (mem t j) = f := by
  rw [frameAt_cons_eq_some]
  simp [ownedBy, isTable, and_assoc]

theorem owned_leaf :
    frameAt ownedBy mem root [k, j, i, 0] = some f ↔
      ∃ t, frameAt ownedBy mem root [j, i, 0] = some t ∧ isUserLeaf (mem t k) = true ∧
        entryAddr (mem t k) = f := by
  rw [frameAt_cons_eq_some]
  simp [ownedBy, isUserLeaf]

/-- Every owned frame is the root, its PDPT, a PD, a PT or a user leaf. -/
theorem owned_cases {path : List (Fin 512)} (h : frameAt ownedBy mem root path = some f) :
    path = [] ∨ path = [0] ∨ (∃ i, path = [i, 0]) ∨ (∃ i j, path = [j, i, 0]) ∨
      ∃ i j k, path = [k, j, i, 0] := by
  induction path generalizing f with
  | nil => exact Or.inl rfl
  | cons x q ih =>
    obtain ⟨t, ht, hown⟩ := frameAt_cons_eq_some.mp h
    rcases ih ht with rfl | rfl | ⟨i, rfl⟩ | ⟨i, j, rfl⟩ | ⟨i, j, k, rfl⟩
    · simp only [ownedBy] at hown
      split_ifs at hown with hx
      exact Or.inr (Or.inl (by rw [hx.1]))
    · exact Or.inr (Or.inr (Or.inl ⟨x, rfl⟩))
    · exact Or.inr (Or.inr (Or.inr (Or.inl ⟨i, x, rfl⟩)))
    · exact Or.inr (Or.inr (Or.inr (Or.inr ⟨i, j, x, rfl⟩)))
    · simp [ownedBy] at hown

/-- The owned frames, level by level. -/
theorem mem_owned : f ∈ owned mem root ↔ f = root ∨ frameAt ownedBy mem root [0] = some f ∨
    (∃ i, frameAt ownedBy mem root [i, 0] = some f) ∨
    (∃ i j, frameAt ownedBy mem root [j, i, 0] = some f) ∨
    ∃ i j k, frameAt ownedBy mem root [k, j, i, 0] = some f := by
  constructor
  · rintro ⟨path, hpath⟩
    rcases owned_cases hpath with rfl | rfl | ⟨i, rfl⟩ | ⟨i, j, rfl⟩ | ⟨i, j, k, rfl⟩
    · exact Or.inl (Option.some.inj hpath).symm
    · exact Or.inr (Or.inl hpath)
    · exact Or.inr (Or.inr (Or.inl ⟨i, hpath⟩))
    · exact Or.inr (Or.inr (Or.inr (Or.inl ⟨i, j, hpath⟩)))
    · exact Or.inr (Or.inr (Or.inr (Or.inr ⟨i, j, k, hpath⟩)))
  · rintro (rfl | h | ⟨i, h⟩ | ⟨i, j, h⟩ | ⟨i, j, k, h⟩)
    · exact root_mem_footprint
    · exact ⟨_, h⟩
    · exact ⟨_, h⟩
    · exact ⟨_, h⟩
    · exact ⟨_, h⟩

end Levels

/-! ### Destroying a root -/

/-- Every entry of the frames a root owns is as `Ok` says for its place in the tree. -/
def EntriesOk (Ok : List (Fin 512) → Fin 512 → BitVec 64 → Prop) (mem : PhysMem) (root : ℕ) :
    Prop :=
  ∀ q t x, frameAt ownedBy mem root q = some t → Ok q x (mem t x)

theorem EntriesOk.congr {Ok : List (Fin 512) → Fin 512 → BitVec 64 → Prop} {mem mem' : PhysMem}
    {root : ℕ} (h : EntriesOk Ok mem root) (hmem : ∀ f ∈ owned mem root, mem' f = mem f) :
    EntriesOk Ok mem' root := by
  intro q t x hq
  rw [frameAt_of_eqOn hmem] at hq
  rw [hmem t ⟨_, hq⟩]
  exact h q t x hq

/-- A PD entry of the user range does not map a user huge page. -/
def NotUserHuge (q : List (Fin 512)) (x : Fin 512) (e : BitVec 64) : Prop :=
  ∀ i, q = [i, 0] → userCodeAddr ≤ pdVaddr i x → present e = true → huge e = true → user e = false

theorem NotUserHuge.of_not_huge {q : List (Fin 512)} {x : Fin 512} {e : BitVec 64}
    (h : huge e = false) : NotUserHuge q x e := by
  intro i _ _ _ hh
  rw [h] at hh
  cases hh

theorem NotUserHuge.zero (q : List (Fin 512)) (x : Fin 512) : NotUserHuge q x 0#64 :=
  NotUserHuge.of_not_huge (by decide)

/-- No PD of the root maps a user huge page from `USER_CODE_ADDR` on. -/
abbrev NoUserHuge (mem : PhysMem) (root : ℕ) : Prop := EntriesOk NotUserHuge mem root

section Destroy

variable {p : PmmAllocator} {m : Mach} {root f : ℕ}

theorem mem_ptFrames {pt : ℕ} : f ∈ ptFrames m pt ↔
    (∃ k, isUserLeaf (m.mem pt k) = true ∧ entryAddr (m.mem pt k) = f) ∨ f = pt := by
  simp [ptFrames, isUserLeaf]

/-- **Destroying a root gives back what it owns.** -/
theorem mem_destroyFrames (h : NoUserHuge m.mem root) :
    f ∈ destroyFrames m root ↔ f ∈ owned m.mem root := by
  have hpde : ∀ i j d, frameAt ownedBy m.mem root [i, 0] = some d →
      (f ∈ pdeFrames m i d j ↔ frameAt ownedBy m.mem root [j, i, 0] = some f ∨
        ∃ k, frameAt ownedBy m.mem root [k, j, i, 0] = some f) := by
    intro i j d hd
    simp only [owned_leaf, owned_pt, hd, Option.some.injEq, exists_eq_left', pdeFrames]
    split_ifs with hp hv hh hu
    · have hnp : present (m.mem d j) = false := by simpa using hp
      simp [isTable, hnp]
    · simp [Nat.not_le.mpr hv]
    · have hno := h [i, 0] d j hd i rfl (Nat.not_lt.mp hv) (by simpa using hp) hh
      rw [hno] at hu
      cases hu
    · simp [isTable, hh]
    · have htab : isTable (m.mem d j) = true := by
        rw [isTable_eq_true]
        exact ⟨by simpa using hp, by simpa using hh⟩
      simp only [mem_ptFrames, Nat.not_lt.mp hv, htab, true_and]
      constructor
      · rintro (⟨k, hk, hf⟩ | hf)
        · exact Or.inr ⟨k, _, rfl, hk, hf⟩
        · exact Or.inl hf.symm
      · rintro (hf | ⟨k, t, rfl, hk, hf⟩)
        · exact Or.inr hf.symm
        · exact Or.inl ⟨k, hk, hf⟩
  have hpdpte : ∀ i t, frameAt ownedBy m.mem root [0] = some t →
      (f ∈ pdpteFrames m t i ↔ frameAt ownedBy m.mem root [i, 0] = some f ∨
        (∃ j, frameAt ownedBy m.mem root [j, i, 0] = some f) ∨
        ∃ j k, frameAt ownedBy m.mem root [k, j, i, 0] = some f) := by
    intro i t ht
    have hpd : ∀ g, frameAt ownedBy m.mem root [i, 0] = some g ↔
        isTable (m.mem t i) = true ∧ entryAddr (m.mem t i) = g := by
      intro g
      simp [owned_pd, ht]
    simp only [pdpteFrames]
    split_ifs with hp
    · have hnone : isTable (m.mem t i) = false := by
        rw [isTable]
        cases hpr : present (m.mem t i) <;> simp_all
      have hno : frameAt ownedBy m.mem root [i, 0] = none := by
        rw [Option.eq_none_iff_forall_ne_some]
        intro g hg
        rw [hpd, hnone] at hg
        cases hg.1
      simp [frameAt_cons, hno]
    · have htab : isTable (m.mem t i) = true := by
        rw [isTable]
        simpa [not_or] using hp
      have hd : frameAt ownedBy m.mem root [i, 0] = some (entryAddr (m.mem t i)) :=
        (hpd _).mpr ⟨htab, rfl⟩
      simp only [List.mem_append, List.mem_flatMap, List.mem_finRange, true_and,
        List.mem_singleton, hpde i _ _ hd]
      rw [hd, Option.some.injEq, exists_or, eq_comm, or_comm]
  rw [mem_owned, destroyFrames]
  split_ifs with hp
  · have hno : frameAt ownedBy m.mem root [0] = none := by
      rw [Option.eq_none_iff_forall_ne_some]
      intro g hg
      have hnp : present (m.mem root 0) = false := by simpa using hp
      rw [owned_pdpt, hnp] at hg
      cases hg.1
    simp [frameAt_cons, hno]
  · have ht : frameAt ownedBy m.mem root [0] = some (entryAddr (m.mem root 0)) :=
      owned_pdpt.mpr ⟨by simpa using hp, rfl⟩
    simp only [List.mem_append, List.mem_flatMap, List.mem_finRange, true_and, List.mem_cons,
      List.not_mem_nil, or_false, hpdpte _ _ ht]
    rw [ht, Option.some.injEq, exists_or, exists_or]
    constructor
    · rintro (h | rfl | rfl)
      · exact Or.inr (Or.inr h)
      · exact Or.inr (Or.inl rfl)
      · exact Or.inl rfl
    · rintro (rfl | rfl | h)
      · exact Or.inr (Or.inr rfl)
      · exact Or.inr (Or.inl rfl)
      · exact Or.inl h

end Destroy

end Vibix.Paging
