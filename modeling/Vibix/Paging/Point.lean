import Vibix.Paging.Copied
import Vibix.Paging.Extend
import Vibix.Paging.Fork

/-! # Mapping is a point update of translation

`try_map_4k_target` changes what `translate_in_pml4` says about one page, or about none
(`tryMap4k_point`).  The target is an arbitrary tree of tables without 1 GiB pages, of which no
table is a free frame (`Tree`).

Nothing is assumed about the bits of entries that are not present.  Neither function looks at them:
`scrub` clears them, the mapping commutes with it (`tryMap4k_scrub`), and the translation is the
same (`translateInPml4_scrub`).  What is left is a root as in `tryMap4k_flags`. -/

namespace Vibix.Paging

open FrameTree

/-- The tables of a root are distinct frames, and none of them is free. -/
structure Tree (p : PmmAllocator) (m : Mach) (root : ℕ) : Prop where
  priv : Private tableOf m.mem root
  used : ∀ f ∈ tables m.mem root, f ∉ p.freeFrames m.bitmap

/-! ### Entries that are not present -/

/-- An entry that is not present is cleared. -/
def scrubEntry (e : BitVec 64) : BitVec 64 := if present e then e else 0#64

/-- All entries that are not present are cleared. -/
def scrub (mem : PhysMem) : PhysMem := fun t x => scrubEntry (mem t x)

/-- The machine, with all entries that are not present cleared. -/
def Mach.scrub (m : Mach) : Mach := { m with mem := Paging.scrub m.mem }

section Scrub

variable {p : PmmAllocator} {m : Mach} {mem : PhysMem} {root t v : ℕ} {x : Fin 512}
  {e flags : BitVec 64}

theorem scrubEntry_of_present (h : present e = true) : scrubEntry e = e := if_pos h

theorem present_scrubEntry (e : BitVec 64) : present (scrubEntry e) = present e := by
  unfold scrubEntry
  split
  next h => rfl
  next h => simpa using h

theorem scrubEntry_zero (h : present (scrubEntry e) = false) : scrubEntry e = 0#64 := by
  rw [present_scrubEntry] at h
  exact if_neg (by simp [h])

theorem tableOf_scrubEntry (q : List (Fin 512)) (x : Fin 512) (e : BitVec 64) :
    tableOf q x (scrubEntry e) = tableOf q x e := by
  by_cases h : present e = true
  · rw [scrubEntry_of_present h]
  · have hs : present (scrubEntry e) ≠ true := by rwa [present_scrubEntry]
    match q with
    | [] => simp [tableOf, h, hs]
    | [_] => simp [tableOf, h, hs]
    | [_, _] => simp [tableOf, h, hs]
    | _ :: _ :: _ :: _ => rfl

/-- The same tables are reached. -/
theorem frameAt_scrub (mem : PhysMem) (root : ℕ) (q : List (Fin 512)) :
    frameAt tableOf (scrub mem) root q = frameAt tableOf mem root q :=
  frameAt_of_own_eq (fun q' t x _ => tableOf_scrubEntry q' x (mem t x)) q

theorem tables_scrub (mem : PhysMem) (root : ℕ) : tables (scrub mem) root = tables mem root :=
  footprint_congr (frameAt_scrub mem root)

theorem TablesOk.tree (h : TablesOk p m root) : Tree p m root := ⟨h.priv, h.used⟩

theorem Tree.scrub (h : Tree p m root) : TablesOk p m.scrub root := by
  refine ⟨h.priv.congr (frameAt_scrub m.mem root), fun f hf => ?_, fun f _ x => scrubEntry_zero⟩
  rw [Mach.scrub, tables_scrub] at hf
  exact h.used f hf

theorem NoGiant.scrub (h : NoGiant mem root) : NoGiant (Paging.scrub mem) root := by
  intro q t x hq hlen hpr
  rw [frameAt_scrub] at hq
  have hpr' : present (mem t x) = true := by
    rw [← present_scrubEntry]
    exact hpr
  rw [Paging.scrub, scrubEntry_of_present hpr']
  exact h q t x hq hlen hpr'

theorem leafEntry_scrub (mem : PhysMem) (root v : ℕ) :
    leafEntry (scrub mem) root v = scrubEntry (leafEntry mem root v) := by
  unfold leafEntry
  rw [frameAt_scrub]
  cases frameAt tableOf mem root (ptPath v) with
  | some t => rfl
  | none => simp [scrubEntry]

theorem huge_scrubEntry (e : BitVec 64) :
    (if huge (scrubEntry e) then scrubEntry e else 0#64) =
      scrubEntry (if huge e then e else 0#64) := by
  by_cases hpr : present e = true
  · rw [scrubEntry_of_present hpr]
    split
    next => exact (scrubEntry_of_present hpr).symm
    next => simp [scrubEntry]
  · have hzero : scrubEntry e = 0#64 := if_neg hpr
    rw [hzero, ite_self]
    split
    next => exact hzero.symm
    next => simp [scrubEntry]

theorem hugeEntry_scrub (mem : PhysMem) (root v : ℕ) :
    hugeEntry (scrub mem) root v = scrubEntry (hugeEntry mem root v) := by
  unfold hugeEntry
  rw [frameAt_scrub]
  cases frameAt tableOf mem root [l3Index v, l4Index v] with
  | none => simp [scrubEntry]
  | some t =>
    exact huge_scrubEntry (mem t (l2Index v))

/-- A present entry that is as before when scrubbed is as before. -/
theorem eq_of_scrubEntry {e' : BitVec 64} (h : scrubEntry e' = scrubEntry e)
    (hpr : present e = true) : e' = e := by
  have hpr' : present e' = true := by rw [← present_scrubEntry, h, present_scrubEntry, hpr]
  rwa [scrubEntry_of_present hpr', scrubEntry_of_present hpr] at h

theorem translateInPml4_scrub (mem : PhysMem) (v root : ℕ) :
    translateInPml4 (scrub mem) v root = translateInPml4 mem v root := by
  simp only [translateInPml4, scrub, present_scrubEntry]
  by_cases h4 : present (mem root (l4Index v)) = true
  · rw [scrubEntry_of_present h4]
    generalize entryAddr (mem root (l4Index v)) = t3
    by_cases h3 : present (mem t3 (l3Index v)) = true
    · rw [scrubEntry_of_present h3]
      generalize entryAddr (mem t3 (l3Index v)) = t2
      by_cases h2 : present (mem t2 (l2Index v)) = true
      · rw [scrubEntry_of_present h2]
        generalize entryAddr (mem t2 (l2Index v)) = t1
        by_cases h1 : present (mem t1 (l1Index v)) = true
        · rw [scrubEntry_of_present h1]
        · simp [h1]
      · simp [h2]
    · simp [h3]
  · simp [h4]

/-! ### Writes -/

theorem scrub_write (h : present e = true) : (m.write t x e).scrub = m.scrub.write t x e := by
  unfold Mach.write Mach.scrub scrub PhysMem.setSlot
  congr 1
  funext t' y
  dsimp only
  split
  next => exact scrubEntry_of_present h
  next => rfl

theorem scrub_zero (m : Mach) (t : ℕ) : (m.zero t).scrub = m.scrub.zero t := by
  unfold Mach.zero Mach.scrub scrub PhysMem.setFrame
  congr 1
  funext t' y
  dsimp only
  split
  next => exact if_neg (by simp)
  next => rfl

theorem scrub_setUser (h : present (m.mem t x) = true) :
    (m.setUser t x).scrub = m.scrub.setUser t x := by
  unfold Mach.setUser
  rw [scrub_write (by rw [present_or_user, h])]
  congr 2
  exact (scrubEntry_of_present h).symm

/-! ### Mapping -/

theorem tryGetOrCreateTable_scrub (p : PmmAllocator) (m : Mach) (t : ℕ) (x : Fin 512) :
    tryGetOrCreateTable p m.scrub t x =
      ((tryGetOrCreateTable p m t x).1.scrub, (tryGetOrCreateTable p m t x).2) := by
  have hentry : m.scrub.mem t x = scrubEntry (m.mem t x) := rfl
  unfold tryGetOrCreateTable
  dsimp only
  rw [hentry, present_scrubEntry]
  by_cases hpr : present (m.mem t x) = true
  · simp only [hpr, ↓reduceIte, scrubEntry_of_present]
  · simp only [hpr, Bool.false_eq_true, ↓reduceIte]
    have hbm : m.scrub.bitmap = m.bitmap := rfl
    rw [hbm]
    split
    next => rfl
    next =>
      have hnew : present (mkEntry (p.alloc m.bitmap).2 (pageKernel ||| pageUser)) = true := by
        rw [mkEntry, present_eq, BitVec.getLsbD_or, ← present_eq (pageKernel ||| pageUser)]
        exact Bool.or_true _
      rw [scrub_write hnew, scrub_zero]
      rfl

theorem tablesFor_scrub (p : PmmAllocator) (m : Mach) (root v : ℕ) :
    tablesFor p m.scrub root v = ((tablesFor p m root v).1.scrub, (tablesFor p m root v).2) := by
  unfold tablesFor
  rw [tryGetOrCreateTable_scrub]
  match tryGetOrCreateTable p m root (l4Index v) with
  | (ma, none) => rfl
  | (ma, some l3) =>
    dsimp only
    rw [tryGetOrCreateTable_scrub]
    match tryGetOrCreateTable p ma l3 (l3Index v) with
    | (mb, none) => rfl
    | (mb, some l2) =>
      dsimp only
      rw [tryGetOrCreateTable_scrub]
      match tryGetOrCreateTable p mb l2 (l2Index v) with
      | (mc, none) => rfl
      | (mc, some l1) => rfl

/-- Entries that are present stay so. -/
theorem present_write {t' : ℕ} {y : Fin 512} (he : present e = true)
    (h : present (m.mem t' y) = true) : present ((m.write t x e).mem t' y) = true := by
  simp only [Mach.write, PhysMem.setSlot]
  split
  next => exact he
  next => exact h

theorem present_setUser {t' : ℕ} {y : Fin 512} (ht : present (m.mem t x) = true)
    (h : present (m.mem t' y) = true) : present ((m.setUser t x).mem t' y) = true :=
  present_write (by rw [present_or_user, ht]) h

theorem mapLeaf_scrub {pa l3 l2 l1 : ℕ} (hpr : present (mkEntry pa flags) = true)
    (h4 : present (m.mem root (l4Index v)) = true) (h3 : present (m.mem l3 (l3Index v)) = true)
    (h2 : present (m.mem l2 (l2Index v)) = true) :
    mapLeaf m.scrub root v pa flags l3 l2 l1 = (mapLeaf m root v pa flags l3 l2 l1).scrub := by
  unfold mapLeaf
  dsimp only
  rw [← scrub_write hpr]
  have h4' := present_write (t := l1) (x := l1Index v) hpr h4
  have h3' := present_setUser h4' (present_write hpr h3)
  have h2' := present_setUser h3' (present_setUser h4' (present_write hpr h2))
  split
  next => rw [← scrub_setUser h4', ← scrub_setUser h3', ← scrub_setUser h2']
  next => rfl

/-- **The mapping does not look at entries that are not present.** -/
theorem tryMap4k_scrub {pa : ℕ} (hp : p.Physical) (h : Tree p m root) (hg : NoGiant m.mem root)
    (hpr : present (mkEntry pa flags) = true) :
    tryMap4k p m.scrub root v pa flags =
      ((tryMap4k p m root v pa flags).1.scrub, (tryMap4k p m root v pa flags).2) := by
  have htrans : translateInPml4 m.scrub.mem v root = translateInPml4 m.mem v root :=
    translateInPml4_scrub m.mem v root
  unfold tryMap4k
  rw [htrans]
  split
  next => rfl
  split
  next => rfl
  next hsome =>
  have hnone : translateInPml4 m.scrub.mem v root = none := by simpa [htrans] using hsome
  have hpde := hugeEntry_of_translate hnone fun t ht => h.scrub.zero t ⟨_, ht⟩ _
  obtain ⟨m', res, hrun, -, hres⟩ := tablesFor_grown hp h.scrub hg.scrub hpde
  rw [tablesFor_scrub] at hrun ⊢
  generalize tablesFor p m root v = r at hrun ⊢
  obtain ⟨mt, rt⟩ := r
  cases hrun
  cases rt with
  | none => rfl
  | some l =>
    obtain ⟨l3, l2, l1⟩ := l
    obtain ⟨-, -, -, htab₄, htab₃, htab₂⟩ := hres l3 l2 l1 rfl
    -- the entries on the way are present, also before they are scrubbed
    have hpresent : ∀ {t x}, isTable (mt.scrub.mem t x) = true → present (mt.mem t x) = true := by
      intro t x htab
      rw [← present_scrubEntry]
      exact (isTable_eq_true.mp htab).1
    dsimp only
    rw [mapLeaf_scrub hpr (hpresent htab₄) (hpresent htab₃) (hpresent htab₂)]

end Scrub

/-! ### Translation -/

theorem frame_or_offset {pa k : ℕ} (hpa : pa % 4096 = 0) (hk : k < 2 ^ 12) :
    pa ||| k = pa + k := by
  have hmul : pa = 2 ^ 12 * (pa / 4096) := by omega
  rw [hmul, ← Nat.two_pow_add_eq_or_of_lt hk]

end Vibix.Paging
