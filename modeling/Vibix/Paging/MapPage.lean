import Vibix.Paging.Boot
import Vibix.Paging.Map

/-! # Mapping a page in any root

What `try_map_4k` does to the address space of an arbitrary well-formed root, at any address.  A
root is seen as a function from pages to leaf entries (`leafEntry`), together with the pages that
user mode can access (`userLeaf`).  Linking tables changes neither (`Grown`), and the mapping as a
whole changes the one leaf (`tryMap4k_page`). -/

namespace Vibix.Paging

open FrameTree

/-- The indices of a page from the PT up to the PML4. -/
abbrev ptPath (v : ℕ) : List (Fin 512) := [l2Index v, l3Index v, l4Index v]

/-- The leaf entry of a page; zero if there is no PT. -/
def leafEntry (mem : PhysMem) (root v : ℕ) : BitVec 64 :=
  match frameAt tableOf mem root (ptPath v) with
  | some t => mem t (l1Index v)
  | none => 0#64

/-- An entry through which user mode reaches the next table. -/
def isUserTable (e : BitVec 64) : Bool := isTable e && user e

/-- The leaf entry of a 4 KiB page that user mode can access. -/
def userLeaf (mem : PhysMem) (root v : ℕ) : Option (BitVec 64) :=
  let l4e := mem root (l4Index v)
  if !isUserTable l4e then none
  else
    let l3e := mem (entryAddr l4e) (l3Index v)
    if !isUserTable l3e then none
    else
      let l2e := mem (entryAddr l3e) (l2Index v)
      if !isUserTable l2e then none
      else
        let l1e := mem (entryAddr l2e) (l1Index v)
        if isUserLeaf l1e then some l1e else none

/-- Two addresses lie in the same page, as far as the tables can tell. -/
def SamePage (v w : ℕ) : Prop := l1Index v = l1Index w ∧ ptPath v = ptPath w

instance (v w : ℕ) : Decidable (SamePage v w) := by unfold SamePage; infer_instance

/-- The PD entry of an address, if it is a 2 MiB page; zero if not. -/
def hugeEntry (mem : PhysMem) (root v : ℕ) : BitVec 64 :=
  match frameAt tableOf mem root [l3Index v, l4Index v] with
  | some t => if huge (mem t (l2Index v)) then mem t (l2Index v) else 0#64
  | none => 0#64

section Pages

variable {mem : PhysMem} {root v w : ℕ}

theorem SamePage.symm (h : SamePage v w) : SamePage w v := ⟨h.1.symm, h.2.symm⟩

theorem SamePage.trans {u : ℕ} (h : SamePage u v) (h' : SamePage v w) : SamePage u w :=
  ⟨h.1.trans h'.1, h.2.trans h'.2⟩

theorem leafEntry_samePage (h : SamePage v w) : leafEntry mem root v = leafEntry mem root w := by
  unfold leafEntry
  rw [h.1, h.2]

theorem hugeEntry_samePage (h : SamePage v w) : hugeEntry mem root v = hugeEntry mem root w := by
  have hpath := h.2
  simp only [ptPath, List.cons.injEq, and_true] at hpath
  unfold hugeEntry
  rw [hpath.1, hpath.2.1, hpath.2.2]

/-- For canonical addresses the tables can tell pages apart. -/
theorem samePage_iff (hv : canonical v = true) (hw : canonical w = true) (hv64 : v < 2 ^ 64)
    (hw64 : w < 2 ^ 64) : SamePage v w ↔ v / 4096 = w / 4096 := by
  simp only [canonical, Bool.or_eq_true, decide_eq_true_eq] at hv hw
  simp only [SamePage, ptPath, List.cons.injEq, and_true, l1Index, l2Index, l3Index, l4Index,
    Fin.mk.injEq]
  omega

theorem samePage_add {k : ℕ} (hv : v % 4096 = 0) (hk : k < 4096) : SamePage (v + k) v := by
  simp only [SamePage, ptPath, List.cons.injEq, l1Index, l2Index, l3Index, l4Index, Fin.mk.injEq,
    and_true]
  omega

end Pages

/-- All entries that lead to tables have the `USER` bit. -/
def UserTables (mem : PhysMem) (root : ℕ) : Prop :=
  ∀ q t x, frameAt tableOf mem root q = some t → q.length ≤ 2 → isTable (mem t x) = true →
    user (mem t x) = true

/-- There are no huge pages in the PML4 and the PDPTs. -/
def NoGiant (mem : PhysMem) (root : ℕ) : Prop :=
  ∀ q t x, frameAt tableOf mem root q = some t → q.length ≤ 1 → present (mem t x) = true →
    huge (mem t x) = false

/-! ### Linking tables -/

/-- From `m` to `m'` tables were linked under `root`, and nothing else happened. -/
structure Grown (p : PmmAllocator) (root : ℕ) (m m' : Mach) : Prop where
  ok : TablesOk p m' root
  noGiant : NoGiant m'.mem root
  paths : ∀ q f, frameAt tableOf m.mem root q = some f → frameAt tableOf m'.mem root q = some f
  entries : ∀ q t x, frameAt tableOf m.mem root q = some t → m.mem t x ≠ 0#64 →
    m'.mem t x = m.mem t x
  leaves : ∀ q t x, q.length = 3 → frameAt tableOf m.mem root q = some t →
    m'.mem t x = m.mem t x
  cases : ∀ q t x, frameAt tableOf m'.mem root q = some t →
    frameAt tableOf m.mem root q = some t ∧ m'.mem t x = m.mem t x ∨
      m'.mem t x = 0#64 ∨ q.length ≤ 2 ∧ isUserTable (m'.mem t x) = true
  table_cases : ∀ f ∈ tables m'.mem root, f ∈ tables m.mem root ∨ f ∈ p.freeFrames m.bitmap
  free : p.freeFrames m'.bitmap ⊆ p.freeFrames m.bitmap
  other : ∀ f, f ∉ tables m.mem root → f ∉ p.freeFrames m.bitmap → m'.mem f = m.mem f
  /-- Frames that are not taken are not written. -/
  still : ∀ f ∈ p.freeFrames m'.bitmap, m'.mem f = m.mem f
  /-- Frames that are taken are linked. -/
  taken : ∀ f ∈ p.freeFrames m.bitmap, f ∈ p.freeFrames m'.bitmap ∨ f ∈ tables m'.mem root

section

variable {p : PmmAllocator} {root t v w new : ℕ} {m m' m'' : Mach} {x : Fin 512}
  {q : List (Fin 512)}

theorem Grown.refl (h : TablesOk p m root) (hg : NoGiant m.mem root) : Grown p root m m :=
  ⟨h, hg, fun _ _ hf => hf, fun _ _ _ _ _ => rfl, fun _ _ _ _ _ => rfl,
    fun _ _ _ hf => Or.inl ⟨hf, rfl⟩, fun _ hf => Or.inl hf, fun _ hf => hf, fun _ _ _ => rfl,
    fun _ _ => rfl, fun _ hf => Or.inl hf⟩

theorem Grown.trans (h₁ : Grown p root m m') (h₂ : Grown p root m' m'') : Grown p root m m'' := by
  refine ⟨h₂.ok, h₂.noGiant, fun q f hf => h₂.paths q f (h₁.paths q f hf), ?_, ?_, ?_, ?_,
    h₂.free.trans h₁.free, ?_, fun f hf => (h₂.still f hf).trans (h₁.still f (h₂.free hf)), ?_⟩
  · intro q t x hq hne
    have h := h₁.entries q t x hq hne
    rw [h₂.entries q t x (h₁.paths q t hq) (by rw [h]; exact hne), h]
  · intro q t x hlen hq
    rw [h₂.leaves q t x hlen (h₁.paths q t hq), h₁.leaves q t x hlen hq]
  · intro q t x hq
    rcases h₂.cases q t x hq with ⟨hq', heq⟩ | hnew
    · rw [heq]
      exact h₁.cases q t x hq'
    · exact Or.inr hnew
  · intro f hf
    rcases h₂.table_cases f hf with hf | hf
    · exact h₁.table_cases f hf
    · exact Or.inr (h₁.free hf)
  · intro f hf hused
    rw [h₂.other f, h₁.other f hf hused]
    · exact fun hc => (h₁.table_cases f hc).elim hf hused
    · exact fun hc => hused (h₁.free hc)
  · intro f hf
    rcases h₁.taken f hf with hf | ⟨q, hq⟩
    · exact h₂.taken f hf
    · exact Or.inr ⟨q, h₂.paths q f hq⟩

/-- Linking tables changes no leaf. -/
theorem Grown.leafEntry_eq (h : Grown p root m m') (w : ℕ) :
    leafEntry m'.mem root w = leafEntry m.mem root w := by
  unfold leafEntry
  cases hold : frameAt tableOf m.mem root (ptPath w) with
  | some t =>
    rw [h.paths _ _ hold]
    exact h.leaves _ _ _ rfl hold
  | none =>
    cases hnew : frameAt tableOf m'.mem root (ptPath w) with
    | none => rfl
    | some t =>
      rcases h.cases _ _ (l1Index w) hnew with ⟨hc, -⟩ | hzero | ⟨hlen, -⟩
      · rw [hold] at hc
        cases hc
      · exact hzero
      · simp at hlen

/-- Linking tables changes no huge page. -/
theorem Grown.hugeEntry_eq (h : Grown p root m m') (w : ℕ) :
    hugeEntry m'.mem root w = hugeEntry m.mem root w := by
  have hnew : ∀ {t}, frameAt tableOf m'.mem root [l3Index w, l4Index w] = some t →
      huge (m'.mem t (l2Index w)) = true →
      frameAt tableOf m.mem root [l3Index w, l4Index w] = some t ∧
        m'.mem t (l2Index w) = m.mem t (l2Index w) := by
    intro t ht hh
    rcases h.cases _ _ (l2Index w) ht with hold | hzero | ⟨-, htab⟩
    · exact hold
    · rw [hzero] at hh
      exact absurd hh (by decide)
    · simp [isUserTable, isTable, hh] at htab
  unfold hugeEntry
  cases hold : frameAt tableOf m.mem root [l3Index w, l4Index w] with
  | some t =>
    rw [h.paths _ _ hold]
    dsimp only
    by_cases hh : huge (m'.mem t (l2Index w)) = true
    · rw [(hnew (h.paths _ _ hold) hh).2]
    · by_cases hz : m.mem t (l2Index w) = 0#64
      · simp [hh, hz]
      · rw [h.entries _ _ _ hold hz]
  | none =>
    cases ht : frameAt tableOf m'.mem root [l3Index w, l4Index w] with
    | none => rfl
    | some t =>
      dsimp only
      rw [if_neg]
      intro hh
      have hc := (hnew ht hh).1
      rw [hold] at hc
      cases hc

theorem Grown.userTables (h : Grown p root m m') (hu : UserTables m.mem root) :
    UserTables m'.mem root := by
  intro q t x hq hlen htab
  rcases h.cases q t x hq with ⟨hold, heq⟩ | hzero | ⟨-, hut⟩
  · rw [heq] at htab ⊢
    exact hu q t x hold hlen htab
  · simp [hzero, isTable] at htab
  · simp only [isUserTable, Bool.and_eq_true] at hut
    exact hut.2

theorem isTable_ne_zero {e : BitVec 64} (h : isTable e = true) : e ≠ 0#64 := by
  rintro rfl
  simp [isTable] at h

/-- Linking one table. -/
theorem Linked.grown {flags : BitVec 64} (hp : p.Physical) (hflags : isTable flags = true)
    (huser : user flags = true) (hna : NoAddr flags) (h : TablesOk p m root) (hg : NoGiant m.mem root)
    (hq : frameAt tableOf m.mem root q = some t) (hlen : q.length ≤ 2)
    (hl : Linked p flags m t x new m') :
    Grown p root m m' ∧
      frameAt tableOf m'.mem root (x :: q) = some (entryAddr (m'.mem t x)) := by
  obtain ⟨hok, htab, hpath, hold, hcases, hnew⟩ := hl.tables_ok hp hflags hna h hq hlen
  refine ⟨?_, hpath⟩
  have hsame : ∀ q' t' y, frameAt tableOf m.mem root q' = some t' → ¬ (t' = t ∧ y = x) →
      m'.mem t' y = m.mem t' y :=
    fun q' t' y hq' hne => hl.mem_eq (h.used t' ⟨q', hq'⟩) hne
  -- every table of `m'` is an old one at its old path, or the new one, which is empty
  have hframe : ∀ q' t', frameAt tableOf m'.mem root q' = some t' →
      frameAt tableOf m.mem root q' = some t' ∨ ∀ y, m'.mem t' y = 0#64 := by
    intro q' t' hq'
    rcases hcases t' ⟨q', hq'⟩ with ⟨q'', hq''⟩ | ⟨rfl, hne⟩
    · rw [hok.priv q' q'' t' hq' (hold q'' t' hq'')]
      exact Or.inl hq''
    · exact Or.inr (congrFun (hnew hne).2.2)
  refine ⟨hok, ?_, hold, ?_, ?_, ?_, ?_, ?_, ?_, ?_, ?_⟩
  · intro q' t' y hq' hlen' hpr
    rcases hframe q' t' hq' with hq'' | hzero
    · by_cases hty : t' = t ∧ y = x
      · rw [hty.1, hty.2]
        exact (isTable_eq_true.mp htab).2
      · rw [hsame q' t' y hq'' hty] at hpr ⊢
        exact hg q' t' y hq'' hlen' hpr
    · rw [hzero] at hpr
      simp at hpr
  · intro q' t' y hq' hne
    cases hl with
    | borrowed => rfl
    | fresh _ hzero _ =>
      refine hsame q' t' y hq' ?_
      rintro ⟨rfl, rfl⟩
      exact hne hzero
  · intro q' t' y hlen' hq'
    refine hsame q' t' y hq' ?_
    rintro ⟨rfl, _⟩
    rw [h.priv q' q t' hq' hq] at hlen'
    omega
  · intro q' t' y hq'
    rcases hframe q' t' hq' with hq'' | hzero
    · by_cases hty : t' = t ∧ y = x
      · obtain ⟨rfl, rfl⟩ := hty
        cases hl with
        | borrowed => exact Or.inl ⟨hq'', rfl⟩
        | fresh hne hz htake =>
          refine Or.inr (Or.inr ⟨?_, ?_⟩)
          · rw [h.priv q' q t' hq'' hq]
            exact hlen
          · rw [isUserTable, htab, write_entry,
              user_mkEntry (isFrame_of_free hp (htake.sub rfl)), huser]
            rfl
      · exact Or.inl ⟨hq'', hsame q' t' y hq'' hty⟩
    · exact Or.inr (Or.inl (hzero y))
  · intro f hf
    rcases hcases f hf with hf | ⟨rfl, hne⟩
    · exact Or.inl hf
    · exact Or.inr (hl.new_free hne)
  · intro f hf
    by_contra hc
    exact hl.used hc hf
  · intro f hf hused
    funext y
    refine hl.mem_eq hused ?_
    rintro ⟨rfl, _⟩
    exact hf ⟨q, hq⟩
  · intro f hf
    cases hl with
    | borrowed => rfl
    | fresh hne _ htake =>
      have hft : f ≠ t := fun hc => hok.used t (⟨q, hold q t hq⟩) (hc ▸ hf)
      have hfnew : f ≠ new := fun hc => htake.not_free rfl (hc ▸ hf)
      exact (PhysMem.setSlot_frame_ne _ hft _ _).trans (PhysMem.setFrame_ne _ hfnew _)
  · intro f hf
    cases hl with
    | borrowed => exact Or.inl hf
    | fresh hne _ htake =>
      rw [(hnew hne).2.1] at hpath
      by_cases hfn : f = new
      · rw [hfn]
        exact Or.inr ⟨_, hpath⟩
      · refine Or.inl ?_
        rw [Mach.write, Mach.zero, htake.free]
        exact ⟨hf, hfn⟩

/-- **One level** of the tables of a page. -/
theorem tryGetOrCreateTable_grown (hp : p.Physical) (h : TablesOk p m root)
    (hg : NoGiant m.mem root) (hq : frameAt tableOf m.mem root q = some t) (hlen : q.length ≤ 2)
    (hhuge : present (m.mem t x) = true → huge (m.mem t x) = false) :
    ∃ m' res, tryGetOrCreateTable p m t x = (m', res) ∧ Grown p root m m' ∧
      ∀ t', res = some t' → frameAt tableOf m'.mem root (x :: q) = some t' ∧
        isTable (m'.mem t x) = true := by
  have hlinked : ∀ {new : ℕ} {m' : Mach}, Linked p (pageKernel ||| pageUser) m t x new m' →
      Grown p root m m' ∧ frameAt tableOf m'.mem root (x :: q) = some (entryAddr (m'.mem t x)) ∧
        isTable (m'.mem t x) = true := by
    intro new m' hl
    obtain ⟨hgrown, hpath⟩ := hl.grown hp tableEntry_flags (by decide) noAddr_tableEntry h hg hq hlen
    exact ⟨hgrown, hpath, (hl.tables_ok hp tableEntry_flags noAddr_tableEntry h hq hlen).2.1⟩
  unfold tryGetOrCreateTable
  by_cases hpr : present (m.mem t x) = true
  · simp only [hpr, ↓reduceIte]
    obtain ⟨hgrown, hpath, htab⟩ := hlinked (.borrowed (isTable_eq_true.mpr ⟨hpr, hhuge hpr⟩))
    refine ⟨m, _, rfl, hgrown, ?_⟩
    rintro t' ⟨⟩
    exact ⟨hpath, htab⟩
  · have hzero := h.zero t ⟨q, hq⟩ x (by simpa using hpr)
    simp only [hpr, Bool.false_eq_true, ↓reduceIte]
    by_cases hnull : (p.alloc m.bitmap).2 = 0
    · simp only [hnull, ↓reduceIte, mach_alloc_null hp hnull]
      exact ⟨m, none, rfl, Grown.refl h hg, by simp⟩
    · simp only [hnull, ↓reduceIte]
      have htake := PmmAllocator.taken_alloc hp.toValid hnull
      obtain ⟨hgrown, hpath, htab⟩ := hlinked (.fresh hnull hzero htake)
      refine ⟨_, _, rfl, hgrown, ?_⟩
      rintro t' ⟨⟩
      refine ⟨?_, htab⟩
      rw [hpath, write_entry,
        entryAddr_mkEntry (isFrame_of_free hp (htake.sub rfl)) noAddr_tableEntry]

/-- Where `translate_in_pml4` finds nothing there is no huge page. -/
theorem hugeEntry_of_translate {mem : PhysMem} (hnone : translateInPml4 mem v root = none)
    (hz : ∀ t, frameAt tableOf mem root [l3Index v, l4Index v] = some t →
      present (mem t (l2Index v)) = false → mem t (l2Index v) = 0#64) :
    hugeEntry mem root v = 0#64 := by
  unfold hugeEntry
  cases ht2 : frameAt tableOf mem root [l3Index v, l4Index v] with
  | none => rfl
  | some t2 =>
    obtain ⟨t3, ht3, hown₃⟩ := frameAt_cons_eq_some.mp ht2
    obtain ⟨rt, hrt, hown₄⟩ := frameAt_cons_eq_some.mp ht3
    obtain rfl : root = rt := Option.some.inj hrt
    simp only [tableOf, Option.ite_none_right_eq_some, Option.some.injEq, Bool.and_eq_true]
      at hown₃ hown₄
    obtain ⟨hpr₄, rfl⟩ := hown₄
    obtain ⟨⟨hpr₃, _⟩, rfl⟩ := hown₃
    simp only [translateInPml4, hpr₄, hpr₃, Bool.not_true, Bool.false_eq_true, ↓reduceIte]
      at hnone
    dsimp only
    split
    next hhuge =>
      refine hz _ ht2 ?_
      by_contra hpr₂
      simp [hpr₂, hhuge] at hnone
    next => rfl

/-- **The tables of a page** that is not part of a huge page: found or linked. -/
theorem tablesFor_grown (hp : p.Physical) (h : TablesOk p m root) (hg : NoGiant m.mem root)
    (hpde : hugeEntry m.mem root v = 0#64) :
    ∃ m' res, tablesFor p m root v = (m', res) ∧ Grown p root m m' ∧
      ∀ l3 l2 l1, res = some (l3, l2, l1) → frameAt tableOf m'.mem root [l4Index v] = some l3 ∧
        frameAt tableOf m'.mem root [l3Index v, l4Index v] = some l2 ∧
        frameAt tableOf m'.mem root (ptPath v) = some l1 ∧
        isTable (m'.mem root (l4Index v)) = true ∧ isTable (m'.mem l3 (l3Index v)) = true ∧
        isTable (m'.mem l2 (l2Index v)) = true := by
  unfold tablesFor
  obtain ⟨ma, resa, hruna, ha, hresa⟩ := tryGetOrCreateTable_grown hp h hg (q := [])
    (x := l4Index v) rfl (by simp) (hg [] _ _ rfl (by simp))
  simp only [hruna]
  cases resa with
  | none => exact ⟨ma, none, rfl, ha, by simp⟩
  | some l3 =>
    obtain ⟨hl3, htab₄⟩ := hresa l3 rfl
    obtain ⟨mb, resb, hrunb, hb, hresb⟩ := tryGetOrCreateTable_grown hp ha.ok ha.noGiant
      (x := l3Index v) hl3 (by simp) (ha.noGiant _ _ _ hl3 (by simp))
    simp only [hrunb]
    cases resb with
    | none => exact ⟨mb, none, rfl, ha.trans hb, by simp⟩
    | some l2 =>
      obtain ⟨hl2, htab₃⟩ := hresb l2 rfl
      have hpde₂ : present (mb.mem l2 (l2Index v)) = true →
          huge (mb.mem l2 (l2Index v)) = false := by
        rw [← (ha.trans hb).hugeEntry_eq] at hpde
        simp only [hugeEntry, hl2] at hpde
        intro hpr
        by_contra hh
        rw [if_pos (by simpa using hh)] at hpde
        simp [hpde] at hpr
      obtain ⟨mc, resc, hrunc, hc, hresc⟩ := tryGetOrCreateTable_grown hp hb.ok hb.noGiant
        (x := l2Index v) hl2 (by simp) hpde₂
      simp only [hrunc]
      cases resc with
      | none => exact ⟨mc, none, rfl, (ha.trans hb).trans hc, by simp⟩
      | some l1 =>
        obtain ⟨hl1, htab₂⟩ := hresc l1 rfl
        refine ⟨mc, _, rfl, (ha.trans hb).trans hc, ?_⟩
        rintro _ _ _ ⟨⟩
        refine ⟨hc.paths _ _ (hb.paths _ _ hl3), hc.paths _ _ hl2, hl1, ?_, ?_, htab₂⟩
        · have hkeep := (hb.trans hc).entries [] _ _ rfl (isTable_ne_zero htab₄)
          rw [hkeep]
          exact htab₄
        · rw [hc.entries _ _ _ (hb.paths _ _ hl3) (isTable_ne_zero htab₃)]
          exact htab₃

/-! ### Walks through the leaf entries -/

/-- User mode reaches the PT of a page. -/
def UserPath (mem : PhysMem) (root v : ℕ) : Prop :=
  ∃ t3 t2, frameAt tableOf mem root [l4Index v] = some t3 ∧
    frameAt tableOf mem root [l3Index v, l4Index v] = some t2 ∧
    isUserTable (mem root (l4Index v)) = true ∧ isUserTable (mem t3 (l3Index v)) = true ∧
    isUserTable (mem t2 (l2Index v)) = true

theorem isUserTable_eq_true {e : BitVec 64} :
    isUserTable e = true ↔ isTable e = true ∧ user e = true := by
  simp [isUserTable]

/-- The user-accessible leaf of a page, from its leaf entry. -/
theorem userLeaf_eq_some {mem : PhysMem} {e : BitVec 64} :
    userLeaf mem root v = some e ↔
      UserPath mem root v ∧ isUserLeaf (leafEntry mem root v) = true ∧
        leafEntry mem root v = e := by
  constructor
  · intro h
    simp only [userLeaf] at h
    split_ifs at h with h4 h3 h2 h1
    simp only [Bool.not_eq_true', Bool.not_eq_false] at h4 h3 h2
    have ht3 : frameAt tableOf mem root [l4Index v] = some (entryAddr (mem root (l4Index v))) := by
      rw [frameAt_cons_of rfl]
      exact tableOf_of_isTable (by simp) (isUserTable_eq_true.mp h4).1
    have ht2 : frameAt tableOf mem root [l3Index v, l4Index v] =
        some (entryAddr (mem (entryAddr (mem root (l4Index v))) (l3Index v))) := by
      rw [frameAt_cons_of ht3]
      exact tableOf_of_isTable (by simp) (isUserTable_eq_true.mp h3).1
    have ht1 := tableOf_of_isTable (q := [l3Index v, l4Index v]) (x := l2Index v) (by simp)
      (isUserTable_eq_true.mp h2).1
    rw [← frameAt_cons_of ht2] at ht1
    have hleaf := Option.some.inj h
    refine ⟨⟨_, _, ht3, ht2, h4, h3, h2⟩, ?_⟩
    simp only [leafEntry, ht1]
    exact ⟨h1, hleaf⟩
  · rintro ⟨⟨t3, t2, ht3, ht2, h4, h3, h2⟩, hleaf, rfl⟩
    have ht3' := ht3
    rw [frameAt_cons_of rfl, tableOf_of_isTable (by simp) (isUserTable_eq_true.mp h4).1] at ht3'
    obtain rfl := Option.some.inj ht3'
    have ht2' := ht2
    rw [frameAt_cons_of ht3, tableOf_of_isTable (by simp) (isUserTable_eq_true.mp h3).1] at ht2'
    obtain rfl := Option.some.inj ht2'
    have ht1 := tableOf_of_isTable (q := [l3Index v, l4Index v]) (x := l2Index v) (by simp)
      (isUserTable_eq_true.mp h2).1
    rw [← frameAt_cons_of ht2] at ht1
    simp only [leafEntry, ht1] at hleaf ⊢
    simp only [userLeaf, h4, h3, h2, hleaf, Bool.not_true, Bool.false_eq_true, ↓reduceIte]

/-- The processor's walk to a present leaf. -/
theorem walk_of_leafEntry {mem : PhysMem} (h : present (leafEntry mem root v) = true) :
    walk mem root v = some (entryAddr (leafEntry mem root v) + v % 2 ^ 12) := by
  unfold leafEntry at h ⊢
  cases ht : frameAt tableOf mem root (ptPath v) with
  | none => simp [ht] at h
  | some t =>
    simp only [ht] at h ⊢
    exact walk_of_path ht h

/-! ### Memory that is not a table does not matter -/

theorem leafEntry_congr {mem mem' : PhysMem} (hmem : ∀ f ∈ tables mem root, mem' f = mem f)
    (w : ℕ) : leafEntry mem' root w = leafEntry mem root w := by
  unfold leafEntry
  rw [frameAt_of_eqOn hmem]
  cases ht : frameAt tableOf mem root (ptPath w) with
  | none => rfl
  | some t => simp only [hmem t ⟨_, ht⟩]

theorem NoGiant.congr {mem mem' : PhysMem} (h : NoGiant mem root)
    (hmem : ∀ f ∈ tables mem root, mem' f = mem f) : NoGiant mem' root := by
  intro q t x hq
  rw [frameAt_of_eqOn hmem] at hq
  rw [hmem t ⟨q, hq⟩]
  exact h q t x hq

theorem UserPath.congr {mem mem' : PhysMem} (h : UserPath mem root v)
    (hmem : ∀ f ∈ tables mem root, mem' f = mem f) : UserPath mem' root v := by
  obtain ⟨t3, t2, ht3, ht2, h4, h3, h2⟩ := h
  refine ⟨t3, t2, ?_, ?_, ?_, ?_, ?_⟩
  · rw [frameAt_of_eqOn hmem, ht3]
  · rw [frameAt_of_eqOn hmem, ht2]
  · rw [hmem root ⟨[], rfl⟩, h4]
  · rw [hmem t3 ⟨_, ht3⟩, h3]
  · rw [hmem t2 ⟨_, ht2⟩, h2]

/-! ### Writing the leaf -/

/-- A write that leads to the same tables. -/
theorem TablesOk.write {e : BitVec 64} (h : TablesOk p m root)
    (hq : frameAt tableOf m.mem root q = some t) (hown : tableOf q x e = tableOf q x (m.mem t x))
    (hz : present e = false → e = 0#64) :
    TablesOk p (m.write t x e) root ∧
      ∀ path, frameAt tableOf (m.write t x e).mem root path = frameAt tableOf m.mem root path := by
  have hframe : ∀ path, frameAt tableOf (m.write t x e).mem root path =
      frameAt tableOf m.mem root path := by
    apply frameAt_of_own_eq
    intro q' t' y hq'
    simp only [Mach.write, PhysMem.setSlot]
    split_ifs with hty
    · obtain ⟨rfl, rfl⟩ := hty
      rw [h.priv q' q _ hq' hq, hown]
    · rfl
  have htables : tables (m.write t x e).mem root = tables m.mem root := footprint_congr hframe
  refine ⟨⟨h.priv.congr hframe, ?_, ?_⟩, hframe⟩
  · rw [htables]
    exact h.used
  · rw [htables]
    intro f hf y hpr
    simp only [Mach.write, PhysMem.setSlot] at hpr ⊢
    split_ifs at hpr ⊢ with hty
    · exact hz hpr
    · exact h.zero f hf y hpr

/-- What a mapping leaves alone, whatever it did to the leaves of `root`. -/
structure Kept (p : PmmAllocator) (root : ℕ) (m m' : Mach) : Prop where
  ok : TablesOk p m' root
  noGiant : NoGiant m'.mem root
  users : ∀ w, UserPath m.mem root w → UserPath m'.mem root w
  huges : ∀ w, hugeEntry m'.mem root w = hugeEntry m.mem root w
  userTables : UserTables m.mem root → UserTables m'.mem root
  table_cases : ∀ f ∈ tables m'.mem root, f ∈ tables m.mem root ∨ f ∈ p.freeFrames m.bitmap
  free : p.freeFrames m'.bitmap ⊆ p.freeFrames m.bitmap
  other : ∀ f, f ∉ tables m.mem root → f ∉ p.freeFrames m.bitmap → m'.mem f = m.mem f
  /-- Frames that are not taken are not written. -/
  still : ∀ f ∈ p.freeFrames m'.bitmap, m'.mem f = m.mem f

theorem Kept.trans (h₁ : Kept p root m m') (h₂ : Kept p root m' m'') : Kept p root m m'' := by
  refine ⟨h₂.ok, h₂.noGiant, fun w hw => h₂.users w (h₁.users w hw),
    fun w => (h₂.huges w).trans (h₁.huges w), fun hu => h₂.userTables (h₁.userTables hu), ?_,
    h₂.free.trans h₁.free, ?_, fun f hf => (h₂.still f hf).trans (h₁.still f (h₂.free hf))⟩
  · intro f hf
    rcases h₂.table_cases f hf with hf | hf
    · exact h₁.table_cases f hf
    · exact Or.inr (h₁.free hf)
  · intro f hf hused
    rw [h₂.other f, h₁.other f hf hused]
    · exact fun hc => (h₁.table_cases f hc).elim hf hused
    · exact fun hc => hused (h₁.free hc)

theorem Grown.kept (h : Grown p root m m') : Kept p root m m' := by
  refine ⟨h.ok, h.noGiant, ?_, h.hugeEntry_eq, h.userTables, h.table_cases, h.free, h.other,
    h.still⟩
  rintro w ⟨t3, t2, ht3, ht2, h4, h3, h2⟩
  have hkeep : ∀ q t x, frameAt tableOf m.mem root q = some t → isUserTable (m.mem t x) = true →
      isUserTable (m'.mem t x) = true := by
    intro q t x hq he
    rw [h.entries q t x hq (isTable_ne_zero (isUserTable_eq_true.mp he).1), he]
  exact ⟨t3, t2, h.paths _ _ ht3, h.paths _ _ ht2, hkeep [] _ _ rfl h4, hkeep _ _ _ ht3 h3,
    hkeep _ _ _ ht2 h2⟩

/-- A write to a leaf, or from an entry for a table to one with the `USER` bit. -/
theorem kept_write {e : BitVec 64} (h : TablesOk p m root) (hg : NoGiant m.mem root)
    (hq : frameAt tableOf m.mem root q = some t) (hown : tableOf q x e = tableOf q x (m.mem t x))
    (hz : present e = false → e = 0#64)
    (htab : q.length = 3 ∨ isTable (m.mem t x) = true ∧ isUserTable e = true) :
    Kept p root m (m.write t x e) := by
  obtain ⟨hok, hframe⟩ := h.write hq hown hz
  -- only the entry itself is different, and it stays what it is on the levels above the PT
  have hwrite : ∀ {q' t' y}, frameAt tableOf m.mem root q' = some t' → q'.length ≤ 2 →
      (m.write t x e).mem t' y = m.mem t' y ∨
        isTable (m.mem t' y) = true ∧ isUserTable ((m.write t x e).mem t' y) = true := by
    intro q' t' y hq' hlen
    simp only [Mach.write, PhysMem.setSlot]
    split_ifs with hty
    · obtain ⟨rfl, rfl⟩ := hty
      rw [h.priv q' q _ hq' hq] at hlen
      exact Or.inr (htab.resolve_left (by omega))
    · exact Or.inl rfl
  refine ⟨hok, ?_, ?_, ?_, ?_, ?_, fun _ hf => hf, ?_, ?_⟩
  · intro q' t' y hq' hlen hpr
    rw [hframe] at hq'
    rcases hwrite (y := y) hq' (by omega) with heq | ⟨-, hut⟩
    · rw [heq] at hpr ⊢
      exact hg q' t' y hq' hlen hpr
    · exact (isTable_eq_true.mp (isUserTable_eq_true.mp hut).1).2
  · rintro w ⟨t3, t2, ht3, ht2, h4, h3, h2⟩
    have hkeep : ∀ q' t' y, q'.length ≤ 2 → frameAt tableOf m.mem root q' = some t' →
        isUserTable (m.mem t' y) = true → isUserTable ((m.write t x e).mem t' y) = true := by
      intro q' t' y hlen hq' he
      rcases hwrite (y := y) hq' hlen with heq | ⟨-, hut⟩
      · rw [heq]
        exact he
      · exact hut
    refine ⟨t3, t2, ?_, ?_, hkeep [] _ _ (by simp) rfl h4, hkeep _ _ _ (by simp) ht3 h3,
      hkeep _ _ _ (by simp) ht2 h2⟩
    · rw [hframe, ht3]
    · rw [hframe, ht2]
  · intro w
    unfold hugeEntry
    rw [hframe]
    cases ht : frameAt tableOf m.mem root [l3Index w, l4Index w] with
    | none => rfl
    | some t' =>
      dsimp only
      rcases hwrite (y := l2Index w) ht (by simp) with heq | ⟨hold, hut⟩
      · rw [heq]
      · rw [if_neg, if_neg]
        · simp [(isTable_eq_true.mp hold).2]
        · simp [(isTable_eq_true.mp (isUserTable_eq_true.mp hut).1).2]
  · intro hu q' t' y hq' hlen he
    rw [hframe] at hq'
    rcases hwrite (y := y) hq' hlen with heq | ⟨-, hut⟩
    · rw [heq] at he ⊢
      exact hu q' t' y hq' hlen he
    · exact (isUserTable_eq_true.mp hut).2
  · intro f hf
    rw [show tables (m.write t x e).mem root = tables m.mem root from footprint_congr hframe] at hf
    exact Or.inl hf
  · intro f hf _
    apply PhysMem.setSlot_frame_ne
    rintro rfl
    exact hf ⟨q, hq⟩
  · intro f hf
    apply PhysMem.setSlot_frame_ne
    rintro rfl
    exact h.used f ⟨q, hq⟩ hf

/-- One write, seen through the leaf entries. -/
theorem leafEntry_write {e : BitVec 64} (h : TablesOk p m root)
    (hq : frameAt tableOf m.mem root q = some t)
    (hframe : ∀ path, frameAt tableOf (m.write t x e).mem root path =
      frameAt tableOf m.mem root path) (w : ℕ) :
    leafEntry (m.write t x e).mem root w =
      if l1Index w = x ∧ ptPath w = q then e else leafEntry m.mem root w := by
  unfold leafEntry
  rw [hframe]
  cases hw : frameAt tableOf m.mem root (ptPath w) with
  | none =>
    rw [if_neg]
    rintro ⟨_, rfl⟩
    rw [hw] at hq
    cases hq
  | some t' =>
    have hiff : (t' = t ∧ l1Index w = x) ↔ (l1Index w = x ∧ ptPath w = q) := by
      constructor
      · rintro ⟨rfl, hx⟩
        exact ⟨hx, h.priv _ _ _ hw hq⟩
      · rintro ⟨hx, hpath⟩
        rw [hpath, hq] at hw
        exact ⟨(Option.some.inj hw).symm, hx⟩
    simp only [Mach.write, PhysMem.setSlot, hiff]

/-- Setting the `USER` bit of a table entry. -/
theorem setUser_kept (h : TablesOk p m root) (hg : NoGiant m.mem root)
    (hq : frameAt tableOf m.mem root q = some t) (hlen : q.length ≤ 2)
    (htab : isTable (m.mem t x) = true) :
    Kept p root m (m.setUser t x) ∧
      (∀ path, frameAt tableOf (m.setUser t x).mem root path = frameAt tableOf m.mem root path) ∧
      (∀ w, leafEntry (m.setUser t x).mem root w = leafEntry m.mem root w) ∧
      isUserTable ((m.setUser t x).mem t x) = true := by
  obtain ⟨hpr, hhuge⟩ := isTable_eq_true.mp htab
  have htab' : isTable (m.mem t x ||| pageUser) = true := by
    rw [isTable_eq_true, present_or_user, huge_or_user]
    exact ⟨hpr, hhuge⟩
  have husr : isUserTable (m.mem t x ||| pageUser) = true :=
    isUserTable_eq_true.mpr ⟨htab', user_or_user _⟩
  have hown : tableOf q x (m.mem t x ||| pageUser) = tableOf q x (m.mem t x) := by
    rw [tableOf_of_isTable hlen htab', tableOf_of_isTable hlen htab, entryAddr_or_user]
  have hz : present (m.mem t x ||| pageUser) = false → m.mem t x ||| pageUser = 0#64 := by
    rw [present_or_user, hpr]
    simp
  have hframe := (h.write hq hown hz).2
  refine ⟨kept_write h hg hq hown hz (Or.inr ⟨htab, husr⟩), hframe, fun w => ?_, ?_⟩
  · rw [Mach.setUser, leafEntry_write h hq hframe, if_neg]
    rintro ⟨_, rfl⟩
    simp at hlen
  · rw [Mach.setUser, write_entry]
    exact husr

theorem setUser_ne {f : ℕ} (hf : f ≠ t) : (m.setUser t x).mem f = m.mem f :=
  PhysMem.setSlot_frame_ne _ hf _ _

/-- **Writing the leaf** of a page in any root; the entries on the way get the `USER` bit if the
page has it. -/
theorem mapLeaf_flags {pa l3 l2 l1 : ℕ} {flags : BitVec 64} (h : TablesOk p m root)
    (hg : NoGiant m.mem root) (hpa : IsFrame pa) (hflags : present flags = true)
    (hl3 : frameAt tableOf m.mem root [l4Index v] = some l3)
    (hl2 : frameAt tableOf m.mem root [l3Index v, l4Index v] = some l2)
    (hl1 : frameAt tableOf m.mem root (ptPath v) = some l1)
    (htab₄ : isTable (m.mem root (l4Index v)) = true)
    (htab₃ : isTable (m.mem l3 (l3Index v)) = true)
    (htab₂ : isTable (m.mem l2 (l2Index v)) = true) :
    Kept p root m (mapLeaf m root v pa flags l3 l2 l1) ∧
      (user flags = true → UserPath (mapLeaf m root v pa flags l3 l2 l1).mem root v) ∧
      (∀ path, frameAt tableOf (mapLeaf m root v pa flags l3 l2 l1).mem root path =
        frameAt tableOf m.mem root path) ∧
      ∀ w, leafEntry (mapLeaf m root v pa flags l3 l2 l1).mem root w =
        if SamePage w v then mkEntry pa flags else leafEntry m.mem root w := by
  -- the four tables are different frames
  have hne : ∀ {q q' : List (Fin 512)} {t t' : ℕ}, frameAt tableOf m.mem root q = some t →
      frameAt tableOf m.mem root q' = some t' → q.length ≠ q'.length → t ≠ t' := by
    rintro q q' t t' hq hq' hlen rfl
    exact hlen (by rw [h.priv q q' t hq hq'])
  have hr3 : root ≠ l3 := hne (q := []) rfl hl3 (by simp)
  have hr2 : root ≠ l2 := hne (q := []) rfl hl2 (by simp)
  have hr1 : root ≠ l1 := hne (q := []) rfl hl1 (by simp)
  have h32 : l3 ≠ l2 := hne hl3 hl2 (by simp)
  have h31 : l3 ≠ l1 := hne hl3 hl1 (by simp)
  have h21 : l2 ≠ l1 := hne hl2 hl1 (by simp)
  have hpr : present (mkEntry pa flags) = true := by rw [present_mkEntry hpa, hflags]
  have hz : present (mkEntry pa flags) = false → mkEntry pa flags = 0#64 := by simp [hpr]
  have hframe := (h.write (x := l1Index v) (e := mkEntry pa flags) hl1 rfl hz).2
  have hk := kept_write (x := l1Index v) (e := mkEntry pa flags) h hg hl1 rfl hz (Or.inl rfl)
  have hleaf := leafEntry_write (x := l1Index v) (e := mkEntry pa flags) h hl1 hframe
  unfold mapLeaf
  set ma := m.write l1 (l1Index v) (mkEntry pa flags) with hma
  have hmem : ∀ f, f ≠ l1 → ma.mem f = m.mem f := fun f hf => PhysMem.setSlot_frame_ne _ hf _ _
  by_cases huser : user flags = true
  · simp only [huser, ↓reduceIte]
    rw [← hframe] at hl3 hl2
    obtain ⟨hk₄, hf₄, hleaf₄, hu₄⟩ := setUser_kept (q := []) hk.ok hk.noGiant rfl (by simp)
      (by rw [hmem root hr1]; exact htab₄)
    rw [← hf₄] at hl3 hl2
    obtain ⟨hk₃, hf₃, hleaf₃, hu₃⟩ := setUser_kept hk₄.ok hk₄.noGiant hl3 (by simp)
      (by rw [setUser_ne hr3.symm, hmem l3 h31]; exact htab₃)
    rw [← hf₃] at hl3 hl2
    obtain ⟨hk₂, hf₂, hleaf₂, hu₂⟩ := setUser_kept hk₃.ok hk₃.noGiant hl2 (by simp)
      (by rw [setUser_ne h32.symm, setUser_ne hr2.symm, hmem l2 h21]; exact htab₂)
    rw [← hf₂] at hl3 hl2
    refine ⟨hk.trans (hk₄.trans (hk₃.trans hk₂)), fun _ => ⟨l3, l2, hl3, hl2, ?_, ?_, hu₂⟩, ?_, ?_⟩
    · rw [setUser_ne hr2, setUser_ne hr3]
      exact hu₄
    · rw [setUser_ne h32]
      exact hu₃
    · intro path
      rw [hf₂, hf₃, hf₄, hframe]
    · intro w
      rw [hleaf₂, hleaf₃, hleaf₄, hleaf]
      rfl
  · simp only [huser, Bool.false_eq_true, ↓reduceIte]
    exact ⟨hk, fun hc => absurd hc (by simp), hframe, hleaf⟩

/-- **Publishing a user page** in any root. -/
theorem mapLeaf_page {pa l3 l2 l1 : ℕ} (h : TablesOk p m root) (hg : NoGiant m.mem root)
    (hpa : IsFrame pa) (hl3 : frameAt tableOf m.mem root [l4Index v] = some l3)
    (hl2 : frameAt tableOf m.mem root [l3Index v, l4Index v] = some l2)
    (hl1 : frameAt tableOf m.mem root (ptPath v) = some l1)
    (htab₄ : isTable (m.mem root (l4Index v)) = true)
    (htab₃ : isTable (m.mem l3 (l3Index v)) = true)
    (htab₂ : isTable (m.mem l2 (l2Index v)) = true) :
    Kept p root m (mapLeaf m root v pa pageUserRw l3 l2 l1) ∧
      UserPath (mapLeaf m root v pa pageUserRw l3 l2 l1).mem root v ∧
      ∀ w, leafEntry (mapLeaf m root v pa pageUserRw l3 l2 l1).mem root w =
        if SamePage w v then mkEntry pa pageUserRw else leafEntry m.mem root w := by
  obtain ⟨hk, huser, -, hleaf⟩ :=
    mapLeaf_flags h hg hpa present_pageUserRw hl3 hl2 hl1 htab₄ htab₃ htab₂
  exact ⟨hk, huser user_pageUserRw, hleaf⟩

@[simp] theorem mapLeaf_bitmap (m : Mach) (root v pa : ℕ) (flags : BitVec 64) (l3 l2 l1 : ℕ) :
    (mapLeaf m root v pa flags l3 l2 l1).bitmap = m.bitmap := by
  unfold mapLeaf
  dsimp only
  split <;> rfl

/-- **Mapping a page in any root**: the page is mapped to `pa`, or all leaves are as before. -/
theorem tryMap4k_flags {pa : ℕ} {flags : BitVec 64} (hp : p.Physical) (h : TablesOk p m root)
    (hg : NoGiant m.mem root) (hpa : IsFrame pa) (hflags : present flags = true) :
    ∃ m' b, tryMap4k p m root v pa flags = (m', b) ∧ Kept p root m m' ∧
      (b = true → hugeEntry m.mem root v = 0#64 ∧ translateInPml4 m.mem v root = none) ∧
      (b = true → user flags = true → UserPath m'.mem root v) ∧
      ((∀ q f, frameAt tableOf m.mem root q = some f → frameAt tableOf m'.mem root q = some f) ∧
        ∀ f ∈ p.freeFrames m.bitmap, f ∈ p.freeFrames m'.bitmap ∨ f ∈ tables m'.mem root) ∧
      ∀ w, leafEntry m'.mem root w =
        if b = true ∧ SamePage w v then mkEntry pa flags else leafEntry m.mem root w := by
  have hsame : (∀ q f, frameAt tableOf m.mem root q = some f →
      frameAt tableOf m.mem root q = some f) ∧
      ∀ f ∈ p.freeFrames m.bitmap, f ∈ p.freeFrames m.bitmap ∨ f ∈ tables m.mem root :=
    ⟨fun _ _ hf => hf, fun _ hf => Or.inl hf⟩
  have hkeep : Kept p root m m := (Grown.refl h hg).kept
  unfold tryMap4k
  split
  · exact ⟨m, false, rfl, hkeep, by simp, by simp, hsame, by simp⟩
  split
  · exact ⟨m, false, rfl, hkeep, by simp, by simp, hsame, by simp⟩
  next hsome =>
  have hnone : translateInPml4 m.mem v root = none := by simpa using hsome
  have hpde := hugeEntry_of_translate hnone fun t ht => h.zero t ⟨_, ht⟩ _
  obtain ⟨m', res, hrun, hgrown, hres⟩ := tablesFor_grown hp h hg hpde
  rw [hrun]
  match res, hres with
  | none, _ =>
    exact ⟨m', false, rfl, hgrown.kept, by simp, by simp, ⟨hgrown.paths, hgrown.taken⟩,
      by simpa using hgrown.leafEntry_eq⟩
  | some (l3, l2, l1), hres =>
    obtain ⟨hl3, hl2, hl1, htab₄, htab₃, htab₂⟩ := hres l3 l2 l1 rfl
    obtain ⟨hk, huser, hframe, hleaf⟩ :=
      mapLeaf_flags hgrown.ok hgrown.noGiant hpa hflags hl3 hl2 hl1 htab₄ htab₃ htab₂
    have htables := footprint_congr hframe
    refine ⟨_, true, rfl, hgrown.kept.trans hk, fun _ => ⟨hpde, hnone⟩, fun _ => huser,
      ⟨fun q f hq => (hframe q).trans (hgrown.paths q f hq), fun f hf => ?_⟩, fun w => ?_⟩
    · rcases hgrown.taken f hf with hf | hf
      · refine Or.inl ?_
        rw [mapLeaf_bitmap]
        exact hf
      · exact Or.inr (htables.symm.subset hf)
    rw [hleaf, hgrown.leafEntry_eq]
    simp only [true_and]

/-- **Mapping a user page in any root**: the page is mapped to `pa`, or all leaves are as before. -/
theorem tryMap4k_page {pa : ℕ} (hp : p.Physical) (h : TablesOk p m root)
    (hg : NoGiant m.mem root) (hpa : IsFrame pa) :
    ∃ m' b, tryMap4k p m root v pa pageUserRw = (m', b) ∧ Kept p root m m' ∧
      (b = true → UserPath m'.mem root v) ∧
      ∀ w, leafEntry m'.mem root w =
        if b = true ∧ SamePage w v then mkEntry pa pageUserRw else leafEntry m.mem root w := by
  obtain ⟨m', b, hrun, hk, -, huser, -, hleaf⟩ := tryMap4k_flags (v := v) hp h hg hpa
    present_pageUserRw
  exact ⟨m', b, hrun, hk, fun hb => huser hb user_pageUserRw, hleaf⟩

theorem bootMem_noGiant {l4 l3 l2 : ℕ} (h : BootFrames l4 l3 l2) :
    NoGiant (bootMem l4 l3 l2) l4 := by
  intro q t x hq hlen hpr
  rcases frameAt_bootMem h hq with ⟨rfl, rfl⟩ | ⟨rfl, rfl⟩ | ⟨rfl, rfl⟩
  · rw [bootMem_l4] at hpr ⊢
    split_ifs at hpr ⊢
    · rw [huge_mkEntry h.pdpt, huge_pageUserRw]
    · simp at hpr
  · rw [bootMem_l3 h] at hpr ⊢
    split_ifs at hpr ⊢
    · rw [huge_mkEntry h.pd, huge_pageUserRw]
    · simp at hpr
  · simp at hlen

end

end Vibix.Paging
