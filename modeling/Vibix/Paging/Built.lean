import Vibix.Paging.Scratch

/-! # Roots under construction

`Built p Ok m₁ r E m` is the invariant of everything that builds an address space: since the state
`m₁`, exactly the frames that the new root `r` owns were taken, and the frames `E` that are not
linked yet; the owned frames are pairwise distinct, their entries are as `Ok` says, and no frame
that was in use at `m₁` was written.  It is kept by the steps that builders take:

* `Built.init`: the root itself is taken;
* `Built.alloc`, `Built.release`: a frame is taken or given back;
* `Built.fillExtra`: a frame that is not linked yet is written;
* `Built.write`: an entry is written that owns what the old one owned;
* `Built.link`, `Built.unlink`: a frame is published in an entry that owned nothing, or withdrawn.

Publishing before filling makes the rollback find everything: destroying the root in any such
state restores the bitmap (`Built.destroy`).  The loops that fill a table entry by entry share one
rule, `Built.fill`. -/

namespace Vibix.Paging

open FrameTree

/-- The state `m` while the root `r` is under construction, starting from `m₁`; the frames `E` are
taken but not linked. -/
structure Built (p : PmmAllocator) (Ok : List (Fin 512) → Fin 512 → BitVec 64 → Prop) (m₁ : Mach)
    (r : ℕ) (E : Set ℕ) (m : Mach) : Prop where
  cr3 : m.cr3 = m₁.cr3
  taken : p.Taken m₁.bitmap (owned m.mem r ∪ E) m.bitmap
  extra : ∀ f ∈ E, f ∉ owned m.mem r
  priv : Private ownedBy m.mem r
  outside : ∀ f, f ∉ p.freeFrames m₁.bitmap → m.mem f = m₁.mem f
  entries : EntriesOk Ok m.mem r

theorem ownedBy_zero (q : List (Fin 512)) (x : Fin 512) : ownedBy q x 0#64 = none := by
  match q with
  | [] => simp [ownedBy]
  | [_] => simp [ownedBy]
  | [_, _] => simp [ownedBy]
  | [_, _, _] => simp [ownedBy]
  | _ :: _ :: _ :: _ :: _ => rfl

section Steps

variable {p : PmmAllocator} {m₁ m : Mach} {r t new f : ℕ} {x : Fin 512} {q : List (Fin 512)}
  {E : Set ℕ} {Ok : List (Fin 512) → Fin 512 → BitVec 64 → Prop}

/-! ### The active root -/

theorem Built.free_of_owned (h : Built p Ok m₁ r E m) (hf : f ∈ owned m.mem r) :
    f ∈ p.freeFrames m₁.bitmap := h.taken.sub (Or.inl hf)

theorem Built.used_of_owned (h : Built p Ok m₁ r E m) (hf : f ∈ owned m.mem r) :
    f ∉ p.freeFrames m.bitmap := h.taken.not_free (Or.inl hf)

/-- The tables of the active root are not written. -/
theorem Built.active (h : Built p Ok m₁ r E m) (hwf : WellFormed p m₁)
    (hf : f ∈ tables m₁.mem m₁.cr3) : m.mem f = m₁.mem f := h.outside f (hwf.used f hf)

theorem Built.wf (h : Built p Ok m₁ r E m) (hwf : WellFormed p m₁) : WellFormed p m :=
  hwf.congr h.cr3 (fun _ hf => h.active hwf hf) fun _ hf => h.taken.not_free_of_not_free hf

theorem Built.frameAt_active (h : Built p Ok m₁ r E m) (hwf : WellFormed p m₁) :
    frameAt tableOf m.mem m.cr3 q = frameAt tableOf m₁.mem m₁.cr3 q := by
  rw [h.cr3]
  exact frameAt_of_eqOn (fun _ hf => h.active hwf hf) q

/-! ### Taking and giving back frames -/

/-- A root whose first entry is not present owns only itself. -/
theorem path_eq_nil {mem : PhysMem} {path : List (Fin 512)} (h : present (mem r 0) = false)
    (hf : frameAt ownedBy mem r path = some f) : path = [] := by
  induction path generalizing f with
  | nil => rfl
  | cons x q ih =>
    obtain ⟨t, ht, hown⟩ := frameAt_cons_eq_some.mp hf
    obtain rfl := ih ht
    obtain rfl := Option.some.inj ht
    simp only [ownedBy] at hown
    split_ifs at hown with hx
    rw [hx.1, h] at hx
    cases hx.2

/-- **The fresh root.** -/
theorem Built.init (hcr3 : m.cr3 = m₁.cr3) (htake : p.Taken m₁.bitmap {r} m.bitmap)
    (hmem : ∀ f, f ≠ r → m.mem f = m₁.mem f) (h : present (m.mem r 0) = false)
    (hok : ∀ x, Ok [] x (m.mem r x)) :
    Built p Ok m₁ r ∅ m := by
  have howned : owned m.mem r = {r} := by
    ext f
    rw [Set.mem_singleton_iff]
    constructor
    · rintro ⟨path, hpath⟩
      obtain rfl := path_eq_nil h hpath
      exact (Option.some.inj hpath).symm
    · rintro rfl
      exact root_mem_footprint
  refine ⟨hcr3, ?_, by simp, ?_, ?_, ?_⟩
  · rw [howned, Set.union_empty]
    exact htake
  · intro q q' f hq hq'
    rw [path_eq_nil h hq, path_eq_nil h hq']
  · intro f hf
    exact hmem f fun heq => hf (heq ▸ htake.sub rfl)
  · intro q t x hq
    obtain rfl := path_eq_nil h hq
    obtain rfl := Option.some.inj hq
    exact hok x

/-- **Taking a frame.** -/
theorem Built.alloc {bm : Bitmap} (h : Built p Ok m₁ r E m) (htake : p.Taken m.bitmap {new} bm) :
    Built p Ok m₁ r (insert new E) { m with bitmap := bm } ∧ new ∉ E := by
  have hfree : new ∈ p.freeFrames m.bitmap := htake.sub rfl
  refine ⟨⟨h.cr3, ?_, ?_, h.priv, h.outside, h.entries⟩, fun hE => h.taken.not_free (Or.inr hE) hfree⟩
  · have hall := h.taken.trans htake
    rwa [Set.union_singleton, ← Set.union_insert] at hall
  · rintro f (rfl | hf)
    · exact fun hown => h.used_of_owned hown hfree
    · exact h.extra f hf

/-- **Giving back a frame** that is not linked. -/
theorem Built.release (h : Built p Ok m₁ r (insert f E) m) (hf : f ∉ E) :
    Built p Ok m₁ r E (m.free p f) := by
  have hback := h.taken.release (h.taken.sub (Or.inr (Set.mem_insert f E)))
  have hown := h.extra f (Set.mem_insert f E)
  have hset : (owned m.mem r ∪ insert f E) \ {f} = owned m.mem r ∪ E := by
    ext g
    simp only [Set.mem_sdiff, Set.mem_union, Set.mem_insert_iff, Set.mem_singleton_iff]
    constructor
    · rintro ⟨hg | rfl | hg, hne⟩
      · exact Or.inl hg
      · exact absurd rfl hne
      · exact Or.inr hg
    · rintro (hg | hg)
      · exact ⟨Or.inl hg, fun heq => hown (heq ▸ hg)⟩
      · exact ⟨Or.inr (Or.inr hg), fun heq => hf (heq ▸ hg)⟩
  rw [hset] at hback
  exact ⟨h.cr3, hback, fun g hg => h.extra g (Or.inr hg), h.priv, h.outside, h.entries⟩

/-- **Writing a frame that is not linked yet.** -/
theorem Built.fillExtra (h : Built p Ok m₁ r E m) (hf : f ∈ E) (w : Fin 512 → BitVec 64) :
    Built p Ok m₁ r E { m with mem := m.mem.setFrame f w } := by
  have hmem : ∀ g ∈ owned m.mem r, m.mem.setFrame f w g = m.mem g := by
    intro g hg
    apply PhysMem.setFrame_ne
    rintro rfl
    exact h.extra g hf hg
  have hframe := frameAt_of_eqOn hmem
  have howned : owned (m.mem.setFrame f w) r = owned m.mem r := footprint_congr hframe
  refine ⟨h.cr3, ?_, ?_, h.priv.congr hframe, ?_, h.entries.congr hmem⟩
  · rw [howned]
    exact h.taken
  · rw [howned]
    exact h.extra
  · intro g hg
    rw [← h.outside g hg]
    apply PhysMem.setFrame_ne
    rintro rfl
    exact hg (h.taken.sub (Or.inr hf))

/-! ### Writing entries -/

/-- What every write to an owned table keeps. -/
theorem Built.outside_write (h : Built p Ok m₁ r E m) (hq : frameAt ownedBy m.mem r q = some t)
    (e : BitVec 64) (hf : f ∉ p.freeFrames m₁.bitmap) : (m.write t x e).mem f = m₁.mem f := by
  rw [← h.outside f hf]
  apply PhysMem.setSlot_frame_ne
  rintro rfl
  exact hf (h.free_of_owned ⟨q, hq⟩)

theorem sameBut_write (m : Mach) (e : BitVec 64) :
    SameBut ownedBy m.mem r (m.write t x e).mem t x := by
  intro f _ y hfy
  simp only [Mach.write, PhysMem.setSlot, if_neg hfy]

theorem write_entry (m : Mach) (t : ℕ) (x : Fin 512) (e : BitVec 64) :
    (m.write t x e).mem t x = e := PhysMem.setSlot_same _ _ _ _

/-- A write keeps the entries as they should be, given where the frames are afterwards. -/
theorem Built.entries_write {e : BitVec 64} (h : Built p Ok m₁ r E m)
    (hq : frameAt ownedBy m.mem r q = some t) (hok : Ok q x e)
    (hframe : ∀ q' d, frameAt ownedBy (m.write t x e).mem r q' = some d →
      frameAt ownedBy m.mem r q' = some d ∨ ∀ y, Ok q' y ((m.write t x e).mem d y)) :
    EntriesOk Ok (m.write t x e).mem r := by
  intro q' d y hd
  rcases hframe q' d hd with hold | hnew
  · simp only [Mach.write, PhysMem.setSlot]
    split_ifs with hty
    · obtain ⟨rfl, rfl⟩ := hty
      rw [h.priv q' q _ hold hq]
      exact hok
    · exact h.entries q' d y hold
  · exact hnew y

/-- **Writing an entry** that owns what the old one owned. -/
theorem Built.write {e : BitVec 64} (h : Built p Ok m₁ r E m)
    (hq : frameAt ownedBy m.mem r q = some t) (hown : ownedBy q x e = ownedBy q x (m.mem t x))
    (hok : Ok q x e) :
    Built p Ok m₁ r E (m.write t x e) ∧
      ∀ path, frameAt ownedBy (m.write t x e).mem r path = frameAt ownedBy m.mem r path := by
  have hframe : ∀ path, frameAt ownedBy (m.write t x e).mem r path =
      frameAt ownedBy m.mem r path := by
    apply frameAt_of_own_eq
    intro q' t' y hq'
    simp only [Mach.write, PhysMem.setSlot]
    split_ifs with hty
    · obtain ⟨rfl, rfl⟩ := hty
      rw [h.priv q' q _ hq' hq, hown]
    · rfl
  have howned : owned (m.write t x e).mem r = owned m.mem r := footprint_congr hframe
  refine ⟨⟨h.cr3, ?_, ?_, h.priv.congr hframe, fun f hf => h.outside_write hq e hf, ?_⟩, hframe⟩
  · rw [howned]
    exact h.taken
  · rw [howned]
    exact h.extra
  · exact h.entries_write hq hok fun q' d hd => Or.inl (by rw [← hframe, hd])

/-- **Linking** a taken frame in an entry that owned nothing: a leaf, or a table without any
present entry. -/
theorem Built.link {e : BitVec 64} (h : Built p Ok m₁ r (insert new E) m) (hE : new ∉ E)
    (hq : frameAt ownedBy m.mem r q = some t) (hnone : ownedBy q x (m.mem t x) = none)
    (hw : q.length = 3 ∨ ∀ y, m.mem new y = 0#64) (he : ownedBy q x e = some new)
    (hok : Ok q x e) (hnewOk : ∀ y, Ok (x :: q) y (m.mem new y)) :
    Built p Ok m₁ r E (m.write t x e) ∧
      ∀ path, frameAt ownedBy (m.write t x e).mem r path =
        if path = x :: q then some new else frameAt ownedBy m.mem r path := by
  have hnew : new ∉ owned m.mem r := h.extra new (Set.mem_insert new E)
  have htn : t ≠ new := fun heq => hnew (heq ▸ ⟨q, hq⟩)
  have hmemNew : (m.write t x e).mem new = m.mem new :=
    PhysMem.setSlot_frame_ne _ htn.symm _ _
  have hleaf : ∀ y, ownedBy (x :: q) y ((m.write t x e).mem new y) = none := by
    intro y
    rcases hw with hlen | hzero
    · match q, hlen with
      | [_, _, _], _ => rfl
    · rw [hmemNew, hzero y]
      exact ownedBy_zero _ y
  have hlink := frameAt_link h.priv (sameBut_write m e) hq hnone (by rw [write_entry, he]) hleaf
  have hnone' : frameAt ownedBy m.mem r (x :: q) = none := by rw [frameAt_cons_of hq, hnone]
  have howned : owned (m.write t x e).mem r = insert new (owned m.mem r) :=
    footprint_insert hlink hnone'
  refine ⟨⟨h.cr3, ?_, ?_, h.priv.insert hlink hnew, fun f hf => h.outside_write hq e hf, ?_⟩,
    hlink⟩
  · have htaken := h.taken
    rwa [Set.union_insert, ← Set.insert_union, ← howned] at htaken
  · intro f hf
    rw [howned, Set.mem_insert_iff, not_or]
    exact ⟨fun heq => hE (heq ▸ hf), h.extra f (Or.inr hf)⟩
  · refine h.entries_write hq hok ?_
    intro q' d hd
    rw [hlink] at hd
    split_ifs at hd with hpath
    · obtain rfl := Option.some.inj hd
      right
      rw [hmemNew, hpath]
      exact hnewOk
    · exact Or.inl hd

/-- **Unlinking** a frame that owns nothing. -/
theorem Built.unlink {e : BitVec 64} (h : Built p Ok m₁ r E m)
    (hq : frameAt ownedBy m.mem r q = some t) (hf : frameAt ownedBy m.mem r (x :: q) = some f)
    (hleaf : ∀ y, frameAt ownedBy m.mem r (y :: x :: q) = none) (he : ownedBy q x e = none)
    (hok : Ok q x e) :
    Built p Ok m₁ r (insert f E) (m.write t x e) ∧ f ∉ E ∧
      ∀ path, frameAt ownedBy (m.write t x e).mem r path =
        if path = x :: q then none else frameAt ownedBy m.mem r path := by
  have hun := frameAt_unlink h.priv (sameBut_write m e) hq (by rw [write_entry, he]) hleaf
  have howned : owned (m.write t x e).mem r = owned m.mem r \ {f} :=
    footprint_remove h.priv hun hf
  have hfE : f ∉ E := fun hE => h.extra f hE ⟨_, hf⟩
  refine ⟨⟨h.cr3, ?_, ?_, h.priv.remove hun, fun g hg => h.outside_write hq e hg, ?_⟩, hfE, hun⟩
  · have hset : owned m.mem r \ {f} ∪ insert f E = owned m.mem r ∪ E := by
      ext g
      simp only [Set.mem_sdiff, Set.mem_union, Set.mem_insert_iff, Set.mem_singleton_iff]
      by_cases hgf : g = f
      · simp [hgf, show f ∈ owned m.mem r from ⟨_, hf⟩]
      · simp [hgf]
    rw [howned, hset]
    exact h.taken
  · intro g hg
    rw [howned, Set.mem_sdiff, not_and_or, not_not, Set.mem_singleton_iff]
    rcases hg with rfl | hg
    · exact Or.inr rfl
    · exact Or.inl (h.extra g hg)
  · refine h.entries_write hq hok ?_
    intro q' d hd
    rw [hun] at hd
    split_ifs at hd
    exact Or.inl hd

/-- A fresh frame is filled and published. -/
theorem Built.publish {bm : Bitmap} {w : Fin 512 → BitVec 64} {e : BitVec 64}
    (h : Built p Ok m₁ r E m) (hq : frameAt ownedBy m.mem r q = some t)
    (hnone : ownedBy q x (m.mem t x) = none) (htake : p.Taken m.bitmap {new} bm)
    (hw : q.length = 3 ∨ w = fun _ => 0#64) (he : ownedBy q x e = some new)
    (hok : Ok q x e) (hwOk : ∀ y, Ok (x :: q) y (w y)) {m' : Mach}
    (hm' : m' = ({ m with mem := m.mem.setFrame new w, bitmap := bm } : Mach).write t x e) :
    Built p Ok m₁ r E m' ∧ frameAt ownedBy m'.mem r (x :: q) = some new ∧
      SameBut ownedBy m.mem r m'.mem t x ∧ m'.mem new = w ∧ m'.mem t x = e := by
  have hnew : ∀ g ∈ owned m.mem r, g ≠ new :=
    fun g hg heq => h.used_of_owned hg (heq ▸ htake.sub rfl)
  obtain ⟨hb, hE⟩ := h.alloc htake
  have hb' := hb.fillExtra (Set.mem_insert new E) w
  have hmem : ∀ g ∈ owned m.mem r, m.mem.setFrame new w g = m.mem g :=
    fun g hg => PhysMem.setFrame_ne _ (hnew g hg) w
  have hframe := frameAt_of_eqOn hmem
  have ht := hnew t ⟨q, hq⟩
  have hsame : m.mem.setFrame new w new = w := PhysMem.setFrame_same _ _ _
  obtain ⟨hlinked, hpath⟩ := hb'.link (t := t) (q := q) hE ((hframe q).trans hq)
    ((congrArg (fun w => ownedBy q x (w x)) (hmem t ⟨q, hq⟩)).trans hnone)
    (hw.imp id fun hw y => by rw [hw]; exact congrFun (PhysMem.setFrame_same _ _ _) y) he hok
    (by simpa only [hsame] using hwOk)
  subst hm'
  refine ⟨hlinked, by rw [hpath, if_pos rfl], ?_, ?_, write_entry _ t x e⟩
  · intro g hg y hgy
    simp only [Mach.write, PhysMem.setSlot, if_neg hgy, hmem g hg]
  · simp only [Mach.write]
    rw [PhysMem.setSlot_frame_ne _ ht.symm, PhysMem.setFrame_same]

/-! ### Rollback -/

theorem foldl_free (L : List ℕ) (m : Mach) :
    L.foldl (fun m f => m.free p f) m =
      { m with bitmap := L.foldl (fun b f => p.free b f) m.bitmap } := by
  induction L generalizing m with
  | nil => rfl
  | cons f L ih => rw [List.foldl_cons, ih, List.foldl_cons, Mach.free]

/-- **Rollback**: destroying a root under construction restores the bitmap. -/
theorem Built.destroy (h : Built p Ok m₁ r ∅ m) (hok : ∀ q x e, Ok q x e → NotUserHuge q x e) :
    destroyUncommittedPml4 p m r = { m with bitmap := m₁.bitmap } := by
  have htaken := h.taken
  rw [Set.union_empty] at htaken
  rw [destroyUncommittedPml4, foldl_free,
    htaken.release_all fun f => mem_destroyFrames fun q t x hq => hok q x _ (h.entries q t x hq)]

/-! ### Filling a table -/

/-- A later state of the construction in which `t` may have been written, and fresh frames. -/
structure Extends (r t : ℕ) (m m' : Mach) : Prop where
  paths : ∀ path f, frameAt ownedBy m.mem r path = some f → frameAt ownedBy m'.mem r path = some f
  same : ∀ f ∈ owned m.mem r, f ≠ t → m'.mem f = m.mem f

theorem Extends.refl (r t : ℕ) (m : Mach) : Extends r t m m := ⟨fun _ _ h => h, fun _ _ _ => rfl⟩

theorem Extends.owned_subset {m' : Mach} (h : Extends r t m m') :
    owned m.mem r ⊆ owned m'.mem r := by
  rintro f ⟨path, hpath⟩
  exact ⟨path, h.paths path f hpath⟩

theorem Extends.trans {m' m'' : Mach} (h : Extends r t m m') (h' : Extends r t m' m'') :
    Extends r t m m'' := by
  refine ⟨fun path f hf => h'.paths path f (h.paths path f hf), ?_⟩
  intro f hf hne
  rw [h'.same f (h.owned_subset hf) hne, h.same f hf hne]

/-- One entry that owned nothing was written. -/
theorem Built.extends {m' : Mach} (h : Built p NotUserHuge m₁ r ∅ m) (hq : frameAt ownedBy m.mem r q = some t)
    (hzero : m.mem t x = 0#64) (hs : SameBut ownedBy m.mem r m'.mem t x) : Extends r t m m' := by
  refine ⟨hs.frameAt_mono h.priv hq (by rw [hzero]; exact ownedBy_zero q x), ?_⟩
  intro f hf hne
  funext y
  exact hs f hf y fun hc => hne hc.1

/-- The result of filling entry `x` of the table `t` from the state `s`: the construction is still
sound, of the frames owned before only this entry was written, and `Q` holds unless the
construction was abandoned. -/
def Filled (p : PmmAllocator) (m₁ : Mach) (r t : ℕ) (x : Fin 512) (s : CloneState)
    (res : Option (CloneState × Bool)) (Q : Mach → Prop) : Prop :=
  ∃ s' b, res = some (s', b) ∧ Built p NotUserHuge m₁ r ∅ s'.1 ∧ SameBut ownedBy s.1.mem r s'.1.mem t x ∧
    (b = true → Q s'.1)

theorem Filled.abandon {s : CloneState} {Q : Mach → Prop} (h : Built p NotUserHuge m₁ r ∅ s.1) :
    Filled p m₁ r t x s (some (s, false)) Q :=
  ⟨s, false, rfl, h, SameBut.refl, by simp⟩

theorem Filled.skip {s : CloneState} {Q : Mach → Prop} (h : Built p NotUserHuge m₁ r ∅ s.1) (hQ : Q s.1) :
    Filled p m₁ r t x s (some (s, true)) Q :=
  ⟨s, true, rfl, h, SameBut.refl, fun _ => hQ⟩

theorem Filled.write {s : CloneState} {Q : Mach → Prop} {e : BitVec 64}
    (h : Built p NotUserHuge m₁ r ∅ (s.1.write t x e)) (hQ : Q (s.1.write t x e)) :
    Filled p m₁ r t x s (some ((s.1.write t x e, s.2), true)) Q :=
  ⟨_, true, rfl, h, sameBut_write s.1 e, fun _ => hQ⟩

/-- A description of an entry that relies on the frames `D` of the store only. -/
def Stable (Spec : Set ℕ → PhysMem → Fin 512 → BitVec 64 → Prop) : Prop :=
  ∀ ⦃D D' : Set ℕ⦄ ⦃mem mem' : PhysMem⦄ ⦃y : Fin 512⦄ ⦃e : BitVec 64⦄, D ⊆ D' →
    (∀ f ∈ D, mem' f = mem f) → Spec D mem y e → Spec D' mem' y e

/-- **Filling a table.**  `Spec D mem y e` is what iteration `y` promises of the entry `e` it
leaves, relying on the frames `D` of `mem` only; `D` is what hangs below the table, so later
iterations do not disturb it. -/
theorem Built.fill {body : Fin 512 → CloneState → Option (CloneState × Bool)} {s : CloneState}
    {Spec : Set ℕ → PhysMem → Fin 512 → BitVec 64 → Prop}
    (hstable : Stable Spec)
    (hbody : ∀ y s, Built p NotUserHuge m₁ r ∅ s.1 → frameAt ownedBy s.1.mem r q = some t →
      s.1.mem t y = 0#64 → Filled p m₁ r t y s (body y s)
        fun m' => Spec (below ownedBy m'.mem r q) m'.mem y (m'.mem t y))
    (h : Built p NotUserHuge m₁ r ∅ s.1) (hq : frameAt ownedBy s.1.mem r q = some t)
    (hzero : ∀ y, s.1.mem t y = 0#64) :
    ∃ s' b, tryFor body (List.finRange 512) s = some (s', b) ∧ Built p NotUserHuge m₁ r ∅ s'.1 ∧
      Extends r t s.1 s'.1 ∧
      (b = true → ∀ y, Spec (below ownedBy s'.1.mem r q) s'.1.mem y (s'.1.mem t y)) := by
  let P : List (Fin 512) → CloneState → Prop := fun d s' =>
    (Built p NotUserHuge m₁ r ∅ s'.1 ∧ Extends r t s.1 s'.1) ∧ (∀ y ∉ d, s'.1.mem t y = 0#64) ∧
      ∀ y ∈ d, Spec (below ownedBy s'.1.mem r q) s'.1.mem y (s'.1.mem t y)
  have hstep : ∀ d y rest s₁, List.finRange 512 = d ++ y :: rest → P d s₁ →
      ∃ s' b, body y s₁ = some (s', b) ∧ (b = true → P (d ++ [y]) s') ∧
        (b = false → Built p NotUserHuge m₁ r ∅ s'.1 ∧ Extends r t s.1 s'.1) := by
    rintro d y rest s₁ hL ⟨⟨hb, hext⟩, hrest, hdone⟩
    have hyd : y ∉ d := by
      intro hy
      have hnodup := List.nodup_finRange 512
      rw [hL] at hnodup
      exact (List.nodup_append.mp hnodup).2.2 y hy y List.mem_cons_self rfl
    have hq₁ := hext.paths _ _ hq
    obtain ⟨s', b, hrun, hb', hsame, hspec⟩ := hbody y s₁ hb hq₁ (hrest y hyd)
    have hext' := hb.extends hq₁ (hrest y hyd) hsame
    have hentry : ∀ z, z ≠ y → s'.1.mem t z = s₁.1.mem t z :=
      fun z hz => hsame t ⟨q, hq₁⟩ z fun hc => hz hc.2
    refine ⟨s', b, hrun, fun hbt => ⟨⟨hb', hext.trans hext'⟩, ?_, ?_⟩, fun _ =>
      ⟨hb', hext.trans hext'⟩⟩
    · intro z hz
      rw [List.mem_append, List.mem_singleton, not_or] at hz
      rw [hentry z hz.2]
      exact hrest z hz.1
    · intro z hz
      by_cases hzy : z = y
      · rw [hzy]
        exact hspec hbt
      · rw [List.mem_append, List.mem_singleton] at hz
        rw [hentry z hzy]
        refine hstable (below_mono hext'.paths) ?_ (hdone z (hz.resolve_right hzy))
        intro f hf
        obtain ⟨x, z, hpath⟩ := id hf
        exact hext'.same f ⟨_, hpath⟩ (ne_of_mem_below hb.priv hq₁ hf)
  obtain ⟨s', b, hrun, htrue, hfalse⟩ := tryFor_spec (P := P) hstep
    ⟨⟨h, Extends.refl r t s.1⟩, fun y _ => hzero y, by simp⟩
  refine ⟨s', b, hrun, ?_⟩
  cases b with
  | false => exact ⟨(hfalse rfl).1, (hfalse rfl).2, by simp⟩
  | true =>
    obtain ⟨⟨hb, hext⟩, _, hdone⟩ := htrue rfl
    exact ⟨hb, hext, fun _ y => hdone y (List.mem_finRange y)⟩

/-! ### Publishing a table and filling it -/

theorem mach_alloc_null (hp : p.Physical) (h : (p.alloc m.bitmap).2 = 0) :
    ({ m with bitmap := (p.alloc m.bitmap).1 } : Mach) = m := by
  rw [(PmmAllocator.alloc_null hp.toValid h).1]

theorem publishTable_spec {flags : BitVec 64} (hp : p.Physical) (h : Built p NotUserHuge m₁ r ∅ m)
    (hq : frameAt ownedBy m.mem r q = some t) (hnone : ownedBy q x (m.mem t x) = none)
    (hflags : ∀ new, IsFrame new → ownedBy q x (mkEntry new flags) = some new)
    (hhuge : huge flags = false) :
    publishTable p m t x flags = (m, 0) ∨
    ∃ m' new, publishTable p m t x flags = (m', new) ∧ new ≠ 0 ∧ IsFrame new ∧
      new ∉ owned m.mem r ∧ Built p NotUserHuge m₁ r ∅ m' ∧ frameAt ownedBy m'.mem r (x :: q) = some new ∧
      SameBut ownedBy m.mem r m'.mem t x ∧ (∀ y, m'.mem new y = 0#64) ∧
      m'.mem t x = mkEntry new flags := by
  unfold publishTable
  by_cases hnull : (p.alloc m.bitmap).2 = 0
  · left
    simp only [hnull, ↓reduceIte, mach_alloc_null hp hnull]
  · right
    simp only [hnull, ↓reduceIte]
    have htake := PmmAllocator.taken_alloc hp.toValid hnull
    have hframe : IsFrame (p.alloc m.bitmap).2 := isFrame_of_free hp (htake.sub rfl)
    obtain ⟨hb, hpath, hsame, hnew, hentry⟩ :=
      h.publish hq hnone htake (Or.inr rfl) (hflags _ hframe)
        (NotUserHuge.of_not_huge (by rw [huge_mkEntry hframe, hhuge]))
        (fun y => NotUserHuge.zero _ y) rfl
    exact ⟨_, _, rfl, hnull, hframe, fun hmem => h.used_of_owned hmem (htake.sub rfl), hb, hpath,
      hsame, congrFun hnew, hentry⟩

/-- **Publish and fill**: a fresh table in entry `x` of `t`, each of its entries as `Spec` says. -/
theorem Filled.publish {s : CloneState} (flags : BitVec 64)
    (body : ℕ → Fin 512 → CloneState → Option (CloneState × Bool))
    (Spec : Set ℕ → PhysMem → Fin 512 → BitVec 64 → Prop)
    (hstable : Stable Spec)
    (hbody : ∀ new y s, Built p NotUserHuge m₁ r ∅ s.1 → frameAt ownedBy s.1.mem r (x :: q) = some new →
      s.1.mem new y = 0#64 → Filled p m₁ r new y s (body new y s)
        fun m' => Spec (below ownedBy m'.mem r (x :: q)) m'.mem y (m'.mem new y))
    (hp : p.Physical) (h : Built p NotUserHuge m₁ r ∅ s.1) (hq : frameAt ownedBy s.1.mem r q = some t)
    (hzero : s.1.mem t x = 0#64)
    (hflags : ∀ new, IsFrame new → ownedBy q x (mkEntry new flags) = some new)
    (hhuge : huge flags = false) :
    Filled p m₁ r t x s
      (let r := publishTable p s.1 t x flags
       if r.2 = 0 then some ((r.1, s.2), false)
       else tryFor (body r.2) (List.finRange 512) (r.1, s.2))
      fun m' => ∃ new, m'.mem t x = mkEntry new flags ∧ IsFrame new ∧
        new ∈ below ownedBy m'.mem r q ∧
        ∀ y, Spec (below ownedBy m'.mem r q) m'.mem y (m'.mem new y) := by
  rcases publishTable_spec hp h hq (by rw [hzero]; exact ownedBy_zero q x) hflags hhuge with
    hnull | ⟨m', new, heq, hne, hframe, hfresh, hb, hpath, hsame, hempty, hentry⟩
  · simp only [hnull, ↓reduceIte]
    exact Filled.abandon h
  · simp only [heq, hne, ↓reduceIte]
    obtain ⟨s', b, hrun, hb', hext, hspec⟩ :=
      Built.fill (s := (m', s.2)) hstable (hbody new) hb hpath hempty
    have hold := h.extends hq hzero hsame
    have hkeep : ∀ f ∈ owned s.1.mem r, s'.1.mem f = m'.mem f := by
      intro f hf
      exact hext.same f (hold.owned_subset hf) fun heq => hfresh (heq ▸ hf)
    refine ⟨s', b, hrun, hb', ?_, ?_⟩
    · intro f hf y hfy
      rw [hkeep f hf]
      exact hsame f hf y hfy
    · intro hbt
      have hnew := hext.paths _ _ hpath
      refine ⟨new, ?_, hframe, child_mem_below hnew, ?_⟩
      · rw [hkeep t ⟨q, hq⟩, hentry]
      · intro y
        exact hstable below_cons_subset (fun _ _ => rfl) (hspec hbt y)

end Steps

end Vibix.Paging
