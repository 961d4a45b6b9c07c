import Mathlib.Data.Set.Basic
import Mathlib.Tactic

/-! # Trees of frames in a store

A store gives every frame an array of entries, `mem : F → I → E`.  An *ownership* says which
entries own another frame: `own q x e` is the frame that entry `e`, at index `x` of the frame
reached by the path `q`, owns as a child, if any.  Starting at a root, this makes the store a
tree; a path is the list of indices taken, last one first.

* `frameAt own mem root q` is the frame at the end of the path `q`;
* `footprint` is the set of all frames of the tree;
* `below` is the set of the frames strictly below a path;
* `Private` says that no frame occurs at two paths, so that writing to one frame never changes
  another node of the tree.

Three kinds of updates are enough for everything built on this: those that leave every ownership
as it was (`frameAt_of_own_eq`), linking a childless frame under a free index (`frameAt_link`),
and unlinking one (`frameAt_unlink`).  Each of them says exactly what `frameAt` is afterwards. -/

namespace FrameTree

variable {F I E : Type*} (own : List I → I → E → Option F) (mem : F → I → E) (root : F)

/-- The frame reached by a path. -/
def frameAt : List I → Option F
  | [] => some root
  | x :: q => (frameAt q).bind fun t => own q x (mem t x)

/-- The frames of the tree. -/
def footprint : Set F := {f | ∃ q, frameAt own mem root q = some f}

/-- No frame is reached by two paths. -/
def Private : Prop :=
  ∀ q q' f, frameAt own mem root q = some f → frameAt own mem root q' = some f → q = q'

variable {own mem root} {mem' : F → I → E} {q q' : List I} {x y : I} {t f : F}

@[simp] theorem frameAt_nil : frameAt own mem root [] = some root := rfl

theorem frameAt_cons :
    frameAt own mem root (x :: q) = (frameAt own mem root q).bind fun t => own q x (mem t x) := rfl

theorem frameAt_cons_of (h : frameAt own mem root q = some t) :
    frameAt own mem root (x :: q) = own q x (mem t x) := by
  rw [frameAt_cons, h]
  rfl

theorem frameAt_cons_none (h : frameAt own mem root q = none) :
    frameAt own mem root (x :: q) = none := by
  rw [frameAt_cons, h]
  rfl

theorem frameAt_cons_eq_some :
    frameAt own mem root (x :: q) = some f ↔
      ∃ t, frameAt own mem root q = some t ∧ own q x (mem t x) = some f := by
  rw [frameAt_cons, Option.bind_eq_some_iff]

theorem mem_footprint (h : frameAt own mem root q = some f) : f ∈ footprint own mem root :=
  ⟨q, h⟩

theorem root_mem_footprint : root ∈ footprint own mem root := ⟨[], rfl⟩

/-- **Updates that keep every ownership** keep the tree. -/
theorem frameAt_of_own_eq
    (h : ∀ q t x, frameAt own mem root q = some t → own q x (mem' t x) = own q x (mem t x)) :
    ∀ q, frameAt own mem' root q = frameAt own mem root q
  | [] => rfl
  | x :: q => by
      rw [frameAt_cons, frameAt_cons, frameAt_of_own_eq h q]
      cases hq : frameAt own mem root q with
      | none => rfl
      | some t => exact h q t x hq

theorem footprint_congr
    (h : ∀ q, frameAt own mem' root q = frameAt own mem root q) :
    footprint own mem' root = footprint own mem root := by
  ext f
  simp [footprint, h]

theorem Private.congr (hp : Private own mem root)
    (h : ∀ q, frameAt own mem' root q = frameAt own mem root q) : Private own mem' root := by
  intro q q' f hq hq'
  rw [h] at hq hq'
  exact hp q q' f hq hq'

/-- A store that agrees on the footprint has the same tree. -/
theorem frameAt_of_eqOn (h : ∀ f ∈ footprint own mem root, mem' f = mem f) (q : List I) :
    frameAt own mem' root q = frameAt own mem root q :=
  frameAt_of_own_eq (fun q t x hq => by rw [h t ⟨q, hq⟩]) q

/-- Inside the tree, `mem'` differs from `mem` at most at entry `x` of frame `t`. -/
def SameBut (own : List I → I → E → Option F) (mem : F → I → E) (root : F) (mem' : F → I → E)
    (t : F) (x : I) : Prop :=
  ∀ f ∈ footprint own mem root, ∀ y, ¬ (f = t ∧ y = x) → mem' f y = mem f y

/-- In a private tree an update of one entry is seen at one path only. -/
theorem SameBut.own_eq (hs : SameBut own mem root mem' t x) (hp : Private own mem root)
    (hq : frameAt own mem root q = some t) (hq' : frameAt own mem root q' = some f)
    (hne : y :: q' ≠ x :: q) : own q' y (mem' f y) = own q' y (mem f y) := by
  rw [hs f ⟨q', hq'⟩ y]
  rintro ⟨rfl, rfl⟩
  exact hne (by rw [hp q' q f hq' hq])

theorem SameBut.refl : SameBut own mem root mem t x := fun _ _ _ _ => rfl

/-- An update of an entry that owned nothing keeps every frame of the tree where it was. -/
theorem SameBut.frameAt_mono (hs : SameBut own mem root mem' t x) (hp : Private own mem root)
    (hq : frameAt own mem root q = some t) (hnone : own q x (mem t x) = none) :
    ∀ path f, frameAt own mem root path = some f → frameAt own mem' root path = some f
  | [], _, h => h
  | y :: p, f, h => by
      obtain ⟨g, hg, hown⟩ := frameAt_cons_eq_some.mp h
      have hne : y :: p ≠ x :: q := by
        intro heq
        obtain ⟨rfl, rfl⟩ := List.cons.inj heq
        rw [Option.some.inj (hg.symm.trans hq), hnone] at hown
        cases hown
      rw [frameAt_cons_of (hs.frameAt_mono hp hq hnone p g hg), hs.own_eq hp hq hg hne, hown]

/-! ### Subtrees -/

/-- The frames strictly below a path. -/
def below (own : List I → I → E → Option F) (mem : F → I → E) (root : F) (q : List I) : Set F :=
  {f | ∃ x z, frameAt own mem root (z ++ x :: q) = some f}

theorem child_mem_below (h : frameAt own mem root (x :: q) = some f) :
    f ∈ below own mem root q := ⟨x, [], h⟩

theorem below_cons_subset : below own mem root (x :: q) ⊆ below own mem root q := by
  rintro f ⟨y, z, h⟩
  exact ⟨x, z ++ [y], by simpa using h⟩

theorem below_mono
    (h : ∀ path f, frameAt own mem root path = some f → frameAt own mem' root path = some f) :
    below own mem root q ⊆ below own mem' root q := by
  rintro f ⟨x, z, hf⟩
  exact ⟨x, z, h _ _ hf⟩

theorem ne_of_mem_below (hp : Private own mem root) (hq : frameAt own mem root q = some t)
    (hf : f ∈ below own mem root q) : f ≠ t := by
  rintro rfl
  obtain ⟨x, z, hf⟩ := hf
  have hlen := congrArg List.length (hp _ _ _ hf hq)
  simp only [List.length_append, List.length_cons] at hlen
  omega

variable [DecidableEq I]

/-- **Linking** a childless frame under an index that owned nothing. -/
theorem frameAt_link (hp : Private own mem root) (hs : SameBut own mem root mem' t x)
    (hq : frameAt own mem root q = some t) (hnone : own q x (mem t x) = none)
    (hown : own q x (mem' t x) = some f) (hleaf : ∀ y, own (x :: q) y (mem' f y) = none) :
    ∀ path, frameAt own mem' root path =
      if path = x :: q then some f else frameAt own mem root path
  | [] => by simp
  | y :: p => by
      have ih := frameAt_link hp hs hq hnone hown hleaf p
      rw [frameAt_cons, frameAt_cons, ih]
      by_cases hpx : p = x :: q
      · have hne : y :: p ≠ x :: q := by
          intro h
          have hlen := congrArg List.length (List.cons.inj h).2
          rw [hpx] at hlen
          simp at hlen
        rw [if_pos hpx, if_neg hne, hpx, frameAt_cons_of hq, hnone]
        exact hleaf y
      · rw [if_neg hpx]
        cases hpt : frameAt own mem root p with
        | none =>
          have hne : y :: p ≠ x :: q := by
            intro h
            rw [(List.cons.inj h).2, hq] at hpt
            cases hpt
          rw [if_neg hne]
          rfl
        | some t' =>
          by_cases hne : y :: p = x :: q
          · obtain ⟨rfl, rfl⟩ := List.cons.inj hne
            obtain rfl : t = t' := Option.some.inj (hq.symm.trans hpt)
            rw [if_pos rfl]
            exact hown
          · rw [if_neg hne]
            exact hs.own_eq hp hq hpt hne

/-- **Unlinking** a childless frame. -/
theorem frameAt_unlink (hp : Private own mem root) (hs : SameBut own mem root mem' t x)
    (hq : frameAt own mem root q = some t) (hown : own q x (mem' t x) = none)
    (hleaf : ∀ y, frameAt own mem root (y :: x :: q) = none) :
    ∀ path, frameAt own mem' root path =
      if path = x :: q then none else frameAt own mem root path
  | [] => by simp
  | y :: p => by
      have ih := frameAt_unlink hp hs hq hown hleaf p
      rw [frameAt_cons, ih]
      by_cases hpx : p = x :: q
      · rw [if_pos hpx]
        split_ifs
        · rfl
        · rw [hpx, hleaf y]
          rfl
      · rw [if_neg hpx]
        cases hpt : frameAt own mem root p with
        | none =>
          rw [frameAt_cons, hpt]
          simp
        | some t' =>
          by_cases hne : y :: p = x :: q
          · obtain ⟨rfl, rfl⟩ := List.cons.inj hne
            obtain rfl : t = t' := Option.some.inj (hq.symm.trans hpt)
            rw [if_pos rfl]
            exact hown
          · rw [if_neg hne, frameAt_cons, hpt]
            exact hs.own_eq hp hq hpt hne

/-- A tree extended by one fresh frame: its footprint, and that it stays private. -/
theorem footprint_insert (h : ∀ path, frameAt own mem' root path =
      if path = x :: q then some f else frameAt own mem root path)
    (hnone : frameAt own mem root (x :: q) = none) :
    footprint own mem' root = insert f (footprint own mem root) := by
  ext g
  simp only [footprint, Set.mem_insert_iff, Set.mem_ofPred_eq]
  constructor
  · rintro ⟨path, hpath⟩
    rw [h path] at hpath
    split_ifs at hpath with heq
    · exact Or.inl (Option.some.inj hpath).symm
    · exact Or.inr ⟨path, hpath⟩
  · rintro (rfl | ⟨path, hpath⟩)
    · exact ⟨x :: q, by rw [h, if_pos rfl]⟩
    · refine ⟨path, ?_⟩
      rw [h, if_neg]
      · exact hpath
      · rintro rfl
        rw [hnone] at hpath
        cases hpath

theorem Private.insert (hp : Private own mem root)
    (h : ∀ path, frameAt own mem' root path =
      if path = x :: q then some f else frameAt own mem root path)
    (hfresh : f ∉ footprint own mem root) : Private own mem' root := by
  intro p p' g hg hg'
  rw [h] at hg hg'
  split_ifs at hg hg' with h₁ h₂ h₂
  · rw [h₁, h₂]
  · obtain rfl := Option.some.inj hg
    exact absurd ⟨p', hg'⟩ hfresh
  · obtain rfl := Option.some.inj hg'
    exact absurd ⟨p, hg⟩ hfresh
  · exact hp p p' g hg hg'

/-- A tree that lost one frame: its footprint, and that it stays private. -/
theorem footprint_remove (hp : Private own mem root)
    (h : ∀ path, frameAt own mem' root path =
      if path = x :: q then none else frameAt own mem root path)
    (hf : frameAt own mem root (x :: q) = some f) :
    footprint own mem' root = footprint own mem root \ {f} := by
  ext g
  simp only [footprint, Set.mem_sdiff, Set.mem_ofPred_eq, Set.mem_singleton_iff]
  constructor
  · rintro ⟨path, hpath⟩
    rw [h path] at hpath
    split_ifs at hpath with heq
    refine ⟨⟨path, hpath⟩, ?_⟩
    rintro rfl
    exact heq (hp path _ g hpath hf)
  · rintro ⟨⟨path, hpath⟩, hne⟩
    refine ⟨path, ?_⟩
    rw [h, if_neg]
    · exact hpath
    · rintro rfl
      rw [hf] at hpath
      exact hne (Option.some.inj hpath).symm

theorem Private.remove (hp : Private own mem root)
    (h : ∀ path, frameAt own mem' root path =
      if path = x :: q then none else frameAt own mem root path) : Private own mem' root := by
  intro p p' g hg hg'
  rw [h] at hg hg'
  split_ifs at hg hg' with h₁ h₂
  exact hp p p' g hg hg'

end FrameTree
