import Mathlib.Data.List.Basic
import Mathlib.Data.List.Pairwise
import Mathlib.Tactic

/-! # Tilings of an interval

A `Cell` is a half-open interval `[start, start + size)` with a tag.  `Tiles lo hi L` says that
the cells of `L`, in order, cover `[lo, hi)` without gap or overlap; every cell is non-empty.
Tilings split and join at any point (`tiles_append`), the cells stay inside the bounds, are in
ascending order, and are determined by their start.

Where some cells are free and no two neighbours are both free, the tiling is determined by the cells
that are not (`Tiles.alike`): the free cells are the gaps between them. -/

/-- A non-empty interval with a tag. -/
structure Cell (τ : Type*) where
  start : ℕ
  size : ℕ
  tag : τ
deriving DecidableEq

namespace Cell

variable {τ : Type*}

/-- The first address after the cell. -/
def stop (c : Cell τ) : ℕ := c.start + c.size

end Cell

/-- The cells of the list, in order, cover `[lo, hi)` exactly. -/
def Tiles {τ : Type*} : ℕ → ℕ → List (Cell τ) → Prop
  | lo, hi, [] => lo = hi
  | lo, hi, c :: L => c.start = lo ∧ 0 < c.size ∧ Tiles c.stop hi L

section Tiles

variable {τ : Type*} {lo hi mid : ℕ} {c d : Cell τ} {L M : List (Cell τ)}

@[simp] theorem tiles_nil : Tiles lo hi ([] : List (Cell τ)) ↔ lo = hi := Iff.rfl

@[simp] theorem tiles_cons :
    Tiles lo hi (c :: L) ↔ c.start = lo ∧ 0 < c.size ∧ Tiles c.stop hi L := Iff.rfl

/-- Tilings split and join. -/
theorem tiles_append : ∀ {L : List (Cell τ)} {lo : ℕ},
    Tiles lo hi (L ++ M) ↔ ∃ mid, Tiles lo mid L ∧ Tiles mid hi M
  | [], lo => by simp
  | c :: L, lo => by
      simp only [List.cons_append, tiles_cons, tiles_append (L := L)]
      constructor
      · rintro ⟨hs, hpos, mid, hL, hM⟩
        exact ⟨mid, ⟨hs, hpos, hL⟩, hM⟩
      · rintro ⟨mid, ⟨hs, hpos, hL⟩, hM⟩
        exact ⟨hs, hpos, mid, hL, hM⟩

theorem Tiles.le : ∀ {L : List (Cell τ)} {lo : ℕ}, Tiles lo hi L → lo ≤ hi
  | [], _, h => le_of_eq h
  | c :: L, lo, ⟨hs, _, hL⟩ => by
      have hle := Tiles.le hL
      simp only [Cell.stop] at hle
      omega

/-- A tiling has no more cells than points. -/
theorem Tiles.length_le : ∀ {L : List (Cell τ)} {lo : ℕ}, Tiles lo hi L → lo + L.length ≤ hi
  | [], _, h => le_of_eq h
  | c :: L, lo, ⟨hs, hpos, hL⟩ => by
      have hle := Tiles.length_le hL
      simp only [Cell.stop] at hle
      rw [List.length_cons]
      omega

theorem Tiles.lt (h : Tiles lo hi L) (hne : L ≠ []) : lo < hi := by
  cases L with
  | nil => exact absurd rfl hne
  | cons c L =>
    obtain ⟨hs, hpos, hL⟩ := h
    have hle := hL.le
    simp only [Cell.stop] at hle
    omega

/-- A non-empty tiling determines the interval it tiles. -/
theorem Tiles.unique {hi' : ℕ} : ∀ {L : List (Cell τ)} {lo lo' : ℕ}, Tiles lo hi L →
    Tiles lo' hi' L → L ≠ [] → lo = lo' ∧ hi = hi'
  | [], _, _, _, _, hne => absurd rfl hne
  | [c], _, _, ⟨hs, _, hL⟩, ⟨hs', _, hL'⟩, _ => ⟨hs.symm.trans hs', hL.symm.trans hL'⟩
  | c :: d :: L, _, _, ⟨hs, _, hL⟩, ⟨hs', _, hL'⟩, _ =>
    ⟨hs.symm.trans hs', (Tiles.unique hL hL' (by simp)).2⟩

/-- A cell of a tiling, with the tilings on its two sides. -/
theorem Tiles.split (h : Tiles lo hi (L ++ c :: M)) :
    Tiles lo c.start L ∧ 0 < c.size ∧ Tiles c.stop hi M := by
  obtain ⟨mid, hL, hs, hpos, hM⟩ := tiles_append.mp h
  exact ⟨hs ▸ hL, hpos, hM⟩

theorem Tiles.bounds (h : Tiles lo hi L) (hc : c ∈ L) : lo ≤ c.start ∧ c.stop ≤ hi := by
  obtain ⟨A, B, rfl⟩ := List.append_of_mem hc
  obtain ⟨hA, _, hB⟩ := h.split
  exact ⟨hA.le, hB.le⟩

theorem Tiles.pos (h : Tiles lo hi L) (hc : c ∈ L) : 0 < c.size := by
  obtain ⟨A, B, rfl⟩ := List.append_of_mem hc
  exact h.split.2.1

/-- The cells are in ascending order and do not overlap. -/
theorem Tiles.sorted : ∀ {L : List (Cell τ)} {lo : ℕ}, Tiles lo hi L →
    L.Pairwise fun c d => c.stop ≤ d.start
  | [], _, _ => List.Pairwise.nil
  | c :: L, lo, ⟨_, _, hL⟩ => by
      refine List.pairwise_cons.mpr ⟨?_, Tiles.sorted hL⟩
      intro d hd
      exact (hL.bounds hd).1

theorem Tiles.starts_lt (h : Tiles lo hi L) : (L.map Cell.start).Pairwise (· < ·) := by
  rw [List.pairwise_map]
  refine h.sorted.imp_of_mem ?_
  intro c d hc _ hcd
  have hpos := h.pos hc
  simp only [Cell.stop] at hcd
  omega

/-- Two cells of a tiling that start at the same point are equal. -/
theorem Tiles.eq_of_start (h : Tiles lo hi L) (hc : c ∈ L) (hd : d ∈ L)
    (hs : c.start = d.start) : c = d := by
  have hnd : (L.map Cell.start).Nodup := h.starts_lt.imp fun hlt => ne_of_lt hlt
  exact List.inj_on_of_nodup_map hnd hc hd hs

/-- Distinct cells of a tiling are apart. -/
theorem Tiles.apart (h : Tiles lo hi L) (hc : c ∈ L) (hd : d ∈ L) (hne : c ≠ d) :
    c.stop ≤ d.start ∨ d.stop ≤ c.start := by
  obtain ⟨A, B, rfl⟩ := List.append_of_mem hc
  obtain ⟨hA, _, hB⟩ := h.split
  rcases List.mem_append.mp hd with hdA | hdB
  · exact Or.inr (hA.bounds hdA).2
  · rcases List.mem_cons.mp hdB with rfl | hdB
    · exact absurd rfl hne
    · exact Or.inl (hB.bounds hdB).1

end Tiles

section Coalesced

variable {τ : Type*} {free : Cell τ → Prop} {lo hi : ℕ} {c d : Cell τ} {L M : List (Cell τ)}

/-- Two cells in the same place, both free or both not. -/
def Cell.Alike (free : Cell τ → Prop) (c d : Cell τ) : Prop :=
  c.start = d.start ∧ c.size = d.size ∧ (free c ↔ free d)

/-- Every cell of `L` that is not free has its like in `M`. -/
def FixedIn (free : Cell τ → Prop) (L M : List (Cell τ)) : Prop :=
  ∀ c ∈ L, ¬ free c → ∃ d ∈ M, ¬ free d ∧ d.start = c.start ∧ d.size = c.size

/-- A cell of one tiling has its like in the other. -/
theorem exists_alike (h : List.Forall₂ (Cell.Alike free) L M) (hc : c ∈ L) :
    ∃ d ∈ M, c.Alike free d := by
  induction h with
  | nil => cases hc
  | cons hcd _ ih =>
    rcases List.mem_cons.mp hc with rfl | hc
    · exact ⟨_, List.mem_cons_self, hcd⟩
    · obtain ⟨d, hd, halike⟩ := ih hc
      exact ⟨d, List.mem_cons_of_mem _ hd, halike⟩

theorem FixedIn.tail (hL : Tiles lo hi (c :: L)) (hd : d.start = lo) (h : FixedIn free (c :: L) (d :: M)) :
    FixedIn free L M := by
  intro e he hfree
  obtain ⟨f, hf, hffree, hstart, hsize⟩ := h e (List.mem_cons_of_mem c he) hfree
  refine ⟨f, ?_, hffree, hstart, hsize⟩
  rcases List.mem_cons.mp hf with rfl | hfM
  · obtain ⟨hs, hpos, hrest⟩ := hL
    have hlow := (hrest.bounds he).1
    simp only [Cell.stop] at hlow
    omega
  · exact hfM

/-- A free cell reaches up to the next one that is not. -/
theorem Tiles.free_head_le (hL : Tiles lo hi (c :: L)) (hM : Tiles lo hi (d :: M)) (hc : free c)
    (hco : (c :: L).IsChain fun c d => ¬ (free c ∧ free d)) (hLM : FixedIn free (c :: L) (d :: M)) :
    d.stop ≤ c.stop := by
  obtain ⟨hcs, hcpos, hcL⟩ := hL
  obtain ⟨hds, hdpos, hdM⟩ := hM
  have hdhi := hdM.le
  by_contra hlt
  cases L with
  | nil =>
    simp only [tiles_nil] at hcL
    omega
  | cons e L =>
    have he : ¬ free e := fun hfree => (List.isChain_cons_cons.mp hco).1 ⟨hc, hfree⟩
    have hes : e.start = c.stop := hcL.1
    obtain ⟨f, hf, -, hfs, -⟩ := hLM e (by simp) he
    rcases List.mem_cons.mp hf with rfl | hfM
    · simp only [Cell.stop] at hes
      omega
    · have hlow := (hdM.bounds hfM).1
      omega

/-- The first cells of two tilings with the same fixed cells. -/
theorem Tiles.alike_head (hL : Tiles lo hi (c :: L)) (hM : Tiles lo hi (d :: M))
    (hcoL : (c :: L).IsChain fun c d => ¬ (free c ∧ free d))
    (hcoM : (d :: M).IsChain fun c d => ¬ (free c ∧ free d))
    (hLM : FixedIn free (c :: L) (d :: M)) (hML : FixedIn free (d :: M) (c :: L)) :
    c.Alike free d := by
  have hstart : c.start = d.start := hL.1.trans hM.1.symm
  by_cases hc : free c
  · by_cases hd : free d
    · have hle := hL.free_head_le hM hc hcoL hLM
      have hge := hM.free_head_le hL hd hcoM hML
      simp only [Cell.stop] at hle hge
      exact ⟨hstart, by omega, iff_of_true hc hd⟩
    · obtain ⟨f, hf, hffree, hfs, -⟩ := hML d List.mem_cons_self hd
      rw [hL.eq_of_start hf List.mem_cons_self (hfs.trans hstart.symm)] at hffree
      exact absurd hc hffree
  · obtain ⟨f, hf, hffree, hfs, hsize⟩ := hLM c List.mem_cons_self hc
    rw [hM.eq_of_start hf List.mem_cons_self (hfs.trans hstart)] at hffree hsize
    exact ⟨hstart, hsize.symm, iff_of_false hc hffree⟩

/-- **Coalesced tilings** with the same fixed cells are the same. -/
theorem Tiles.alike (hL : Tiles lo hi L) (hM : Tiles lo hi M)
    (hcoL : L.IsChain fun c d => ¬ (free c ∧ free d)) (hcoM : M.IsChain fun c d => ¬ (free c ∧ free d))
    (hLM : FixedIn free L M) (hML : FixedIn free M L) : List.Forall₂ (Cell.Alike free) L M := by
  induction L generalizing lo M with
  | nil =>
    cases M with
    | nil => exact List.Forall₂.nil
    | cons d M =>
      have hlt := hM.lt (by simp)
      rw [tiles_nil] at hL
      omega
  | cons c L ih =>
    cases M with
    | nil =>
      have hlt := hL.lt (by simp)
      rw [tiles_nil] at hM
      omega
    | cons d M =>
      have hhead := hL.alike_head hM hcoL hcoM hLM hML
      have hstop : d.stop = c.stop := by rw [Cell.stop, Cell.stop, hhead.1, hhead.2.1]
      refine List.Forall₂.cons hhead (ih hL.2.2 (hstop ▸ hM.2.2) hcoL.tail hcoM.tail ?_ ?_)
      · exact hLM.tail hL hM.1
      · exact hML.tail hM hL.1

end Coalesced
