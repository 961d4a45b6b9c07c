import Mathlib.Order.Lattice
import Mathlib.Tactic

/-! # Sets as sorted lists of intervals

A set over a linear order is given by the first `n` entries of an array of half-open intervals.
`Separated` says that the intervals are non-empty, sorted and do not even touch; `Covers` is
membership in the set.

An interval is added by replacing those entries that it overlaps or touches, which are consecutive,
by one interval (`splice`).  `Separated.splice` and `covers_splice` say that this keeps the form and
adds what it should; `has_hull` is the step by which the entries to be replaced are collected. -/

/-- A half-open interval. -/
structure HalfOpen (α : Type*) where
  lo : α
  hi : α
deriving DecidableEq

namespace HalfOpen

variable {α : Type*}

section Splice

variable {cells : ℕ → HalfOpen α} {first last : ℕ} {x : HalfOpen α}

/-- The entries from `first` up to `last` are replaced by `x`. -/
def splice (cells : ℕ → HalfOpen α) (first last : ℕ) (x : HalfOpen α) : ℕ → HalfOpen α :=
  fun k => if k < first then cells k else if k = first then x else cells (k + (last - first) - 1)

theorem splice_before {k : ℕ} (h : k < first) : splice cells first last x k = cells k := if_pos h

theorem splice_at : splice cells first last x first = x := by
  simp [splice]

theorem splice_after {k : ℕ} (h : first < k) :
    splice cells first last x k = cells (k + (last - first) - 1) := by
  rw [splice, if_neg (by omega), if_neg (by omega)]

end Splice

variable [LinearOrder α]

/-- The elements of an interval. -/
def Has (x : HalfOpen α) (a : α) : Prop := x.lo ≤ a ∧ a < x.hi

instance (x : HalfOpen α) (a : α) : Decidable (x.Has a) := by
  unfold Has
  infer_instance

/-- The smallest interval that contains two. -/
def hull (x y : HalfOpen α) : HalfOpen α := ⟨min x.lo y.lo, max x.hi y.hi⟩

/-- Two intervals that overlap or touch make one. -/
theorem has_hull {x y : HalfOpen α} {a : α} (hxy : x.lo ≤ y.hi) (hyx : y.lo ≤ x.hi) :
    (x.hull y).Has a ↔ x.Has a ∨ y.Has a := by
  simp only [Has, hull, min_le_iff, lt_max_iff]
  constructor
  · rintro ⟨hlo, hhi⟩
    rcases lt_or_ge a x.hi with hx | hx
    · rcases le_or_gt x.lo a with hl | hl
      · exact .inl ⟨hl, hx⟩
      · exact .inr ⟨hlo.resolve_left (not_le.mpr hl), hl.trans_le hxy⟩
    · exact .inr ⟨hyx.trans hx, hhi.resolve_left (not_lt.mpr hx)⟩
  · rintro (⟨hlo, hhi⟩ | ⟨hlo, hhi⟩)
    · exact ⟨.inl hlo, .inl hhi⟩
    · exact ⟨.inr hlo, .inr hhi⟩

/-- The first `n` intervals are non-empty, sorted, and there is a gap between any two. -/
structure Separated (cells : ℕ → HalfOpen α) (n : ℕ) : Prop where
  nonempty : ∀ i < n, (cells i).lo < (cells i).hi
  apart : ∀ i j, i < j → j < n → (cells i).hi < (cells j).lo

/-- Some of the first `n` intervals contains `a`. -/
def Covers (cells : ℕ → HalfOpen α) (n : ℕ) (a : α) : Prop := ∃ i < n, (cells i).Has a

variable {cells cells' : ℕ → HalfOpen α} {n first last : ℕ} {x : HalfOpen α} {a : α}

theorem Separated.zero : Separated cells 0 := ⟨nofun, nofun⟩

theorem not_covers_zero : ¬ Covers cells 0 a := by
  rintro ⟨i, hi, -⟩
  exact Nat.not_lt_zero i hi

theorem Separated.congr (h : Separated cells n) (heq : ∀ i < n, cells' i = cells i) :
    Separated cells' n := by
  refine ⟨fun i hi => ?_, fun i j hij hj => ?_⟩
  · rw [heq i hi]
    exact h.nonempty i hi
  · rw [heq i (hij.trans hj), heq j hj]
    exact h.apart i j hij hj

theorem covers_congr (heq : ∀ i < n, cells' i = cells i) : Covers cells' n a ↔ Covers cells n a := by
  constructor
  · rintro ⟨i, hi, ha⟩
    exact ⟨i, hi, heq i hi ▸ ha⟩
  · rintro ⟨i, hi, ha⟩
    exact ⟨i, hi, (heq i hi).symm ▸ ha⟩

/-- The upper bounds are increasing. -/
theorem Separated.hi_le (h : Separated cells n) {i j : ℕ} (hij : i ≤ j) (hj : j < n) :
    (cells i).hi ≤ (cells j).hi := by
  rcases hij.eq_or_lt with rfl | hlt
  · exact le_rfl
  · exact ((h.apart i j hlt hj).trans (h.nonempty j hj)).le

/-- **The form is kept** if `x` is apart from the entries that stay. -/
theorem Separated.splice (h : Separated cells n) (hle : first ≤ last) (hlast : last ≤ n)
    (hx : x.lo < x.hi) (hbefore : ∀ i < first, (cells i).hi < x.lo)
    (hafter : ∀ i, last ≤ i → i < n → x.hi < (cells i).lo) :
    Separated (HalfOpen.splice cells first last x) (n + 1 - (last - first)) := by
  constructor
  · intro i hi
    rcases lt_trichotomy i first with hlt | rfl | hlt
    · rw [splice_before hlt]
      exact h.nonempty i (by omega)
    · rwa [splice_at]
    · rw [splice_after hlt]
      exact h.nonempty _ (by omega)
  · intro i j hij hj
    rcases lt_trichotomy i first with hi | rfl | hi
    · rw [splice_before hi]
      rcases lt_trichotomy j first with hj' | rfl | hj'
      · rw [splice_before hj']
        exact h.apart i j hij (by omega)
      · rw [splice_at]
        exact hbefore i hi
      · rw [splice_after hj']
        exact h.apart i _ (by omega) (by omega)
    · rw [splice_at, splice_after hij]
      exact hafter _ (by omega) (by omega)
    · rw [splice_after hi, splice_after (hi.trans hij)]
      exact h.apart _ _ (by omega) (by omega)

/-- **What is covered** after the replacement. -/
theorem covers_splice (hle : first ≤ last) (hlast : last ≤ n) :
    Covers (splice cells first last x) (n + 1 - (last - first)) a ↔
      x.Has a ∨ ∃ i < n, (i < first ∨ last ≤ i) ∧ (cells i).Has a := by
  constructor
  · rintro ⟨i, hi, ha⟩
    rcases lt_trichotomy i first with hlt | rfl | hlt
    · rw [splice_before hlt] at ha
      exact .inr ⟨i, by omega, .inl hlt, ha⟩
    · rw [splice_at] at ha
      exact .inl ha
    · rw [splice_after hlt] at ha
      exact .inr ⟨_, by omega, .inr (by omega), ha⟩
  · rintro (ha | ⟨i, hi, hlt | hge, ha⟩)
    · exact ⟨first, by omega, by rwa [splice_at]⟩
    · exact ⟨i, by omega, by rwa [splice_before hlt]⟩
    · refine ⟨i + 1 - (last - first), by omega, ?_⟩
      rw [splice_after (by omega)]
      have hidx : i + 1 - (last - first) + (last - first) - 1 = i := by omega
      rwa [hidx]

end HalfOpen
