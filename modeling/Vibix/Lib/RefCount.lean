import Mathlib.Algebra.BigOperators.Group.Finset.Basic
import Mathlib.Data.Fintype.BigOperators
import Mathlib.Tactic

/-! # Reference counts

Objects are named by `ι`; references to them are held in the entries of finitely many rows, `refs :
α → β → Option ι`.  A table gives each live object a count.  `Balanced count refs pending` says that
an object is live exactly when it is referenced, and that its count is the number of references:
those in the rows, and those in the list `pending`, which are in transit between the table and the
rows.  Every operation on such a structure is a sequence of four moves:

* `Balanced.create`: a free object becomes live, with one reference in transit;
* `Balanced.acquire`: a live object gets another one;
* `Balanced.release`: a reference in transit is given up, and the last one frees the object;
* `Balanced.replaceRow`: references move between a row and the list. -/

namespace RefCount

variable {α β ι : Type*} [DecidableEq ι]

/-- The references to `i` in a row. -/
def inRow [Fintype β] (row : β → Option ι) (i : ι) : ℕ := ∑ b, if row b = some i then 1 else 0

/-- The references to `i` in all rows. -/
def inRows [Fintype α] [Fintype β] (refs : α → β → Option ι) (i : ι) : ℕ := ∑ a, inRow (refs a) i

/-- The references of a row, in order. -/
def entries {n : ℕ} (row : Fin n → Option ι) : List ι := (List.finRange n).filterMap row

section Counting

variable [Fintype α] [Fintype β] {i : ι}

theorem sum_update_add {γ : Type*} [DecidableEq α] (g : γ → ℕ) (f : α → γ) (a : α) (v : γ) :
    (∑ x, g (Function.update f a v x)) + g (f a) = (∑ x, g (f x)) + g v := by
  have hsum := Finset.sum_update_of_mem (Finset.mem_univ a) (g ∘ f) (g v)
  have hold := Finset.sum_eq_add_sum_sdiff_singleton_of_mem (Finset.mem_univ a) (g ∘ f)
  rw [← Function.comp_update] at hsum
  simp only [Function.comp_apply] at hsum hold
  rw [hsum, hold]
  omega

theorem inRow_update [DecidableEq β] (row : β → Option ι) (b : β) (v : Option ι) :
    inRow (Function.update row b v) i + (if row b = some i then 1 else 0) =
      inRow row i + if v = some i then 1 else 0 :=
  sum_update_add (fun o : Option ι => if o = some i then 1 else 0) row b v

theorem inRows_update [DecidableEq α] (refs : α → β → Option ι) (a : α) (row : β → Option ι) :
    inRows (Function.update refs a row) i + inRow (refs a) i = inRows refs i + inRow row i :=
  sum_update_add (fun row => inRow row i) refs a row

@[simp] theorem inRow_none : inRow (fun _ : β => (none : Option ι)) i = 0 := by simp [inRow]

/-- A row taken apart. -/
theorem inRow_split (row : β → Option ι) (P : β → Prop) [DecidablePred P] (i : ι) :
    inRow (fun b => if P b then row b else none) i + inRow (fun b => if P b then none else row b) i =
      inRow row i := by
  rw [inRow, inRow, inRow, ← Finset.sum_add_distrib]
  refine Finset.sum_congr rfl fun b _ => ?_
  by_cases hb : P b <;> simp [hb]

theorem inRow_pos_iff {row : β → Option ι} : 0 < inRow row i ↔ ∃ b, row b = some i := by
  simp [inRow, Nat.pos_iff_ne_zero]

theorem inRows_pos_iff {refs : α → β → Option ι} :
    0 < inRows refs i ↔ ∃ a b, refs a b = some i := by
  rw [inRows, Nat.pos_iff_ne_zero, Ne, Finset.sum_eq_zero_iff]
  simp only [Finset.mem_univ, true_imp_iff, not_forall, ← Nat.pos_iff_ne_zero, inRow_pos_iff]

theorem inRow_le_card (row : β → Option ι) (i : ι) : inRow row i ≤ Fintype.card β := by
  refine (Finset.sum_le_card_nsmul _ _ 1 fun b _ => ?_).trans (by simp)
  split <;> simp

theorem inRows_le_card (refs : α → β → Option ι) (i : ι) :
    inRows refs i ≤ Fintype.card α * Fintype.card β := by
  refine (Finset.sum_le_card_nsmul _ _ (Fintype.card β) fun a _ => inRow_le_card _ i).trans ?_
  simp

/-- The list of a row has every reference once. -/
theorem count_entries {n : ℕ} (row : Fin n → Option ι) (i : ι) :
    (entries row).count i = inRow row i := by
  have h : ∀ l : List (Fin n), (l.filterMap row).count i =
      (l.map fun b => if row b = some i then 1 else 0).sum := by
    intro l
    induction l with
    | nil => rfl
    | cons b l ih =>
      rw [List.map_cons, List.sum_cons, ← ih]
      cases hb : row b with
      | none => simp [hb]
      | some j =>
        simp only [List.filterMap_cons, hb, List.count_cons, beq_iff_eq, Option.some.injEq]
        omega
  rw [entries, h, inRow, ← List.sum_ofFn, List.ofFn_eq_map]

end Counting

/-! ### The balance -/

/-- The count of an object with `n` references. -/
def counted (n : ℕ) : Option ℕ := if n = 0 then none else some n

/-- Counts and references agree, with the references `pending` in transit. -/
def Balanced [Fintype α] [Fintype β] (count : ι → Option ℕ) (refs : α → β → Option ι)
    (pending : List ι) : Prop :=
  ∀ i, count i = counted (inRows refs i + pending.count i)

namespace Balanced

variable [Fintype α] [Fintype β] {count count' : ι → Option ℕ} {refs refs' : α → β → Option ι}
  {pending pending' : List ι} {i : ι}

/-- A live object has a reference. -/
theorem isSome_iff (h : Balanced count refs pending) :
    (count i).isSome ↔ 0 < inRows refs i + pending.count i := by
  rw [h i, counted]
  split
  next hz => simp [hz]
  next hne => simp [Nat.pos_iff_ne_zero.mpr hne]

/-- The count of a live object. -/
theorem eq_of_some {n : ℕ} (h : Balanced count refs pending) (hn : count i = some n) :
    n = inRows refs i + pending.count i := by
  rw [h i, counted] at hn
  split at hn
  · cases hn
  · exact (Option.some.inj hn).symm

/-- References may move. -/
theorem move (h : Balanced count refs pending)
    (hsame : ∀ i, inRows refs' i + pending'.count i = inRows refs i + pending.count i) :
    Balanced count refs' pending' := by
  intro i
  rw [h i, hsame i]

/-- **References move between a row and the list.** -/
theorem replaceRow [DecidableEq α] (h : Balanced count refs pending) (a : α) (row : β → Option ι)
    (hrow : ∀ i, inRow row i + pending'.count i = inRow (refs a) i + pending.count i) :
    Balanced count (Function.update refs a row) pending' := by
  refine h.move fun i => ?_
  have hup := inRows_update (i := i) refs a row
  have hr := hrow i
  omega

/-- **A free object becomes live.** -/
theorem create (h : Balanced count refs pending) (hfree : count i = none)
    (hnew : count' i = some 1) (hother : ∀ j, j ≠ i → count' j = count j) :
    Balanced count' refs (i :: pending) := by
  have hzero : inRows refs i + pending.count i = 0 := by
    by_contra hne
    rw [h i, counted, if_neg hne] at hfree
    cases hfree
  intro j
  by_cases hj : j = i
  · subst hj
    rw [hnew, List.count_cons_self, ← Nat.add_assoc, hzero]
    rfl
  · rw [hother j hj, h j, List.count_cons_of_ne fun heq => hj heq.symm]

/-- **A live object gets another reference.** -/
theorem acquire {n : ℕ} (h : Balanced count refs pending) (hold : count i = some n)
    (hnew : count' i = some (n + 1)) (hother : ∀ j, j ≠ i → count' j = count j) :
    Balanced count' refs (i :: pending) := by
  have hn := h.eq_of_some hold
  intro j
  by_cases hj : j = i
  · subst hj
    rw [hnew, List.count_cons_self, hn, counted, if_neg (by omega)]
    rfl
  · rw [hother j hj, h j, List.count_cons_of_ne fun heq => hj heq.symm]

/-- **A reference in transit is given up.** -/
theorem release (h : Balanced count refs (i :: pending))
    (hnew : ∀ n, count i = some (n + 1) → count' i = counted n)
    (hother : ∀ j, j ≠ i → count' j = count j) : Balanced count' refs pending := by
  have hi := h i
  rw [List.count_cons_self, counted, if_neg (by omega), ← Nat.add_assoc] at hi
  intro j
  by_cases hj : j = i
  · rw [hj, hnew _ hi]
  · rw [hother j hj, h j, List.count_cons_of_ne fun heq => hj heq.symm]

end Balanced

end RefCount
