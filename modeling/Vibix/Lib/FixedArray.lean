import Mathlib.Data.List.Basic
import Mathlib.Algebra.Order.Group.Nat

/-! # Arrays and slices with checked accesses

An array of a fixed length, and the accesses to arrays and slices that a program checks at run time:
an access out of bounds has no result.  A loop over such accesses has no result if one of them has
none; `copy_eq` and `skipWhile_eq` say when the loops that copy and scan do have one, and which. -/

namespace Vibix

variable {α : Type*} {n : ℕ}

/-- An array of length `n`. -/
structure FixedArray (α : Type*) (n : ℕ) where
  items : List α
  length_items : items.length = n

namespace FixedArray

/-- The array with `x` everywhere. -/
def fill (n : ℕ) (x : α) : FixedArray α n := ⟨List.replicate n x, List.length_replicate⟩

/-- Read at an index. -/
def get (a : FixedArray α n) (i : ℕ) : Option α := a.items[i]?

/-- Write at an index. -/
def set (a : FixedArray α n) (i : ℕ) (x : α) : Option (FixedArray α n) :=
  if i < n then some ⟨a.items.set i x, by rw [List.length_set, a.length_items]⟩ else none

/-- The slice of the first `k` items. -/
def upTo (a : FixedArray α n) (k : ℕ) : Option (List α) :=
  if k ≤ n then some (a.items.take k) else none

/-- The loop that writes the items of a list, from an index on. -/
def copy : FixedArray α n → ℕ → List α → Option (FixedArray α n)
  | a, _, [] => some a
  | a, pos, x :: xs => (a.set pos x).bind fun a => a.copy (pos + 1) xs

/-- The array with the items of a list in place of those from `pos` on. -/
def overlay (a : FixedArray α n) (pos : ℕ) (xs : List α) (h : pos + xs.length ≤ n) :
    FixedArray α n where
  items := a.items.take pos ++ xs ++ a.items.drop (pos + xs.length)
  length_items := by
    simp only [List.length_append, List.length_take, List.length_drop, a.length_items]
    omega

variable {a b : FixedArray α n} {pos : ℕ} {x : α} {xs : List α}

theorem ext (h : a.items = b.items) : a = b := by
  cases a
  cases b
  congr

theorem lt_length (h : pos < n) : pos < a.items.length := by rwa [a.length_items]

theorem get_lt (h : pos < n) : ∃ x, a.get pos = some x ∧ x ∈ a.items :=
  ⟨_, List.getElem?_eq_getElem (lt_length h), List.getElem_mem _⟩

theorem set_eq (h : pos < n) : a.set pos x = some (a.overlay pos [x] h) := by
  have hset : a.items.set pos x = a.items.take pos ++ [x] ++ a.items.drop (pos + 1) := by
    rw [List.set_eq_take_append_cons_drop, if_pos (lt_length h), List.append_assoc]
    rfl
  rw [set, if_pos h]
  exact congrArg some (ext hset)

theorem overlay_nil (h : pos + ([] : List α).length ≤ n) : a.overlay pos [] h = a := by
  apply ext
  simp only [overlay, List.append_nil]
  exact List.take_append_drop pos a.items

theorem overlay_overlay (h₁ : pos + [x].length ≤ n) (h₂ : pos + 1 + xs.length ≤ n)
    (h : pos + (x :: xs).length ≤ n) :
    (a.overlay pos [x] h₁).overlay (pos + 1) xs h₂ = a.overlay pos (x :: xs) h := by
  have hlen : (a.items.take pos ++ [x]).length = pos + 1 := by
    simp only [List.length_append, List.length_take, List.length_singleton, a.length_items]
    simp only [List.length_singleton] at h₁
    omega
  have hsum : pos + [x].length + xs.length = pos + (x :: xs).length := by
    simp only [List.length_cons, List.length_nil]
    omega
  apply ext
  simp only [overlay]
  rw [List.take_left' hlen, ← List.drop_drop, List.drop_left' hlen, List.drop_drop, hsum]
  simp only [List.append_assoc, List.cons_append, List.nil_append]

theorem take_overlay (h : pos + xs.length ≤ n) :
    (a.overlay pos xs h).items.take (pos + xs.length) = a.items.take pos ++ xs := by
  refine List.take_left' ?_
  simp only [List.length_append, List.length_take, a.length_items]
  omega

theorem copy_singleton : a.copy pos [x] = a.set pos x := by
  rw [copy]
  exact Option.bind_fun_some _

theorem copy_append (xs ys : List α) :
    a.copy pos (xs ++ ys) = (a.copy pos xs).bind fun a => a.copy (pos + xs.length) ys := by
  induction xs generalizing a pos with
  | nil => rfl
  | cons x xs ih =>
    rw [List.cons_append, copy, copy, Option.bind_assoc, List.length_cons, Nat.add_comm xs.length,
      ← Nat.add_assoc]
    exact congrArg _ (funext fun a => ih)

/-- **The loop that copies** stays in bounds if there is room. -/
theorem copy_eq (h : pos + xs.length ≤ n) : a.copy pos xs = some (a.overlay pos xs h) := by
  induction xs generalizing a pos with
  | nil => rw [copy, overlay_nil]
  | cons x xs ih =>
    have hlt : pos < n := by
      rw [List.length_cons] at h
      omega
    have hrest : pos + 1 + xs.length ≤ n := by
      rw [List.length_cons] at h
      omega
    rw [copy, set_eq hlt, Option.bind_some, ih hrest, overlay_overlay]

theorem upTo_eq (h : pos ≤ n) : a.upTo pos = some (a.items.take pos) := if_pos h

theorem upTo_overlay (h : pos + xs.length ≤ n) :
    (a.overlay pos xs h).upTo (pos + xs.length) = some (a.items.take pos ++ xs) := by
  rw [upTo_eq h, take_overlay]

end FixedArray

/-- The slice of a list from `i` up to `j`. -/
def sliceOf (xs : List α) (i j : ℕ) : Option (List α) :=
  if i ≤ j ∧ j ≤ xs.length then some ((xs.take j).drop i) else none

/-- The loop that goes on from `pos` while the items satisfy `p`. -/
def skipWhile (p : α → Bool) (xs : List α) : ℕ → ℕ → Option ℕ
  | 0, pos => some pos
  | fuel + 1, pos =>
    if pos < xs.length then
      xs[pos]?.bind fun x => if p x then skipWhile p xs fuel (pos + 1) else some pos
    else some pos

/-- **The loop that scans** stays in bounds. -/
theorem skipWhile_eq {p : α → Bool} {xs : List α} {fuel pos : ℕ} (h : xs.length ≤ pos + fuel) :
    skipWhile p xs fuel pos = some (pos + ((xs.drop pos).takeWhile p).length) := by
  induction fuel generalizing pos with
  | zero =>
    rw [skipWhile, List.drop_eq_nil_of_le (show xs.length ≤ pos from h)]
    rfl
  | succ fuel ih =>
    rw [skipWhile]
    split
    next hlt =>
      rw [List.getElem?_eq_getElem hlt, Option.bind_some, List.drop_eq_getElem_cons hlt,
        List.takeWhile_cons]
      split
      next hp =>
        rw [ih (by omega), List.length_cons]
        congr 1
        omega
      next => rfl
    next hge =>
      rw [List.drop_eq_nil_of_le (Nat.le_of_not_lt hge)]
      rfl

end Vibix
