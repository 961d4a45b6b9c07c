import Mathlib.Data.List.Basic
import Mathlib.Tactic

/-! # Ring buffers with free-running counters

A ring of `n` cells is filled at one counter and drained at another.  The counters only ever advance,
modulo `w`, and the cell of a counter is found by reducing it modulo `n`.

`Ring.Holds n w cells head tail q` says that the ring holds the queue `q`: its elements are in the
cells from `head` on, and `tail` is behind the last one.  When `n` divides `w` the reduction modulo
`w` is not visible: `Holds.push` and `Holds.pop` advance the counters and keep the queue, and the
number of elements is the difference of the counters (`Holds.used`).

With `w = n` the counters are the cells themselves.  The ring is empty if they are equal
(`Holds.eq_iff`) and full if `tail` is just behind `head` (`Holds.next_eq_iff`); one cell stays
unused.  What is offered to a full ring is dropped: `pushOrDrop`. -/

namespace Ring

variable {α : Type*} {n w : ℕ} [NeZero n]

/-- The ring with the given cells and counters holds the queue `q`. -/
structure Holds (n w : ℕ) [NeZero n] (cells : Fin n → α) (head tail : ℕ) (q : List α) : Prop where
  length_lt : q.length < n
  tail_eq : tail = (head + q.length) % w
  cell : ∀ i, (h : i < q.length) → cells (Fin.ofNat n (head + i)) = q[i]

variable {cells : Fin n → α} {head tail : ℕ} {q : List α} {x : α}

/-- Reducing a counter modulo `w` does not change its cell. -/
theorem ofNat_mod (hdvd : n ∣ w) (k : ℕ) : Fin.ofNat n (k % w) = Fin.ofNat n k := by
  ext
  simp [Nat.mod_mod_of_dvd k hdvd]

/-- Cells of counters less than `n` apart are different. -/
theorem ofNat_add_ne {i j : ℕ} (hij : i < j) (hj : j < n) :
    Fin.ofNat n (head + i) ≠ Fin.ofNat n (head + j) := by
  intro h
  have hmod : (head + i) % n = (head + j) % n := by simpa [Fin.ext_iff] using h
  have hdvd : n ∣ head + j - (head + i) := (Nat.modEq_iff_dvd' (by omega)).mp hmod
  have hle := Nat.le_of_dvd (by omega) hdvd
  omega

/-- The empty ring. -/
theorem Holds.empty (hhead : head < w) : Holds n w cells head head [] :=
  ⟨Nat.pos_of_neZero n, by simp [Nat.mod_eq_of_lt hhead], by simp⟩

/-- The difference of the counters is the length of the queue. -/
theorem Holds.used (h : Holds n w cells head tail q) (hle : n ≤ w) (hhead : head < w) :
    (w - head + tail) % w = q.length := by
  have hlen := h.length_lt
  rw [h.tail_eq, Nat.add_mod_mod]
  have hsum : w - head + (head + q.length) = q.length + w := by omega
  rw [hsum, Nat.add_mod_right, Nat.mod_eq_of_lt (by omega)]

/-- **Filling a cell.** -/
theorem Holds.push (h : Holds n w cells head tail q) (hdvd : n ∣ w) (hlen : q.length + 1 < n) :
    Holds n w (fun c => if c = Fin.ofNat n tail then x else cells c) head ((tail + 1) % w)
      (q ++ [x]) := by
  have hcell : Fin.ofNat n tail = Fin.ofNat n (head + q.length) := by
    rw [h.tail_eq, ofNat_mod hdvd]
  refine ⟨by simpa using hlen, ?_, ?_⟩
  · rw [h.tail_eq, Nat.mod_add_mod, List.length_append, List.length_singleton, Nat.add_assoc]
  · intro i hi
    rw [List.length_append, List.length_singleton] at hi
    rw [hcell]
    by_cases hlast : i = q.length
    · subst hlast
      rw [if_pos rfl, List.getElem_concat_length rfl]
    · have hlt : i < q.length := by omega
      rw [if_neg (ofNat_add_ne hlt h.length_lt), h.cell i hlt, List.getElem_append_left]

/-- **Draining a cell.** -/
theorem Holds.pop (h : Holds n w cells head tail (x :: q)) (hdvd : n ∣ w) :
    cells (Fin.ofNat n head) = x ∧ Holds n w cells ((head + 1) % w) tail q := by
  have hlen := h.length_lt
  rw [List.length_cons] at hlen
  have hfirst := h.cell 0 (Nat.succ_pos _)
  rw [Nat.add_zero, List.getElem_cons_zero] at hfirst
  refine ⟨hfirst, by omega, ?_, ?_⟩
  · rw [h.tail_eq, Nat.mod_add_mod, List.length_cons]
    congr 1
    omega
  · intro i hi
    have hnext := h.cell (i + 1) (by simpa using hi)
    rw [List.getElem_cons_succ] at hnext
    rw [← hnext, ← ofNat_mod hdvd, Nat.mod_add_mod, ofNat_mod hdvd]
    congr 2
    omega

/-! ### Counters that are cells -/

/-- The queue after `x` was offered to a ring with room for `cap` elements. -/
def pushOrDrop (cap : ℕ) (q : List α) (x : α) : List α := if q.length < cap then q ++ [x] else q

theorem map_pushOrDrop {β : Type*} (f : α → β) (cap : ℕ) (q : List α) (x : α) :
    (pushOrDrop cap q x).map f = pushOrDrop cap (q.map f) (f x) := by
  unfold pushOrDrop
  rw [List.length_map]
  split <;> simp

theorem map_foldl_pushOrDrop {β : Type*} (f : α → β) (cap : ℕ) (l q : List α) :
    (l.foldl (pushOrDrop cap) q).map f = (l.map f).foldl (pushOrDrop cap) (q.map f) := by
  induction l generalizing q with
  | nil => rfl
  | cons x l ih => rw [List.foldl_cons, ih, map_pushOrDrop, List.map_cons, List.foldl_cons]

/-- What gets into the ring was offered, in this order. -/
theorem foldl_pushOrDrop_sublist (cap : ℕ) (l q : List α) :
    (l.foldl (pushOrDrop cap) q).Sublist (q ++ l) := by
  induction l generalizing q with
  | nil => simp
  | cons x l ih =>
    refine (ih _).trans ?_
    unfold pushOrDrop
    split
    next => simp
    next => exact (List.sublist_cons_self x l).append_left q

/-- Nothing is dropped while there is room. -/
theorem foldl_pushOrDrop_of_le {cap : ℕ} {l q : List α} (h : q.length + l.length ≤ cap) :
    l.foldl (pushOrDrop cap) q = q ++ l := by
  induction l generalizing q with
  | nil => simp
  | cons x l ih =>
    rw [List.length_cons] at h
    have hpush : pushOrDrop cap q x = q ++ [x] := if_pos (by omega)
    rw [List.foldl_cons, hpush, ih (by rw [List.length_append, List.length_singleton]; omega)]
    simp

/-- Equal counters: nothing is in the ring. -/
theorem Holds.eq_iff (h : Holds n n cells head tail q) (hhead : head < n) :
    head = tail ↔ q = [] := by
  have hused := h.used (Nat.le_refl n) hhead
  constructor
  · rintro rfl
    rw [Nat.sub_add_cancel (Nat.le_of_lt hhead), Nat.mod_self] at hused
    exact List.eq_nil_of_length_eq_zero hused.symm
  · rintro rfl
    rw [h.tail_eq, List.length_nil, Nat.add_zero, Nat.mod_eq_of_lt hhead]

/-- The counter behind `tail` is `head`: there is no room. -/
theorem Holds.next_eq_iff (h : Holds n n cells head tail q) (hhead : head < n) :
    (tail + 1) % n = head ↔ q.length + 1 = n := by
  have hlen := h.length_lt
  rw [h.tail_eq, Nat.mod_add_mod]
  by_cases hwrap : head + q.length + 1 < n
  · rw [Nat.mod_eq_of_lt hwrap]
    omega
  · rw [Nat.mod_eq_sub_mod (by omega), Nat.mod_eq_of_lt (by omega)]
    omega

/-- **Filling a cell, if there is room.** -/
theorem Holds.pushOrDrop (h : Holds n n cells head tail q) (hlen : q.length + 1 < n) :
    Holds n n (fun c => if c = Fin.ofNat n tail then x else cells c) head ((tail + 1) % n)
      (Ring.pushOrDrop (n - 1) q x) := by
  rw [Ring.pushOrDrop, if_pos (by omega)]
  exact h.push (dvd_refl n) hlen

end Ring
