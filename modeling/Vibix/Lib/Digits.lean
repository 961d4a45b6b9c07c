import Mathlib.Tactic

/-! # Numbers in a fixed number of digits

`digits b n v` are the last `n` digits of `v` in base `b`, the most significant first, and `value` is
the number that a list of digits denotes.  Numbers that fit are read back (`value_digits`). -/

namespace Digits

/-- The last `n` digits of `v`, most significant first. -/
def digits (b : ℕ) : ℕ → ℕ → List ℕ
  | 0, _ => []
  | n + 1, v => digits b n (v / b) ++ [v % b]

/-- The number that a list of digits denotes. -/
def value (b : ℕ) (ds : List ℕ) : ℕ := ds.foldl (fun acc d => acc * b + d) 0

variable {b n v d : ℕ}

@[simp] theorem length_digits : (digits b n v).length = n := by
  induction n generalizing v with
  | zero => rfl
  | succ n ih => simp [digits, ih]

theorem lt_of_mem_digits (hb : 0 < b) (h : d ∈ digits b n v) : d < b := by
  induction n generalizing v with
  | zero => cases h
  | succ n ih =>
    rw [digits, List.mem_append, List.mem_singleton] at h
    rcases h with h | rfl
    · exact ih h
    · exact Nat.mod_lt _ hb

theorem value_concat (ds : List ℕ) : value b (ds ++ [d]) = value b ds * b + d := by
  simp [value, List.foldl_append]

/-- **Numbers that fit are read back.** -/
theorem value_digits (h : v < b ^ n) : value b (digits b n v) = v := by
  induction n generalizing v with
  | zero =>
    rw [pow_zero, Nat.lt_one_iff] at h
    rw [h]
    rfl
  | succ n ih =>
    rw [pow_succ] at h
    rw [digits, value_concat, ih (Nat.div_lt_of_lt_mul (by rwa [Nat.mul_comm])), Nat.mul_comm]
    exact Nat.div_add_mod v b

end Digits
