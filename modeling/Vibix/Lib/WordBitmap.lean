import Mathlib.Data.BitVec
import Mathlib.Tactic

/-! # Bitmaps over fixed-width words

A set of small numbers stored as an array of `n` words of `w` bits: number `i` is bit `i % w`
of word `i / w`.  The operations are the usual masks built by shifting `1`:

* `test b i` reads the bit (`word & (1 << (i % w)) != 0`);
* `set b i` and `clear b i` update it (`|=` and `&= !` of the same mask).

Everything later developments need is that these three behave like membership, insertion and
removal (`test_set`, `test_clear`), and that a bitmap is determined by its members
(`ext_test`).  Numbers outside `w * n` are never members and updating them changes nothing. -/

/-- A bitmap: `n` words of `w` bits. -/
def WordBitmap (w n : ℕ) := Fin n → BitVec w

namespace WordBitmap

variable {w n : ℕ}

/-- Word number `k`, zero outside the array. -/
def word (b : WordBitmap w n) (k : ℕ) : BitVec w := if h : k < n then b ⟨k, h⟩ else 0#w

/-- Overwrite word number `k`. -/
def setWord (b : WordBitmap w n) (k : ℕ) (v : BitVec w) : WordBitmap w n :=
  fun j => if j.val = k then v else b j

/-- The one-bit mask of number `i` inside its word. -/
def mask (w i : ℕ) : BitVec w := 1#w <<< (i % w)

/-- Is `i` a member? -/
def test (b : WordBitmap w n) (i : ℕ) : Bool := b.word (i / w) &&& mask w i != 0#w

/-- Make `i` a member. -/
def set (b : WordBitmap w n) (i : ℕ) : WordBitmap w n :=
  b.setWord (i / w) (b.word (i / w) ||| mask w i)

/-- Remove `i`. -/
def clear (b : WordBitmap w n) (i : ℕ) : WordBitmap w n :=
  b.setWord (i / w) (b.word (i / w) &&& ~~~mask w i)

/-- The bitmap whose words are all `v`. -/
def fill (v : BitVec w) : WordBitmap w n := fun _ => v

/-! ### Words -/

theorem word_setWord (b : WordBitmap w n) (k j : ℕ) (v : BitVec w) :
    (b.setWord k v).word j = if j = k ∧ j < n then v else b.word j := by
  unfold word setWord
  by_cases hj : j < n
  · by_cases hk : j = k
    · subst hk
      simp [hj]
    · simp [hj, hk]
  · simp [hj]

@[simp] theorem word_fill (v : BitVec w) {k : ℕ} (h : k < n) :
    (fill v : WordBitmap w n).word k = v := by
  simp [word, fill, h]

theorem ext_word {b c : WordBitmap w n} (h : ∀ k, k < n → b.word k = c.word k) : b = c := by
  funext k
  have hk := h k k.isLt
  simpa [word] using hk

/-! ### Bits -/

theorem getLsbD_mask (i j : ℕ) (hw : 0 < w) :
    (mask w i).getLsbD j = decide (j = i % w) := by
  have hi : i % w < w := Nat.mod_lt _ hw
  unfold mask
  rw [← BitVec.twoPow_eq, BitVec.getLsbD_twoPow]
  by_cases hj : j = i % w
  · simp [hj, hi]
  · simp [hj, Ne.symm hj]

theorem test_eq_getLsbD (b : WordBitmap w n) (i : ℕ) (hw : 0 < w) :
    b.test i = (b.word (i / w)).getLsbD (i % w) := by
  have hi : i % w < w := Nat.mod_lt _ hw
  unfold test mask
  rw [← BitVec.twoPow_eq, BitVec.and_twoPow]
  by_cases hb : (b.word (i / w)).getLsbD (i % w) = true
  · have hne : BitVec.twoPow w (i % w) ≠ 0#w := by
      intro h0
      have := congrArg (fun x => x.getLsbD (i % w)) h0
      simp [hi] at this
    simp [hb, hne]
  · simp [hb]

theorem test_fill_ones {i : ℕ} (hw : 0 < w) (h : i < w * n) :
    (fill (BitVec.allOnes w) : WordBitmap w n).test i = true := by
  have hk : i / w < n := Nat.div_lt_of_lt_mul h
  rw [test_eq_getLsbD _ i hw, word_fill _ hk]
  simp [Nat.mod_lt _ hw]

/-- Two numbers are the same bit of the same word only if they are equal. -/
theorem eq_of_div_mod {i j : ℕ} (hd : i / w = j / w) (hm : i % w = j % w) : i = j := by
  rw [← Nat.div_add_mod i w, ← Nat.div_add_mod j w, hd, hm]

/-- **Setting is insertion.** -/
theorem test_set (b : WordBitmap w n) {i : ℕ} (j : ℕ) (hw : 0 < w) (hi : i < w * n) :
    (b.set i).test j = (decide (j = i) || b.test j) := by
  have hin : i / w < n := Nat.div_lt_of_lt_mul hi
  rw [test_eq_getLsbD _ j hw, test_eq_getLsbD b j hw]
  unfold set
  rw [word_setWord]
  by_cases hd : j / w = i / w
  · rw [if_pos ⟨hd, hd ▸ hin⟩, BitVec.getLsbD_or, getLsbD_mask _ _ hw, hd]
    by_cases hm : j % w = i % w
    · have hij : j = i := eq_of_div_mod hd hm
      simp [hij]
    · have hij : j ≠ i := fun h => hm (by rw [h])
      simp [hij, hm]
  · have hij : j ≠ i := fun h => hd (by rw [h])
    rw [if_neg (fun h => hd h.1)]
    simp [hij]

/-- **Clearing is removal.** -/
theorem test_clear (b : WordBitmap w n) {i : ℕ} (j : ℕ) (hw : 0 < w) (hi : i < w * n) :
    (b.clear i).test j = (!decide (j = i) && b.test j) := by
  have hin : i / w < n := Nat.div_lt_of_lt_mul hi
  have hjw : j % w < w := Nat.mod_lt _ hw
  rw [test_eq_getLsbD _ j hw, test_eq_getLsbD b j hw]
  unfold clear
  rw [word_setWord]
  by_cases hd : j / w = i / w
  · rw [if_pos ⟨hd, hd ▸ hin⟩, BitVec.getLsbD_and, BitVec.getLsbD_not, getLsbD_mask _ _ hw, hd]
    by_cases hm : j % w = i % w
    · have hij : j = i := eq_of_div_mod hd hm
      simp [hij]
    · have hij : j ≠ i := fun h => hm (by rw [h])
      simp [hij, hm, hjw]
  · have hij : j ≠ i := fun h => hd (by rw [h])
    rw [if_neg (fun h => hd h.1)]
    simp [hij]

/-- A bitmap is determined by its members. -/
theorem ext_test {b c : WordBitmap w n} (hw : 0 < w)
    (h : ∀ i, i < w * n → b.test i = c.test i) : b = c := by
  apply ext_word
  intro k hk
  apply BitVec.eq_of_getLsbD_eq
  intro j hj
  have hlt : w * k + j < w * n := by
    calc w * k + j < w * k + w := by omega
      _ = w * (k + 1) := by ring
      _ ≤ w * n := Nat.mul_le_mul_left _ hk
  have hkj := h (w * k + j) hlt
  rw [test_eq_getLsbD _ _ hw, test_eq_getLsbD _ _ hw] at hkj
  have hdiv : (w * k + j) / w = k := by
    rw [Nat.mul_add_div hw, Nat.div_eq_of_lt hj, Nat.add_zero]
  have hmod : (w * k + j) % w = j := by
    rw [Nat.mul_add_mod, Nat.mod_eq_of_lt hj]
  rwa [hdiv, hmod] at hkj

end WordBitmap
