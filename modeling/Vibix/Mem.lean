import Mathlib.Data.BitVec
import Mathlib.Tactic

/-! # Physical memory

Memory is a function from frame addresses to the 512 64-bit words of the frame.  A page table is
then literally a frame read as an array, and writes to different frames are independent without
any address arithmetic.  The kernel's other accesses go through `readWord` and `writeWord`,
which split an address into its frame and its word; bytes are slices of words.  Word accesses
are made at addresses divisible by 8.  `readWord_writeWord` and `readByte_writeByte` say how reads
and writes meet.

The kernel reaches page-table frames through its identity map, so the model accesses them by their
physical address; only accesses through other virtual addresses are translated. -/

namespace Vibix

instance neZero512 : NeZero 512 := ⟨by decide⟩

/-- Physical memory: the words of each frame, by frame address. -/
abbrev PhysMem := ℕ → Fin 512 → BitVec 64

namespace PhysMem

/-- The address of the frame that contains `a`. -/
def frameOf (a : ℕ) : ℕ := a / 4096 * 4096

/-- The word of its frame that contains `a`. -/
def slotOf (a : ℕ) : Fin 512 := ⟨a % 4096 / 8, by omega⟩

/-- The 64-bit word at `a`. -/
def readWord (m : PhysMem) (a : ℕ) : BitVec 64 := m (frameOf a) (slotOf a)

/-- Overwrite word `i` of the frame `f`. -/
def setSlot (m : PhysMem) (f : ℕ) (i : Fin 512) (v : BitVec 64) : PhysMem :=
  fun g j => if g = f ∧ j = i then v else m g j

/-- Overwrite the 64-bit word at `a`. -/
def writeWord (m : PhysMem) (a : ℕ) (v : BitVec 64) : PhysMem :=
  m.setSlot (frameOf a) (slotOf a) v

/-- Overwrite a whole frame. -/
def setFrame (m : PhysMem) (f : ℕ) (w : Fin 512 → BitVec 64) : PhysMem :=
  fun g => if g = f then w else m g

@[simp] theorem setFrame_same (m : PhysMem) (f : ℕ) (w : Fin 512 → BitVec 64) :
    m.setFrame f w f = w := by
  simp [setFrame]

theorem setFrame_ne (m : PhysMem) {f g : ℕ} (h : g ≠ f) (w : Fin 512 → BitVec 64) :
    m.setFrame f w g = m g := by
  simp [setFrame, h]

theorem setSlot_apply (m : PhysMem) (f g : ℕ) (i j : Fin 512) (v : BitVec 64) :
    m.setSlot f i v g j = if g = f ∧ j = i then v else m g j := rfl

@[simp] theorem setSlot_same (m : PhysMem) (f : ℕ) (i : Fin 512) (v : BitVec 64) :
    m.setSlot f i v f i = v := by
  simp [setSlot]

theorem setSlot_frame_ne (m : PhysMem) {f g : ℕ} (h : g ≠ f) (i : Fin 512) (v : BitVec 64) :
    m.setSlot f i v g = m g := by
  funext j
  simp [setSlot, h]

/-- Two addresses lie in the same word. -/
theorem same_word_iff {a b : ℕ} : (frameOf b = frameOf a ∧ slotOf b = slotOf a) ↔ a / 8 = b / 8 := by
  simp only [frameOf, slotOf, Fin.mk.injEq]
  omega

/-- **Reading after a write.** -/
theorem readWord_writeWord (m : PhysMem) (a b : ℕ) (v : BitVec 64) :
    (m.writeWord a v).readWord b = if a / 8 = b / 8 then v else m.readWord b := by
  simp only [readWord, writeWord, setSlot, same_word_iff]

/-! ### Bytes -/

/-- The byte at `a`. -/
def readByte (m : PhysMem) (a : ℕ) : BitVec 8 := (m.readWord a).extractLsb' (8 * (a % 8)) 8

/-- Replace byte `k` of a word. -/
def setByte (w : BitVec 64) (k : ℕ) (b : BitVec 8) : BitVec 64 :=
  (w &&& ~~~((BitVec.allOnes 8).setWidth 64 <<< (8 * k))) ||| (b.setWidth 64 <<< (8 * k))

/-- Overwrite the byte at `a`. -/
def writeByte (m : PhysMem) (a : ℕ) (b : BitVec 8) : PhysMem :=
  m.writeWord a (setByte (m.readWord a) (a % 8) b)

theorem writeByte_frame_ne (m : PhysMem) {a f : ℕ} (h : f ≠ frameOf a) (b : BitVec 8) :
    m.writeByte a b f = m f :=
  setSlot_frame_ne m h _ _

theorem readByte_congr {m m' : PhysMem} {a : ℕ} (h : m' (frameOf a) = m (frameOf a)) :
    m'.readByte a = m.readByte a := by
  unfold readByte readWord
  rw [h]

theorem readByte_zero {m : PhysMem} {a : ℕ} (h : m (frameOf a) = fun _ => 0#64) :
    m.readByte a = 0#8 := by
  unfold readByte readWord
  rw [h]
  exact BitVec.extractLsb'_zero

theorem frameOf_add {f k : ℕ} (hf : f % 4096 = 0) (hk : k < 4096) : frameOf (f + k) = f := by
  unfold frameOf
  omega

/-- Reading a byte of a word one of whose bytes was replaced. -/
theorem extract_setByte (w : BitVec 64) {k l : ℕ} (hk : k < 8) (hl : l < 8) (b : BitVec 8) :
    (setByte w k b).extractLsb' (8 * l) 8 = if k = l then b else w.extractLsb' (8 * l) 8 := by
  ext i hi
  rw [apply_ite (fun v : BitVec 8 => v[i])]
  simp only [setByte, BitVec.getElem_extractLsb', BitVec.getLsbD_or, BitVec.getLsbD_and,
    BitVec.getLsbD_not, BitVec.getLsbD_shiftLeft, BitVec.getLsbD_setWidth,
    BitVec.getLsbD_allOnes]
  split_ifs with h
  · subst h
    have hlt : 8 * k + i < 64 := by omega
    have hi' : i < 64 := by omega
    simp [hlt, hi', hi]
  · have hlt : 8 * l + i < 64 := by omega
    by_cases hkl : k < l
    · have h1 : ¬ 8 * l + i - 8 * k < 8 := by omega
      have h2 : b.getLsbD (8 * l + i - 8 * k) = false := BitVec.getLsbD_of_ge _ _ (by omega)
      simp [hlt, h1, h2]
    · have h1 : 8 * l + i < 8 * k := by omega
      simp [hlt, h1]

/-- **Reading a byte after a byte was written.** -/
theorem readByte_writeByte (m : PhysMem) (a c : ℕ) (b : BitVec 8) :
    (m.writeByte a b).readByte c = if a = c then b else m.readByte c := by
  unfold readByte writeByte
  rw [readWord_writeWord]
  by_cases h : a / 8 = c / 8
  · have hw : m.readWord c = m.readWord a := by
      unfold readWord
      rw [(same_word_iff.mpr h).1, (same_word_iff.mpr h).2]
    have hac : (a % 8 = c % 8) = (a = c) := by apply propext; omega
    simp only [h, if_true, hw]
    rw [extract_setByte _ (Nat.mod_lt _ (by norm_num)) (Nat.mod_lt _ (by norm_num))]
    simp only [hac]
  · have hac : a ≠ c := fun heq => h (by rw [heq])
    rw [if_neg h, if_neg hac]

end PhysMem

end Vibix
