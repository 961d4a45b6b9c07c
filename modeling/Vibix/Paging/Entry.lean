import Mathlib.Data.BitVec
import Mathlib.Tactic

/-! # Page-table entries

The entry format of `paging.rs`: the flag constants, `ADDR_MASK`, and the tests the code makes on
an entry (`entry & PAGE_PRESENT != 0` and so on).  Entries are 64-bit words and the flags are
combined with the source's own masks; the lemmas below say once, for every combination the code
builds, which address and which of the flags `PRESENT`, `USER` and `HUGE` the result has, so that
later modules never look at bits. -/

namespace Vibix.Paging

/-- `PAGE_PRESENT`. -/
def pagePresent : BitVec 64 := 1#64 <<< 0
/-- `PAGE_WRITABLE`. -/
def pageWritable : BitVec 64 := 1#64 <<< 1
/-- `PAGE_USER`. -/
def pageUser : BitVec 64 := 1#64 <<< 2
/-- `PAGE_ACCESSED`. -/
def pageAccessed : BitVec 64 := 1#64 <<< 5
/-- `PAGE_DIRTY`. -/
def pageDirty : BitVec 64 := 1#64 <<< 6
/-- `PAGE_HUGE`. -/
def pageHuge : BitVec 64 := 1#64 <<< 7
/-- `PAGE_GLOBAL`. -/
def pageGlobal : BitVec 64 := 1#64 <<< 8
/-- `PAGE_NO_EXEC`. -/
def pageNoExec : BitVec 64 := 1#64 <<< 63
/-- `PAGE_KERNEL`. -/
def pageKernel : BitVec 64 := pagePresent ||| pageWritable
/-- `PAGE_USER_RW`. -/
def pageUserRw : BitVec 64 := pagePresent ||| pageWritable ||| pageUser
/-- `ADDR_MASK`. -/
def addrMask : BitVec 64 := 0x000FFFFFFFFFF000#64

/-- `entry & PAGE_PRESENT != 0`. -/
def present (e : BitVec 64) : Bool := e &&& pagePresent != 0#64

/-- `entry & PAGE_USER != 0`. -/
def user (e : BitVec 64) : Bool := e &&& pageUser != 0#64

/-- `entry & PAGE_HUGE != 0`. -/
def huge (e : BitVec 64) : Bool := e &&& pageHuge != 0#64

/-- `entry & ADDR_MASK`, as the address of a frame. -/
def entryAddr (e : BitVec 64) : ℕ := (e &&& addrMask).toNat

/-- The entry `frame | flags`. -/
def mkEntry (frame : ℕ) (flags : BitVec 64) : BitVec 64 := BitVec.ofNat 64 frame ||| flags

/-- The flags a copied table entry keeps: `ACCESSED`, `DIRTY` and `HUGE` are dropped. -/
def tableFlags (e : BitVec 64) : BitVec 64 :=
  (e &&& (pagePresent ||| pageWritable ||| pageUser ||| pageAccessed ||| pageDirty ||| pageHuge
    ||| pageGlobal ||| pageNoExec)) &&& ~~~(pageAccessed ||| pageDirty ||| pageHuge)

/-- A copied huge entry: fresh `ACCESSED` and `DIRTY` flags. -/
def freshHuge (e : BitVec 64) : BitVec 64 := e &&& ~~~(pageAccessed ||| pageDirty)

/-! ### Bits -/

theorem and_bit_ne_zero (e : BitVec 64) {i : ℕ} (hi : i < 64) :
    (e &&& 1#64 <<< i != 0#64) = e.getLsbD i := by
  rw [← BitVec.twoPow_eq, BitVec.and_twoPow]
  by_cases hb : e.getLsbD i = true
  · have hne : BitVec.twoPow 64 i ≠ 0#64 := by
      intro h0
      have hbit := congrArg (fun x => x.getLsbD i) h0
      simp [hi] at hbit
    simp [hb, hne]
  · simp [hb]

theorem present_eq (e : BitVec 64) : present e = e.getLsbD 0 := and_bit_ne_zero e (by norm_num)

theorem user_eq (e : BitVec 64) : user e = e.getLsbD 2 := and_bit_ne_zero e (by norm_num)

theorem huge_eq (e : BitVec 64) : huge e = e.getLsbD 7 := and_bit_ne_zero e (by norm_num)

theorem getLsbD_addrMask (i : ℕ) : addrMask.getLsbD i = decide (12 ≤ i ∧ i < 52) := by
  by_cases hi : i < 64
  · have hall : ∀ k : Fin 64, addrMask.getLsbD k = decide (12 ≤ k.val ∧ k.val < 52) := by decide
    exact hall ⟨i, hi⟩
  · rw [BitVec.getLsbD_of_ge _ _ (by omega)]
    symm
    rw [decide_eq_false_iff_not]
    omega

/-- A mask keeps the bits it has. -/
theorem getLsbD_and_of_mask {e mask : BitVec 64} {i : ℕ} (h : mask.getLsbD i = true) :
    (e &&& mask).getLsbD i = e.getLsbD i := by
  rw [BitVec.getLsbD_and, h, Bool.and_true]

/-- A mask drops the bits it has not. -/
theorem getLsbD_and_of_not_mask {e mask : BitVec 64} {i : ℕ} (h : mask.getLsbD i = false) :
    (e &&& mask).getLsbD i = false := by
  rw [BitVec.getLsbD_and, h, Bool.and_false]

/-- A word is the address of a frame: page aligned and at most 52 bits. -/
def IsFrame (f : ℕ) : Prop := f % 4096 = 0 ∧ f < 2 ^ 52

theorem IsFrame.testBit {f : ℕ} (hf : IsFrame f) {i : ℕ} (hi : i < 12 ∨ 52 ≤ i) :
    f.testBit i = false := by
  rcases hi with hi | hi
  · have hdvd : f = 2 ^ 12 * (f / 4096) := by
      have := hf.1
      omega
    rw [hdvd, Nat.testBit_two_pow_mul]
    simp
    omega
  · exact Nat.testBit_lt_two_pow (hf.2.trans_le (Nat.pow_le_pow_right (by norm_num) hi))

theorem frame_and_addrMask {f : ℕ} (hf : IsFrame f) :
    BitVec.ofNat 64 f &&& addrMask = BitVec.ofNat 64 f := by
  apply BitVec.eq_of_getLsbD_eq
  intro i hi
  rw [BitVec.getLsbD_and, getLsbD_addrMask, BitVec.getLsbD_ofNat]
  by_cases hin : 12 ≤ i ∧ i < 52
  · simp [hin]
  · rw [hf.testBit (by omega)]
    simp

theorem toNat_frame {f : ℕ} (hf : IsFrame f) : (BitVec.ofNat 64 f).toNat = f := by
  rw [BitVec.toNat_ofNat]
  exact Nat.mod_eq_of_lt (hf.2.trans (by norm_num))

theorem isFrame_entryAddr (e : BitVec 64) : IsFrame (entryAddr e) := by
  refine ⟨?_, ?_⟩
  · have hlow : ∀ i, i < 12 → (entryAddr e).testBit i = false := by
      intro i hi
      rw [entryAddr, BitVec.testBit_toNat, BitVec.getLsbD_and, getLsbD_addrMask]
      simp
      omega
    rw [show 4096 = 2 ^ 12 by norm_num]
    apply Nat.eq_of_testBit_eq
    intro i
    rw [Nat.testBit_mod_two_pow]
    by_cases hi : i < 12
    · simp [hi, hlow i hi]
    · simp [hi]
  · apply Nat.lt_pow_two_of_testBit
    intro i hi
    rw [entryAddr, BitVec.testBit_toNat, BitVec.getLsbD_and, getLsbD_addrMask]
    simp
    omega

/-! ### Built entries -/

/-- Flags leave the address bits alone. -/
def NoAddr (flags : BitVec 64) : Prop := flags &&& addrMask = 0#64

section MkEntry

variable {f : ℕ} {flags e : BitVec 64}

theorem entryAddr_mkEntry (hf : IsFrame f) (hfl : NoAddr flags) :
    entryAddr (mkEntry f flags) = f := by
  rw [entryAddr, mkEntry, BitVec.and_comm, BitVec.and_or_distrib_left, BitVec.and_comm,
    frame_and_addrMask hf, BitVec.and_comm, hfl, BitVec.or_zero, toNat_frame hf]

theorem getLsbD_mkEntry_low (hf : IsFrame f) {i : ℕ} (hi : i < 12) :
    (mkEntry f flags).getLsbD i = flags.getLsbD i := by
  rw [mkEntry, BitVec.getLsbD_or, BitVec.getLsbD_ofNat, hf.testBit (Or.inl hi)]
  simp

theorem present_mkEntry (hf : IsFrame f) : present (mkEntry f flags) = present flags := by
  rw [present_eq, present_eq, getLsbD_mkEntry_low hf (by norm_num)]

theorem user_mkEntry (hf : IsFrame f) : user (mkEntry f flags) = user flags := by
  rw [user_eq, user_eq, getLsbD_mkEntry_low hf (by norm_num)]

theorem huge_mkEntry (hf : IsFrame f) : huge (mkEntry f flags) = huge flags := by
  rw [huge_eq, huge_eq, getLsbD_mkEntry_low hf (by norm_num)]

/-! ### The flags of copied entries -/

/-- The two masks of the source as one. -/
theorem tableFlags_eq (e : BitVec 64) : tableFlags e = e &&& 0x8000000000000107#64 := by
  rw [tableFlags, BitVec.and_assoc]
  exact congrArg (e &&& ·) (by decide)

theorem noAddr_and {mask : BitVec 64} (h : NoAddr mask) (e : BitVec 64) : NoAddr (e &&& mask) := by
  rw [NoAddr, BitVec.and_assoc, h, BitVec.and_zero]

theorem noAddr_tableFlags (e : BitVec 64) : NoAddr (tableFlags e) := by
  rw [tableFlags_eq]
  exact noAddr_and (by unfold NoAddr; decide) e

theorem present_tableFlags (e : BitVec 64) : present (tableFlags e) = present e := by
  rw [tableFlags_eq, present_eq, present_eq, getLsbD_and_of_mask (by decide)]

theorem user_tableFlags (e : BitVec 64) : user (tableFlags e) = user e := by
  rw [tableFlags_eq, user_eq, user_eq, getLsbD_and_of_mask (by decide)]

theorem huge_tableFlags (e : BitVec 64) : huge (tableFlags e) = false := by
  rw [tableFlags_eq, huge_eq, getLsbD_and_of_not_mask (by decide)]

theorem noAddr_compl (e : BitVec 64) : NoAddr (e &&& ~~~addrMask) :=
  noAddr_and (by unfold NoAddr; decide) e

theorem present_compl (e : BitVec 64) : present (e &&& ~~~addrMask) = present e := by
  rw [present_eq, present_eq, getLsbD_and_of_mask (by decide)]

theorem user_compl (e : BitVec 64) : user (e &&& ~~~addrMask) = user e := by
  rw [user_eq, user_eq, getLsbD_and_of_mask (by decide)]

theorem huge_compl (e : BitVec 64) : huge (e &&& ~~~addrMask) = huge e := by
  rw [huge_eq, huge_eq, getLsbD_and_of_mask (by decide)]

theorem freshHuge_eq (e : BitVec 64) : freshHuge e = e &&& 0xFFFFFFFFFFFFFF9F#64 := by
  rw [freshHuge]
  exact congrArg (e &&& ·) (by decide)

theorem present_freshHuge (e : BitVec 64) : present (freshHuge e) = present e := by
  rw [freshHuge_eq, present_eq, present_eq, getLsbD_and_of_mask (by decide)]

theorem huge_freshHuge (e : BitVec 64) : huge (freshHuge e) = huge e := by
  rw [freshHuge_eq, huge_eq, huge_eq, getLsbD_and_of_mask (by decide)]

theorem entryAddr_freshHuge (e : BitVec 64) : entryAddr (freshHuge e) = entryAddr e := by
  rw [freshHuge_eq, entryAddr, entryAddr, BitVec.and_assoc]
  exact congrArg (fun m => (e &&& m).toNat) (by decide)

/-! ### Setting the user bit -/

theorem present_or_user (e : BitVec 64) : present (e ||| pageUser) = present e := by
  rw [present_eq, present_eq, BitVec.getLsbD_or, show pageUser.getLsbD 0 = false by decide,
    Bool.or_false]

theorem huge_or_user (e : BitVec 64) : huge (e ||| pageUser) = huge e := by
  rw [huge_eq, huge_eq, BitVec.getLsbD_or, show pageUser.getLsbD 7 = false by decide,
    Bool.or_false]

theorem user_or_user (e : BitVec 64) : user (e ||| pageUser) = true := by
  rw [user_eq, BitVec.getLsbD_or, show pageUser.getLsbD 2 = true by decide, Bool.or_true]

theorem entryAddr_or_user (e : BitVec 64) : entryAddr (e ||| pageUser) = entryAddr e := by
  rw [entryAddr, entryAddr, BitVec.and_comm, BitVec.and_or_distrib_left,
    show addrMask &&& pageUser = 0#64 by decide, BitVec.or_zero, BitVec.and_comm]

/-! ### Constants -/

@[simp] theorem present_zero : present 0#64 = false := by decide
@[simp] theorem user_zero : user 0#64 = false := by decide
@[simp] theorem present_pageKernel : present pageKernel = true := by decide
@[simp] theorem huge_pageKernel : huge pageKernel = false := by decide
@[simp] theorem user_pageKernel : user pageKernel = false := by decide
@[simp] theorem present_pageUserRw : present pageUserRw = true := by decide
@[simp] theorem huge_pageUserRw : huge pageUserRw = false := by decide
@[simp] theorem user_pageUserRw : user pageUserRw = true := by decide

theorem noAddr_pageKernel : NoAddr pageKernel := by
  unfold NoAddr
  decide

theorem noAddr_pageUserRw : NoAddr pageUserRw := by
  unfold NoAddr
  decide

end MkEntry

end Vibix.Paging
