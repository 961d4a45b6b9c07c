import Vibix.Vfs.Initramfs

/-! # The bounds of the archive

`initramfs_init` goes from header to header by the sizes that they have, and checks of each that the
header is in the archive, not that the data is.

Whatever the bytes of the archive are, both passes come to an end and no offset of theirs wraps around
(`Archive.terminates`).  An entry that another one follows is in the archive, because the header of the
other one is (`fillEntries_spec`), so that every entry is in the archive if the last one is
(`fits_of_last`). -/

namespace Vibix.Vfs

/-! ### The passes -/

section Passes

variable {ar : Archive} {off count fuel n : ℕ} {entries : List InitramfsEntry}

theorem parseOctal_lt {val : ℕ} (bytes : Bytes) (hval : (val + 1) * 8 ^ bytes.length ≤ 2 ^ 64) :
    parseOctal val bytes < (val + 1) * 8 ^ bytes.length := by
  induction bytes generalizing val with
  | nil => simp [parseOctal]
  | cons b bytes ih =>
    have hpow : 0 < 8 ^ bytes.length := by positivity
    have hsplit : (val + 1) * 8 ^ (b :: bytes).length = ((val + 1) * 8) * 8 ^ bytes.length := by
      rw [List.length_cons, pow_succ]
      ring
    rw [hsplit] at hval ⊢
    have hmono : ∀ v, v + 1 ≤ (val + 1) * 8 →
        (v + 1) * 8 ^ bytes.length ≤ (val + 1) * 8 * 8 ^ bytes.length :=
      fun v hv => Nat.mul_le_mul_right _ hv
    rw [parseOctal]
    split_ifs with hdigit hend
    · have hle := hmono (val * 8 + (b.toNat - 0x30)) (by omega)
      have hself := Nat.le_mul_of_pos_right (val * 8 + (b.toNat - 0x30) + 1) hpow
      rw [Nat.mod_eq_of_lt (by omega)]
      exact (ih (hle.trans hval)).trans_le hle
    · have hself := Nat.le_mul_of_pos_right (val + 1) hpow
      have hle := hmono val (by omega)
      omega
    · exact (ih ((hmono val (by omega)).trans hval)).trans_le (hmono val (by omega))

theorem add_le_next : off + ustarBlockSize ≤ ar.next off := by
  unfold Archive.next
  split_ifs
  · exact Nat.le_add_right _ _
  · exact le_rfl

/-- The data of an entry is before the next header. -/
theorem size_le_next : off + ustarBlockSize + ar.headerSize off ≤ ar.next off := by
  unfold Archive.next ustarBlockSize
  split_ifs with hpos
  · omega
  · omega

theorem two_blocks_le_next (hpos : 0 < ar.headerSize off) :
    off + ustarBlockSize + ustarBlockSize ≤ ar.next off := by
  unfold Archive.next ustarBlockSize
  rw [if_pos hpos]
  omega

/-- A header cannot have a size of 64 GiB. -/
theorem headerSize_lt (ar : Archive) (off : ℕ) : ar.headerSize off < 2 ^ 36 := by
  have hlen : (ar.bytes off 124 12).length = 12 := by simp [Archive.bytes]
  have hlt := @parseOctal_lt 0 (ar.bytes off 124 12) (by rw [hlen]; norm_num)
  rw [hlen] at hlt
  exact hlt.trans_eq (by norm_num)

/-- **No offset wraps around.** -/
theorem next_le (ar : Archive) (off : ℕ) : ar.next off ≤ off + 2 ^ 36 + 2 * ustarBlockSize := by
  have hsize := headerSize_lt ar off
  unfold Archive.next ustarBlockSize
  split_ifs with hpos
  · omega
  · omega

/-- The first pass ends when its rounds have gone through the archive. -/
theorem countEntries_more (hfuel : ar.len < off + ustarBlockSize * fuel) (n : ℕ) :
    ar.countEntries (fuel + n) off count = ar.countEntries fuel off count := by
  induction fuel generalizing off count with
  | zero =>
    cases n with
    | zero => rfl
    | succ n =>
      rw [Nat.zero_add]
      exact if_pos (by omega)
  | succ fuel ih =>
    have hnext := @add_le_next ar off
    rw [Nat.mul_succ] at hfuel
    have hblock := @ih (off + ustarBlockSize) count (by omega)
    have hentry := @ih (ar.next off) (count + 1) (by omega)
    rw [Nat.succ_add_eq_add_succ, Nat.add_succ, Archive.countEntries, Archive.countEntries, hblock,
      hentry]

/-- The second pass ends when its rounds have gone through the archive. -/
theorem fillEntries_more (hfuel : ar.len < off + ustarBlockSize * fuel) (n : ℕ) :
    ar.fillEntries count (fuel + n) off entries = ar.fillEntries count fuel off entries := by
  induction fuel generalizing off entries with
  | zero =>
    cases n with
    | zero => rfl
    | succ n =>
      rw [Nat.zero_add]
      exact if_pos (.inl (by omega))
  | succ fuel ih =>
    have hnext := @add_le_next ar off
    rw [Nat.mul_succ] at hfuel
    have hblock := @ih (off + ustarBlockSize) entries (by omega)
    have hentry := fun e => @ih (ar.next off) (entries ++ [e]) (by omega)
    rw [Nat.succ_add_eq_add_succ, Nat.add_succ, Archive.fillEntries, Archive.fillEntries, hblock,
      hentry]

/-- The entry of the header at offset `off`. -/
def Archive.headerEntry (ar : Archive) (off : ℕ) : InitramfsEntry :=
  ⟨ar.data + off, ar.data + off + ustarBlockSize, ar.headerSize off, ar.headerTypeflag off⟩

/-- **The second pass**: every entry has its header in the archive, and every entry but the last has
the header of another one behind it. -/
theorem fillEntries_spec (ar : Archive) (count fuel off : ℕ) (entries : List InitramfsEntry) :
    ∃ new, ar.fillEntries count fuel off entries = entries ++ new ∧
      (∀ entry ∈ new, ∃ o, entry = ar.headerEntry o ∧ off ≤ o ∧ o + ustarBlockSize ≤ ar.len) ∧
      (∀ entry ∈ new.dropLast, ∃ o, entry = ar.headerEntry o ∧ ar.next o ≤ ar.len) := by
  induction fuel generalizing off entries with
  | zero => exact ⟨[], (List.append_nil _).symm, by simp, by simp⟩
  | succ fuel ih =>
    have hdone : ∃ new, entries = entries ++ new ∧
        (∀ entry ∈ new, ∃ o, entry = ar.headerEntry o ∧ off ≤ o ∧ o + ustarBlockSize ≤ ar.len) ∧
        (∀ entry ∈ new.dropLast, ∃ o, entry = ar.headerEntry o ∧ ar.next o ≤ ar.len) :=
      ⟨[], (List.append_nil _).symm, by simp, by simp⟩
    rw [Archive.fillEntries]
    split_ifs with hend hzero hvalid
    · exact hdone
    · exact hdone
    · obtain ⟨new, hnew, hall, hfollowed⟩ := ih (off + ustarBlockSize) entries
      refine ⟨new, hnew, fun entry hentry => ?_, hfollowed⟩
      obtain ⟨o, heq, hoff, hlen⟩ := hall entry hentry
      exact ⟨o, heq, by omega, hlen⟩
    · obtain ⟨new, hnew, hall, hfollowed⟩ := ih (ar.next off) (entries ++ [ar.headerEntry off])
      have hnext := @add_le_next ar off
      refine ⟨ar.headerEntry off :: new, by rw [← List.append_cons] at hnew; exact hnew, ?_, ?_⟩
      · intro entry hentry
        rcases List.mem_cons.mp hentry with rfl | hentry
        · exact ⟨off, rfl, le_rfl, by omega⟩
        · obtain ⟨o, heq, hoff, hlen⟩ := hall entry hentry
          exact ⟨o, heq, by omega, hlen⟩
      · -- the entry at `off` is not the last one if there is a new one after it
        cases new with
        | nil => simp
        | cons entry' new =>
          obtain ⟨o, -, hoff, hlen⟩ := hall entry' List.mem_cons_self
          intro entry hentry
          rw [List.dropLast_cons_cons] at hentry
          rcases List.mem_cons.mp hentry with rfl | hentry
          · exact ⟨off, rfl, by omega⟩
          · exact hfollowed entry hentry

/-- The table is made of headers. -/
theorem initramfsInit_spec (ar : Archive) (kmalloc : Bool) :
    (∀ entry ∈ ar.initramfsInit kmalloc, ∃ o, entry = ar.headerEntry o) ∧
      (∀ entry ∈ (ar.initramfsInit kmalloc).dropLast,
        ∃ o, entry = ar.headerEntry o ∧ ar.next o ≤ ar.len) := by
  unfold Archive.initramfsInit
  dsimp only
  split_ifs
  · exact ⟨nofun, nofun⟩
  · exact ⟨nofun, nofun⟩
  · exact ⟨nofun, nofun⟩
  · obtain ⟨new, hnew, hall, hfollowed⟩ := fillEntries_spec ar
      (ar.countEntries (ar.len / ustarBlockSize + 1) 0 0) (ar.len / ustarBlockSize + 1) 0 []
    rw [List.nil_append] at hnew
    rw [hnew]
    refine ⟨fun entry hentry => ?_, hfollowed⟩
    obtain ⟨o, heq, -⟩ := hall entry hentry
    exact ⟨o, heq⟩

end Passes

/-! ### The archive -/

/-- The addresses of the archive. -/
def Archive.addresses (ar : Archive) : Set ℕ := {a | ar.data ≤ a ∧ a < ar.data + ar.len}

/-- Both passes come to an end by themselves: rounds beyond those of the model change nothing, and the
offset does not go on by more than the largest size. -/
def Archive.Terminates (ar : Archive) : Prop :=
  (∀ n, ar.countEntries (ar.len / ustarBlockSize + 1 + n) 0 0 =
    ar.countEntries (ar.len / ustarBlockSize + 1) 0 0) ∧
  (∀ count n, ar.fillEntries count (ar.len / ustarBlockSize + 1 + n) 0 [] =
    ar.fillEntries count (ar.len / ustarBlockSize + 1) 0 []) ∧
  ∀ off, ar.next off ≤ off + 2 ^ 36 + 2 * ustarBlockSize

theorem Archive.terminates (ar : Archive) : ar.Terminates := by
  have hfuel : ar.len < 0 + ustarBlockSize * (ar.len / ustarBlockSize + 1) := by
    unfold ustarBlockSize
    omega
  exact ⟨countEntries_more hfuel, fun count => fillEntries_more hfuel, next_le ar⟩

/-- The contents of an entry are in the archive, and four bytes if it has contents. -/
def Archive.Fits (ar : Archive) (entry : InitramfsEntry) : Prop :=
  entry.data + entry.size ≤ ar.data + ar.len ∧
    (0 < entry.size → entry.data + 4 ≤ ar.data + ar.len)

/-- Every entry is in the archive if the last one is. -/
theorem fits_of_last {ar : Archive} {kmalloc : Bool}
    (hlast : ∀ entry ∈ (ar.initramfsInit kmalloc).getLast?, ar.Fits entry) :
    ∀ entry ∈ ar.initramfsInit kmalloc, ar.Fits entry := by
  intro entry hmem
  obtain ⟨-, hfollowed⟩ := initramfsInit_spec ar kmalloc
  rcases List.eq_nil_or_concat (ar.initramfsInit kmalloc) with hnil | ⟨before, last, htable⟩
  · rw [hnil] at hmem
    cases hmem
  rw [List.concat_eq_append] at htable
  rw [htable] at hmem hlast hfollowed
  rw [List.dropLast_concat] at hfollowed
  rw [List.getLast?_concat] at hlast
  rcases List.mem_append.mp hmem with hmem | hmem
  · obtain ⟨o, rfl, hnext⟩ := hfollowed entry hmem
    have hsize := @size_le_next ar o
    refine ⟨?_, fun hpos => ?_⟩
    · simp only [Archive.headerEntry]
      omega
    · have hblock := two_blocks_le_next hpos
      simp only [Archive.headerEntry]
      unfold ustarBlockSize at *
      omega
  · exact hlast entry (by rw [List.mem_singleton.mp hmem]; rfl)

end Vibix.Vfs
