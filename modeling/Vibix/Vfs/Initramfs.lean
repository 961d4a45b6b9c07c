import Vibix.Lib.Digits
import Mathlib.Data.List.Nodup

/-! # The initramfs

`vfs/initramfs.rs`: the archive of the kernel is parsed once, in two passes over its headers, into a
table of entries; a path is looked up by comparing it with the names, which stay in the archive and
are taken to end at a NUL byte.

`ustarEncode` is the format the archive should have.  `Layout` describes an archive in memory, entry
by entry; both passes walk along it (`countEntries_layout`, `fillEntries_layout`), and so the table
has one entry for each file, in order (`initramfsInit_encoded`).  A lookup then finds a file by its
name unless the name fills its field and is followed by something else than NUL
(`initramfs_finds_iff`). -/

namespace Vibix.Vfs

/-- A string of bytes. -/
abbrev Bytes := List (BitVec 8)

/-- `USTAR_MAGIC`. -/
def ustarMagic : Bytes := [0x75, 0x73, 0x74, 0x61, 0x72, 0x00]
/-- `USTAR_BLOCK_SIZE`. -/
def ustarBlockSize : ℕ := 512
/-- `MAX_INITRAMFS_ENTRIES`. -/
def maxInitramfsEntries : ℕ := 128

/-- `InitramfsEntry`: the addresses of the name and of the data, the size and the type. -/
structure InitramfsEntry where
  name : ℕ
  data : ℕ
  size : ℕ
  entryType : BitVec 8
deriving DecidableEq

/-- The archive: the memory it is in, its address and its length. -/
structure Archive where
  mem : ℕ → BitVec 8
  data : ℕ
  len : ℕ

/-- `parse_octal`: blanks and NULs end the number, other characters are skipped. -/
def parseOctal : ℕ → Bytes → ℕ
  | val, [] => val
  | val, b :: bytes =>
    if 0x30 ≤ b.toNat ∧ b.toNat ≤ 0x37 then
      parseOctal ((val * 8 + (b.toNat - 0x30)) % 2 ^ 64) bytes
    else if b = 0 ∨ b = 0x20 then val
    else parseOctal val bytes

namespace Archive

variable (ar : Archive)

/-- Byte `i` of the block at offset `off`. -/
def byte (off i : ℕ) : BitVec 8 := ar.mem (ar.data + off + i)

/-- The bytes from `i` on of the block at offset `off`. -/
def bytes (off i n : ℕ) : Bytes := (List.range n).map fun k => ar.byte off (i + k)

/-- `is_valid_header`. -/
def isValidHeader (off : ℕ) : Bool := ar.bytes off 257 6 = ustarMagic

/-- `is_zero_block`. -/
def isZeroBlock (off : ℕ) : Bool := (List.range 512).all fun i => ar.byte off i = 0

/-- `header_size`. -/
def headerSize (off : ℕ) : ℕ := parseOctal 0 (ar.bytes off 124 12)

/-- `header_typeflag`. -/
def headerTypeflag (off : ℕ) : BitVec 8 := ar.byte off 156

/-- The offset after an entry: its header and its data, rounded up to blocks. -/
def next (off : ℕ) : ℕ :=
  if 0 < ar.headerSize off then
    off + ustarBlockSize + (ar.headerSize off + ustarBlockSize - 1) / ustarBlockSize * ustarBlockSize
  else off + ustarBlockSize

/-- The first pass: the number of entries from `off` on, at most `fuel` blocks ahead. -/
def countEntries : ℕ → ℕ → ℕ → ℕ
  | 0, _, count => count
  | fuel + 1, off, count =>
    if ar.len < off + ustarBlockSize then count
    else if ar.isZeroBlock off then count
    else if !ar.isValidHeader off then countEntries fuel (off + ustarBlockSize) count
    else if maxInitramfsEntries ≤ count + 1 then count + 1
    else countEntries fuel (ar.next off) (count + 1)

/-- The second pass: the entries from `off` on, added to those already there. -/
def fillEntries (count : ℕ) : ℕ → ℕ → List InitramfsEntry → List InitramfsEntry
  | 0, _, entries => entries
  | fuel + 1, off, entries =>
    if ar.len < off + ustarBlockSize ∨ count ≤ entries.length then entries
    else if ar.isZeroBlock off then entries
    else if !ar.isValidHeader off then fillEntries count fuel (off + ustarBlockSize) entries
    else
      fillEntries count fuel (ar.next off) (entries ++ [⟨ar.data + off,
        ar.data + off + ustarBlockSize, ar.headerSize off, ar.headerTypeflag off⟩])

/-- `initramfs_init`: the table, empty if there is no archive or no memory for it. -/
def initramfsInit (kmalloc : Bool) : List InitramfsEntry :=
  -- every round of the two loops goes at least one block ahead
  let fuel := ar.len / ustarBlockSize + 1
  if ar.data = 0 ∨ ar.len < ustarBlockSize then []
  else
    let count := ar.countEntries fuel 0 0
    if count = 0 then []
    else if !kmalloc then []
    else ar.fillEntries count fuel 0 []

end Archive

/-- The comparison of a path with the name at an address. -/
def nameMatches (mem : ℕ → BitVec 8) : ℕ → Bytes → Bool
  | name, [] => mem name = 0
  | name, b :: path =>
    if mem name = 0 then false
    else if mem name ≠ b then false
    else nameMatches mem (name + 1) path

/-- `initramfs_find`. -/
def initramfsFind (mem : ℕ → BitVec 8) (entries : List InitramfsEntry) (path : Bytes) :
    Option (ℕ × ℕ × BitVec 8) :=
  (entries.find? fun entry => entry.name ≠ 0 && nameMatches mem entry.name path).map
    fun entry => (entry.data, entry.size, entry.entryType)

/-! ### The format -/

/-- A file of an archive.  `other` are the bytes of its header that the format leaves open. -/
structure UstarFile where
  name : Bytes
  typeflag : BitVec 8
  sizeEnd : BitVec 8
  other : ℕ → BitVec 8
  data : Bytes

namespace UstarFile

variable (file : UstarFile)

/-- The size in eleven octal digits. -/
def sizeDigits : Bytes := (Digits.digits 8 11 file.data.length).map fun d => BitVec.ofNat 8 (0x30 + d)

/-- The header: name, size, type and magic. -/
def header (i : ℕ) : BitVec 8 :=
  if i < 100 then file.name.getD i 0
  else if 124 ≤ i ∧ i < 135 then file.sizeDigits.getD (i - 124) 0
  else if i = 135 then file.sizeEnd
  else if i = 156 then file.typeflag
  else if 257 ≤ i ∧ i < 263 then ustarMagic.getD (i - 257) 0
  else file.other i

/-- The number of bytes that the data takes up. -/
def padded : ℕ := (file.data.length + 511) / 512 * 512

/-- The bytes of an entry. -/
def encode : Bytes :=
  (List.range 512).map file.header ++ file.data ++
    List.replicate (file.padded - file.data.length) 0

/-- Names of 1 to 100 bytes without NUL, contents below 8 GiB. -/
structure WellFormed : Prop where
  name_pos : file.name ≠ []
  name_le : file.name.length ≤ 100
  name_nul : ∀ b ∈ file.name, b ≠ 0
  size_lt : file.data.length < 2 ^ 33
  sizeEnd : file.sizeEnd = 0 ∨ file.sizeEnd = 0x20

end UstarFile

/-- The ustar encoding of a list of files: the entries, and then blocks of zeros. -/
def ustarEncode (files : List UstarFile) (zeros : ℕ) : Bytes :=
  files.flatMap UstarFile.encode ++ List.replicate (512 * (zeros + 1)) 0

/-- The archive in memory holds the given bytes. -/
def Archive.HoldsBytes (ar : Archive) (bytes : Bytes) : Prop :=
  ar.len = bytes.length ∧ ∀ i, (h : i < bytes.length) → ar.mem (ar.data + i) = bytes[i]

/-! ### An archive in memory -/

/-- From offset `off` on the archive holds the entries of the given files, and then a block of
zeros. -/
def Archive.Layout (ar : Archive) : ℕ → List UstarFile → Prop
  | off, [] => off + 512 ≤ ar.len ∧ ∀ i < 512, ar.byte off i = 0
  | off, file :: files => (∀ i < 512, ar.byte off i = file.header i) ∧
      (∀ i, (h : i < file.data.length) → ar.mem (ar.data + off + 512 + i) = file.data[i]) ∧
      ar.Layout (off + 512 + file.padded) files

section Layout

variable {ar : Archive} {file : UstarFile} {files : List UstarFile} {off zeros : ℕ}

theorem UstarFile.le_padded : file.data.length ≤ file.padded := by
  unfold UstarFile.padded
  omega

@[simp] theorem UstarFile.length_encode : file.encode.length = 512 + file.padded := by
  have hle := file.le_padded
  simp only [UstarFile.encode, List.length_append, List.length_map, List.length_range,
    List.length_replicate]
  omega

theorem getElem?_encode_header {i : ℕ} (h : i < 512) : file.encode[i]? = some (file.header i) := by
  rw [UstarFile.encode, List.append_assoc, List.getElem?_append_left (by simpa using h)]
  simp [h]

theorem getElem?_encode_data {i : ℕ} (h : i < file.data.length) :
    file.encode[512 + i]? = file.data[i]? := by
  rw [UstarFile.encode, List.append_assoc, List.getElem?_append_right (by simp)]
  rw [List.length_map, List.length_range, Nat.add_sub_cancel_left, List.getElem?_append_left h]

/-- An encoded archive, from any entry on. -/
theorem layout_of_bytes (pre : Bytes)
    (hlen : ar.len = (pre ++ ustarEncode files zeros).length)
    (hmem : ∀ i b, (ustarEncode files zeros)[i]? = some b → ar.mem (ar.data + pre.length + i) = b) :
    ar.Layout pre.length files := by
  induction files generalizing pre with
  | nil =>
    refine ⟨?_, fun i hi => hmem i 0 ?_⟩
    · rw [hlen]
      simp only [ustarEncode, List.flatMap_nil, List.nil_append, List.length_append,
        List.length_replicate]
      omega
    · simp only [ustarEncode, List.flatMap_nil, List.nil_append, List.getElem?_replicate]
      rw [if_pos (by omega)]
  | cons file files ih =>
    have hsplit : ustarEncode (file :: files) zeros = file.encode ++ ustarEncode files zeros := by
      simp [ustarEncode]
    rw [hsplit] at hmem hlen
    have hhead : ∀ i b, file.encode[i]? = some b → ar.mem (ar.data + pre.length + i) = b := by
      intro i b hb
      refine hmem i b ?_
      rw [List.getElem?_append_left (List.getElem?_eq_some_iff.mp hb).1, hb]
    refine ⟨fun i hi => hhead i _ (getElem?_encode_header hi), fun i hi => ?_, ?_⟩
    · rw [Nat.add_assoc (ar.data + pre.length)]
      refine hhead (512 + i) _ ?_
      rw [getElem?_encode_data hi, List.getElem?_eq_getElem hi]
    · have hnext := ih (pre ++ file.encode) (by rw [hlen, List.append_assoc]) fun i b hb => ?_
      · rwa [List.length_append, UstarFile.length_encode, ← Nat.add_assoc] at hnext
      · have htail := hmem (file.encode.length + i) b (by
          rw [List.getElem?_append_right (Nat.le_add_right _ _), Nat.add_sub_cancel_left, hb])
        rw [List.length_append]
        convert htail using 2
        omega

/-- **An encoded archive.** -/
theorem Archive.HoldsBytes.layout (h : ar.HoldsBytes (ustarEncode files zeros)) :
    ar.Layout 0 files := by
  obtain ⟨hlen, hmem⟩ := h
  refine layout_of_bytes [] hlen fun i b hb => ?_
  obtain ⟨hi, rfl⟩ := List.getElem?_eq_some_iff.mp hb
  simpa using hmem i hi

/-- Every entry takes up at least one block. -/
theorem Archive.Layout.length_le (h : ar.Layout off files) :
    off + (files.length + 1) * 512 ≤ ar.len := by
  induction files generalizing off with
  | nil => simpa using h.1
  | cons file files ih =>
    have hrest := ih h.2.2
    rw [List.length_cons]
    omega

end Layout

/-! ### Headers -/

section Header

variable {ar : Archive} {file : UstarFile} {off : ℕ}

/-- Reading the digits of a number. -/
theorem parseOctal_digits {ds : List ℕ} {val : ℕ} {e : BitVec 8} (hds : ∀ d ∈ ds, d < 8)
    (hval : (val + 1) * 8 ^ ds.length ≤ 2 ^ 64) (he : e = 0 ∨ e = 0x20) :
    parseOctal val (ds.map (fun d => BitVec.ofNat 8 (0x30 + d)) ++ [e]) =
      ds.foldl (fun acc d => acc * 8 + d) val := by
  induction ds generalizing val with
  | nil => rcases he with rfl | rfl <;> rfl
  | cons d ds ih =>
    rw [List.forall_mem_cons] at hds
    have hd := hds.1
    have hbyte : (BitVec.ofNat 8 (0x30 + d)).toNat = 0x30 + d := by
      rw [BitVec.toNat_ofNat, Nat.mod_eq_of_lt (by omega)]
    have hpow : 0 < 8 ^ ds.length := by positivity
    rw [List.length_cons, pow_succ] at hval
    have hstep : (val * 8 + d + 1) * 8 ^ ds.length ≤ 2 ^ 64 := by
      refine le_trans ?_ hval
      have hle : val * 8 + d + 1 ≤ (val + 1) * 8 := by omega
      calc (val * 8 + d + 1) * 8 ^ ds.length
          ≤ ((val + 1) * 8) * 8 ^ ds.length := Nat.mul_le_mul_right _ hle
        _ = (val + 1) * (8 ^ ds.length * 8) := by ring
    have hlt : val * 8 + d < 2 ^ 64 := by
      have := Nat.le_mul_of_pos_right (val * 8 + d + 1) hpow
      omega
    rw [List.map_cons, List.cons_append, parseOctal, hbyte, if_pos (by omega),
      Nat.add_sub_cancel_left, Nat.mod_eq_of_lt hlt, ih hds.2 hstep, List.foldl_cons]

variable (hf : file.WellFormed) (hh : ∀ i < 512, ar.byte off i = file.header i)

include hh in
theorem bytes_header {i n : ℕ} (h : i + n ≤ 512) :
    ar.bytes off i n = (List.range n).map fun k => file.header (i + k) := by
  refine List.map_congr_left fun k hk => hh _ ?_
  have := List.mem_range.mp hk
  omega

include hf hh in
theorem isZeroBlock_header : ar.isZeroBlock off = false := by
  obtain ⟨b, name, hname⟩ := List.exists_cons_of_ne_nil hf.name_pos
  have hb : b ≠ 0 := hf.name_nul b (by simp [hname])
  have hbyte : ar.byte off 0 = b := by
    rw [hh 0 (by norm_num)]
    simp [UstarFile.header, hname]
  rw [Archive.isZeroBlock, List.all_eq_false]
  exact ⟨0, by simp, by simpa [hbyte] using hb⟩

include hh in
theorem isValidHeader_header : ar.isValidHeader off = true := by
  rw [Archive.isValidHeader, bytes_header hh (by norm_num), decide_eq_true_eq]
  rfl

include hf hh in
theorem headerSize_header : ar.headerSize off = file.data.length := by
  have hbytes : ar.bytes off 124 12 = file.sizeDigits ++ [file.sizeEnd] := by
    rw [bytes_header hh (by norm_num), List.range_succ, List.map_append]
    rfl
  rw [Archive.headerSize, hbytes, UstarFile.sizeDigits,
    parseOctal_digits (fun d => Digits.lt_of_mem_digits (by norm_num))
      (by rw [Digits.length_digits]; norm_num) hf.sizeEnd]
  exact Digits.value_digits (hf.size_lt.trans_eq (by norm_num))

include hh in
theorem headerTypeflag_header : ar.headerTypeflag off = file.typeflag := by
  rw [Archive.headerTypeflag, hh 156 (by norm_num)]
  rfl

include hf hh in
theorem next_header : ar.next off = off + 512 + file.padded := by
  rw [Archive.next, headerSize_header hf hh]
  simp only [ustarBlockSize, UstarFile.padded]
  split_ifs with hpos
  · congr 2
  · omega

end Header

/-! ### The two passes -/

/-- The entry of a file at offset `off`. -/
def Archive.entryAt (ar : Archive) (off : ℕ) (file : UstarFile) : InitramfsEntry :=
  ⟨ar.data + off, ar.data + off + 512, file.data.length, file.typeflag⟩

/-- The files with their offsets. -/
def places : ℕ → List UstarFile → List (ℕ × UstarFile)
  | _, [] => []
  | off, file :: files => (off, file) :: places (off + 512 + file.padded) files

section Passes

variable {ar : Archive} {file : UstarFile} {files : List UstarFile} {off zeros fuel count : ℕ}

@[simp] theorem map_snd_places (off : ℕ) (files : List UstarFile) : (places off files).map Prod.snd = files := by
  induction files generalizing off with
  | nil => rfl
  | cons file files ih => simp [places, ih]

theorem mem_of_mem_places {place : ℕ × UstarFile} (h : place ∈ places off files) :
    place.2 ∈ files := by
  rw [← map_snd_places off files]
  exact List.mem_map_of_mem h

theorem Archive.Layout.zeroBlock (h : ar.Layout off []) : ar.isZeroBlock off = true := by
  rw [Archive.isZeroBlock, List.all_eq_true]
  intro i hi
  simpa using h.2 i (List.mem_range.mp hi)

/-- **The first pass** counts the files. -/
theorem countEntries_layout (hwf : ∀ file ∈ files, file.WellFormed) (h : ar.Layout off files)
    (hfuel : files.length < fuel) (hcount : count + files.length ≤ 128) :
    ar.countEntries fuel off count = count + files.length := by
  induction files generalizing off fuel count with
  | nil =>
    obtain ⟨fuel, rfl⟩ := Nat.exists_eq_succ_of_ne_zero (Nat.ne_of_gt hfuel)
    rw [Archive.countEntries, h.zeroBlock]
    simp
  | cons file files ih =>
    obtain ⟨fuel, rfl⟩ := Nat.exists_eq_succ_of_ne_zero (Nat.ne_zero_of_lt hfuel)
    rw [List.forall_mem_cons] at hwf
    rw [List.length_cons] at hfuel hcount ⊢
    have hlen := h.length_le
    rw [Archive.countEntries, if_neg (by simp only [ustarBlockSize]; omega),
      isZeroBlock_header hwf.1 h.1, isValidHeader_header h.1, next_header hwf.1 h.1]
    simp only [Bool.false_eq_true, if_false, Bool.not_true]
    by_cases hmax : maxInitramfsEntries ≤ count + 1
    · rw [if_pos hmax]
      simp only [maxInitramfsEntries] at hmax
      omega
    · rw [if_neg hmax, ih hwf.2 h.2.2 (by omega) (by omega)]
      omega

/-- **The second pass** makes an entry for each file. -/
theorem fillEntries_layout (hwf : ∀ file ∈ files, file.WellFormed) (h : ar.Layout off files)
    (hfuel : files.length < fuel) {entries : List InitramfsEntry}
    (hcount : count = entries.length + files.length) :
    ar.fillEntries count fuel off entries =
      entries ++ (places off files).map fun place => ar.entryAt place.1 place.2 := by
  induction files generalizing off fuel entries with
  | nil =>
    obtain ⟨fuel, rfl⟩ := Nat.exists_eq_succ_of_ne_zero (Nat.ne_of_gt hfuel)
    rw [Archive.fillEntries, if_pos (.inr (by rw [hcount]; exact le_rfl))]
    simp [places]
  | cons file files ih =>
    obtain ⟨fuel, rfl⟩ := Nat.exists_eq_succ_of_ne_zero (Nat.ne_zero_of_lt hfuel)
    rw [List.forall_mem_cons] at hwf
    rw [List.length_cons] at hfuel hcount
    have hlen := h.length_le
    have hgo : ¬ (ar.len < off + ustarBlockSize ∨ count ≤ entries.length) := by
      simp only [ustarBlockSize]
      omega
    rw [Archive.fillEntries, if_neg hgo, isZeroBlock_header hwf.1 h.1, isValidHeader_header h.1,
      next_header hwf.1 h.1, headerSize_header hwf.1 h.1, headerTypeflag_header h.1]
    simp only [Bool.false_eq_true, if_false, Bool.not_true]
    rw [ih hwf.2 h.2.2 (by omega) (by rw [List.length_append, List.length_singleton]; omega),
      List.append_assoc]
    rfl

/-- **The table of an encoded archive** has one entry for each file, in order. -/
theorem initramfsInit_layout (hwf : ∀ file ∈ files, file.WellFormed) (h : ar.Layout 0 files)
    (hdata : ar.data ≠ 0) (hcount : files.length ≤ 128) :
    ar.initramfsInit true = (places 0 files).map fun place => ar.entryAt place.1 place.2 := by
  have hlen := h.length_le
  have hfuel : files.length < ar.len / ustarBlockSize + 1 := by
    simp only [ustarBlockSize]
    omega
  unfold Archive.initramfsInit
  dsimp only
  rw [if_neg (by simp only [ustarBlockSize]; omega),
    countEntries_layout hwf h hfuel (by omega), Nat.zero_add]
  split_ifs with hzero hk
  · rw [List.eq_nil_of_length_eq_zero hzero]
    rfl
  · cases hk
  · rw [fillEntries_layout hwf h hfuel (by simp), List.nil_append]

end Passes

/-! ### Lookup -/

section Lookup

variable {mem : ℕ → BitVec 8} {a : ℕ} {path name : Bytes} {ar : Archive} {file : UstarFile}
  {files : List UstarFile} {off zeros : ℕ}

/-- The comparison: the path has no NUL, its bytes are there, and the name ends with it. -/
theorem nameMatches_iff : nameMatches mem a path = true ↔
    (∀ i, (h : i < path.length) → mem (a + i) = path[i] ∧ path[i] ≠ 0) ∧
      mem (a + path.length) = 0 := by
  induction path generalizing a with
  | nil => simp [nameMatches]
  | cons b path ih =>
    have hnext : (∀ i, (h : i < path.length) → mem (a + 1 + i) = path[i] ∧ path[i] ≠ 0) ∧
        mem (a + 1 + path.length) = 0 ↔
        (∀ i, (h : i < path.length) → mem (a + (i + 1)) = path[i] ∧ path[i] ≠ 0) ∧
        mem (a + (path.length + 1)) = 0 := by
      simp only [Nat.add_assoc, Nat.add_comm 1]
    rw [nameMatches]
    constructor
    · intro h
      split_ifs at h with hzero hne
      rw [not_not] at hne
      obtain ⟨hrest, hend⟩ := hnext.mp (ih.mp h)
      refine ⟨fun i hi => ?_, hend⟩
      cases i with
      | zero => exact ⟨hne, fun hb => hzero (hne.trans hb)⟩
      | succ i => exact hrest i (Nat.lt_of_succ_lt_succ hi)
    · rintro ⟨hall, hend⟩
      obtain ⟨hb, hb0⟩ := hall 0 (Nat.succ_pos _)
      rw [Nat.add_zero, List.getElem_cons_zero] at hb
      rw [List.getElem_cons_zero] at hb0
      rw [if_neg (by rwa [hb]), if_neg (not_not.mpr hb)]
      exact ih.mpr (hnext.mpr ⟨fun i hi => hall (i + 1) (Nat.succ_lt_succ hi), hend⟩)

/-- The name of a file is followed by a NUL byte in its header. -/
def UstarFile.Terminated (file : UstarFile) : Prop := file.name.length = 100 → file.other 100 = 0

/-- The bytes of a name, and the one behind it. -/
theorem header_name {i : ℕ} (hf : file.WellFormed) :
    (∀ h : i < file.name.length, file.header i = file.name[i]) ∧
      (file.header file.name.length = 0 ↔ file.Terminated) := by
  have hle := hf.name_le
  refine ⟨fun h => ?_, ?_⟩
  · rw [UstarFile.header, if_pos (by omega), List.getD_eq_getElem?_getD,
      List.getElem?_eq_getElem h, Option.getD_some]
  · rcases hle.lt_or_eq with hlt | heq
    · simp [UstarFile.header, UstarFile.Terminated, hlt, hlt.ne]
    · rw [heq]
      simp [UstarFile.header, UstarFile.Terminated, heq]

/-- **When a path matches the name of a file**: if it is the name, and the name ends where it
should.  Paths longer than the field are compared with what follows it. -/
theorem nameMatches_header (hf : file.WellFormed) (hh : ∀ i < 512, ar.byte off i = file.header i)
    (hpath : path.length ≤ 100 ∨ file.Terminated) :
    nameMatches ar.mem (ar.data + off) path = true ↔ path = file.name ∧ file.Terminated := by
  have hle := hf.name_le
  have hbyte : ∀ i < 512, ar.mem (ar.data + off + i) = file.header i := hh
  have hname : ∀ i, (h : i < file.name.length) → ar.mem (ar.data + off + i) = file.name[i] ∧
      file.name[i] ≠ 0 := by
    intro i h
    exact ⟨(hbyte i (by omega)).trans ((header_name hf).1 h),
      hf.name_nul _ (List.getElem_mem h)⟩
  have hend : ar.mem (ar.data + off + file.name.length) = 0 ↔ file.Terminated := by
    rw [hbyte _ (by omega)]
    exact (header_name (i := 0) hf).2
  rw [nameMatches_iff]
  constructor
  · rintro ⟨hall, hzero⟩
    have hlen : path.length = file.name.length := by
      rcases lt_trichotomy path.length file.name.length with hlt | heq | hlt
      · obtain ⟨hb, hb0⟩ := hname path.length hlt
        exact absurd (hb.symm.trans hzero) hb0
      · exact heq
      · -- the name would go on behind its end
        have hterm : file.Terminated := by
          rcases hpath with hpath | hpath
          · intro heq
            omega
          · exact hpath
        obtain ⟨hb, hb0⟩ := hall file.name.length hlt
        exact absurd (hb.symm.trans (hend.mpr hterm)) hb0
    refine ⟨List.ext_getElem hlen fun i h₁ h₂ => ?_, hend.mp (by rwa [hlen] at hzero)⟩
    rw [← (hall i h₁).1, (hname i h₂).1]
  · rintro ⟨rfl, hterm⟩
    exact ⟨hname, hend.mpr hterm⟩

/-- The entries of a layout. -/
theorem Archive.Layout.place (h : ar.Layout off files) {place : ℕ × UstarFile}
    (hplace : place ∈ places off files) :
    (∀ i < 512, ar.byte place.1 i = place.2.header i) ∧
      ∀ i, (h : i < place.2.data.length) →
        ar.mem (ar.data + place.1 + 512 + i) = place.2.data[i] := by
  induction files generalizing off with
  | nil => cases hplace
  | cons file files ih =>
    rcases List.mem_cons.mp hplace with rfl | hplace
    · exact ⟨h.1, h.2.1⟩
    · exact ih h.2.2 hplace

/-- An archive that holds the encoding of files with different names. -/
structure Encoded (ar : Archive) (files : List UstarFile) : Prop where
  layout : ar.Layout 0 files
  data : ar.data ≠ 0
  count : files.length ≤ 128
  wf : ∀ file ∈ files, file.WellFormed
  names : (files.map UstarFile.name).Nodup

theorem Encoded.place_inj (h : Encoded ar files) {place place' : ℕ × UstarFile}
    (hp : place ∈ places 0 files) (hp' : place' ∈ places 0 files)
    (hname : place.2.name = place'.2.name) : place = place' := by
  refine List.inj_on_of_nodup_map (f := fun place => place.2.name) ?_ hp hp' hname
  have hnames := h.names
  rwa [← map_snd_places 0 files, List.map_map] at hnames

theorem exists_place (hf : file ∈ files) :
    ∃ off, (off, file) ∈ places 0 files := by
  rw [← map_snd_places 0 files] at hf
  obtain ⟨⟨off, file'⟩, hplace, rfl⟩ := List.mem_map.mp hf
  exact ⟨off, hplace⟩

/-- **A lookup** is a search for a file with that name. -/
theorem Encoded.find_eq (h : Encoded ar files) (path : Bytes) :
    initramfsFind ar.mem (ar.initramfsInit true) path =
      ((places 0 files).find? fun place => nameMatches ar.mem (ar.data + place.1) path).map
        fun place => (ar.data + place.1 + 512, place.2.data.length, place.2.typeflag) := by
  have hpos := h.data
  rw [initramfsFind, initramfsInit_layout h.wf h.layout h.data h.count, List.find?_map,
    Option.map_map]
  congr 1
  refine congrArg (fun P => List.find? P (places 0 files)) (funext fun place => ?_)
  simp [Archive.entryAt, hpos]

/-- The place that a lookup finds. -/
theorem Encoded.matches_iff (h : Encoded ar files)
    (hpath : path.length ≤ 100 ∨ ∀ file ∈ files, file.Terminated) {place : ℕ × UstarFile}
    (hplace : place ∈ places 0 files) :
    nameMatches ar.mem (ar.data + place.1) path = true ↔
      path = place.2.name ∧ place.2.Terminated :=
  nameMatches_header (h.wf _ (mem_of_mem_places hplace)) (h.layout.place hplace).1
    (hpath.imp_right fun hall => hall _ (mem_of_mem_places hplace))

theorem Encoded.find_some (h : Encoded ar files)
    (hpath : file.name.length ≤ 100 ∨ ∀ file ∈ files, file.Terminated)
    (hplace : (off, file) ∈ places 0 files) (hterm : file.Terminated) :
    initramfsFind ar.mem (ar.initramfsInit true) file.name =
      some (ar.data + off + 512, file.data.length, file.typeflag) := by
  rw [h.find_eq]
  cases hfind : (places 0 files).find? fun place =>
      nameMatches ar.mem (ar.data + place.1) file.name with
  | none =>
    rw [List.find?_eq_none] at hfind
    exact absurd ((h.matches_iff hpath hplace).mpr ⟨rfl, hterm⟩) (hfind _ hplace)
  | some place =>
    have hmem := List.mem_of_find?_eq_some hfind
    have hname := ((h.matches_iff hpath hmem).mp (by simpa using List.find?_some hfind)).1
    obtain rfl := h.place_inj hplace hmem hname
    rfl

theorem Encoded.find_none (h : Encoded ar files)
    (hpath : path.length ≤ 100 ∨ ∀ file ∈ files, file.Terminated)
    (hnone : ∀ file ∈ files, path = file.name → ¬ file.Terminated) :
    initramfsFind ar.mem (ar.initramfsInit true) path = none := by
  rw [h.find_eq, Option.map_eq_none_iff, List.find?_eq_none]
  intro place hplace hmatch
  obtain ⟨hname, hterm⟩ := (h.matches_iff hpath hplace).mp hmatch
  exact hnone _ (mem_of_mem_places hplace) hname hterm

end Lookup

/-- **Parsing inverts encoding**, exactly if every name that fills its field is followed by a NUL
byte: then every file is found with its contents, and nothing else is found. -/
theorem initramfs_finds_iff {ar : Archive} {files : List UstarFile} {zeros : ℕ}
    (hmem : ar.HoldsBytes (ustarEncode files zeros)) (hdata : ar.data ≠ 0)
    (hcount : files.length ≤ 128) (hwf : ∀ file ∈ files, file.WellFormed)
    (hnames : (files.map UstarFile.name).Nodup) :
    ((∀ file ∈ files, ∃ data,
        initramfsFind ar.mem (ar.initramfsInit true) file.name =
          some (data, file.data.length, file.typeflag) ∧
        ∀ i, (h : i < file.data.length) → ar.mem (data + i) = file.data[i]) ∧
      ∀ path, path ∉ files.map UstarFile.name →
        initramfsFind ar.mem (ar.initramfsInit true) path = none) ↔
    ∀ file ∈ files, file.name.length = 100 → file.other 100 = 0 := by
  have henc : Encoded ar files := ⟨hmem.layout, hdata, hcount, hwf, hnames⟩
  constructor
  · rintro ⟨hfound, -⟩ file hf
    by_contra hterm
    obtain ⟨data, hfind, -⟩ := hfound file hf
    rw [henc.find_none (.inl (hwf file hf).name_le) fun file' hf' heq => ?_] at hfind
    · cases hfind
    · rwa [← List.inj_on_of_nodup_map hnames hf hf' heq]
  · intro hterm
    refine ⟨fun file hf => ?_, fun path hpath => ?_⟩
    · obtain ⟨off, hplace⟩ := exists_place hf
      exact ⟨_, henc.find_some (.inr hterm) hplace (hterm file hf), (henc.layout.place hplace).2⟩
    · exact henc.find_none (.inr hterm) fun file hf heq =>
        absurd (heq ▸ List.mem_map_of_mem hf) hpath

/-- A file of one byte with the name `a` repeated `n` times, with the mode `0000644`. -/
def sampleFile (n : ℕ) : UstarFile where
  name := List.replicate n 0x61
  typeflag := 0x30
  sizeEnd := 0
  other := fun i => [0x30, 0x30, 0x30, 0x30, 0x36, 0x34, 0x34].getD (i - 100) 0
  data := [0x2a]

/-- An archive with the given bytes at address `0x1000`. -/
def archiveOf (bytes : Bytes) : Archive :=
  ⟨fun a => bytes.getD (a - 0x1000) 0, 0x1000, bytes.length⟩

theorem archiveOf_holds (bytes : Bytes) : (archiveOf bytes).HoldsBytes bytes := by
  refine ⟨rfl, fun i h => ?_⟩
  simp [archiveOf, List.getD_eq_getElem?_getD, h]

theorem sampleFile_wellFormed {n : ℕ} (hpos : 0 < n) (hle : n ≤ 100) :
    (sampleFile n).WellFormed := by
  refine ⟨?_, ?_, ?_, by simp [sampleFile], .inl rfl⟩
  · simpa [sampleFile] using hpos.ne'
  · simpa [sampleFile] using hle
  · intro b hb
    rw [sampleFile, List.mem_replicate] at hb
    rw [hb.2]
    decide

/-- A file with a name of 99 bytes is found. -/
theorem initramfs_finds_iff_short :
    ∃ data, initramfsFind (archiveOf (ustarEncode [sampleFile 99] 1)).mem
      ((archiveOf (ustarEncode [sampleFile 99] 1)).initramfsInit true) (sampleFile 99).name =
        some (data, (sampleFile 99).data.length, (sampleFile 99).typeflag) := by
  have hwf : (sampleFile 99).WellFormed := sampleFile_wellFormed (by norm_num) (by norm_num)
  have hfinds := (initramfs_finds_iff (archiveOf_holds (ustarEncode [sampleFile 99] 1))
    (by decide) (by decide) (by simpa using hwf) (by simp)).mpr (by simp [sampleFile])
  obtain ⟨data, hfind, -⟩ := hfinds.1 (sampleFile 99) (by simp)
  exact ⟨data, hfind⟩

/-- A name of 100 bytes runs into the mode, and its file is not found. -/
theorem initramfs_misses_long_name :
    (sampleFile 100).WellFormed ∧
      initramfsFind (archiveOf (ustarEncode [sampleFile 100] 1)).mem
        ((archiveOf (ustarEncode [sampleFile 100] 1)).initramfsInit true) (sampleFile 100).name =
          none := by
  have hwf := sampleFile_wellFormed (n := 100) (by norm_num) (by norm_num)
  have henc : Encoded (archiveOf (ustarEncode [sampleFile 100] 1)) [sampleFile 100] :=
    ⟨(archiveOf_holds _).layout, by decide, by decide, by simpa using hwf, by simp⟩
  refine ⟨hwf, henc.find_none (.inl hwf.name_le) ?_⟩
  simp [UstarFile.Terminated, sampleFile]

end Vibix.Vfs
