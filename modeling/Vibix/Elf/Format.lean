import Vibix.Paging.Walk

/-! # ELF64 images

The headers of an ELF64 image as the loader reads them from the bytes it is offered, and the pass
that checks the whole image before anything is allocated or mapped.

* `parseEhdr` is the check of the file header and of the place of the program-header table.
* `checkSegment` is the check of one program header, `validate` the pass over all of them.
* `Checked` says what an accepted non-empty segment satisfies (`validate_checked`); its pages are
  `Confined` (`Checked.confined`).  Nothing is said about empty segments: the pass skips them. -/

namespace Vibix.Elf

open Paging

/-- `ElfError`. -/
inductive ElfError where
  | badMagic
  | badClass
  | badEndian
  | badMachine
  | badType
  | invalidAddress
  | fixedStackOverlap
  | mappingCollision
  | invalidEntry
  | truncated
  | oom
  | metadataOom
deriving DecidableEq, Repr

/-- `ELF_MAGIC`. -/
def elfMagic : List (BitVec 8) := [0x7f, 0x45, 0x4c, 0x46]
/-- `ELFCLASS64`. -/
def elfClass64 : BitVec 8 := 2
/-- `ELFDATA2LSB`. -/
def elfData2Lsb : BitVec 8 := 1
/-- `ET_EXEC`. -/
def etExec : ℕ := 2
/-- `PT_LOAD`. -/
def ptLoad : ℕ := 1
/-- `PF_X`. -/
def pfX : ℕ := 1
/-- `EM_X86_64`. -/
def emX8664 : ℕ := 0x3E

/-- `ELF_STACK_PAGES`. -/
def elfStackPages : ℕ := 16
/-- `ELF_STACK_TOP_PAGE`. -/
def elfStackTopPage : ℕ := 0x2200000
/-- `ELF_STACK_LOW`. -/
def elfStackLow : ℕ := elfStackTopPage - elfStackPages * 0x1000
/-- `USER_ADDR_LIMIT`. -/
def userAddrLimit : ℕ := 0x800000000000

/-- The bytes offered as an image. -/
abbrev Image := List (BitVec 8)

/-- The little-endian number in the `n` bytes at `off`. -/
def readLe (data : Image) (off : ℕ) : ℕ → ℕ
  | 0 => 0
  | n + 1 => (data.getD off 0).toNat + 256 * readLe data (off + 1) n

theorem readLe_lt (data : Image) (off n : ℕ) : readLe data off n < 256 ^ n := by
  induction n generalizing off with
  | zero => simp [readLe]
  | succ n ih =>
    have hb := (data.getD off 0).isLt
    have hr := ih (off + 1)
    unfold readLe
    rw [Nat.pow_succ]
    omega

/-- The fields of `Elf64Ehdr` that the loader uses. -/
structure Ehdr where
  eIdent : Image
  eType : ℕ
  eMachine : ℕ
  eEntry : ℕ
  ePhoff : ℕ
  ePhentsize : ℕ
  ePhnum : ℕ
deriving DecidableEq

/-- The size of `Elf64Ehdr`. -/
def ehdrSize : ℕ := 64

/-- The file header at the start of the image. -/
def readEhdr (data : Image) : Ehdr where
  eIdent := data.take 16
  eType := readLe data 16 2
  eMachine := readLe data 18 2
  eEntry := readLe data 24 8
  ePhoff := readLe data 32 8
  ePhentsize := readLe data 54 2
  ePhnum := readLe data 56 2

/-- The fields of `Elf64Phdr` that the loader uses. -/
structure Phdr where
  pType : ℕ
  pFlags : ℕ
  pOffset : ℕ
  pVaddr : ℕ
  pFilesz : ℕ
  pMemsz : ℕ
deriving DecidableEq

/-- The size of `Elf64Phdr`. -/
def phdrSize : ℕ := 56

/-- The program header at `off`. -/
def readPhdr (data : Image) (off : ℕ) : Phdr where
  pType := readLe data off 4
  pFlags := readLe data (off + 4) 4
  pOffset := readLe data (off + 8) 8
  pVaddr := readLe data (off + 16) 8
  pFilesz := readLe data (off + 32) 8
  pMemsz := readLe data (off + 40) 8

/-- The little-endian bytes of a number. -/
def writeLe : ℕ → ℕ → Image
  | 0, _ => []
  | n + 1, v => BitVec.ofNat 8 v :: writeLe n (v / 256)

/-- The bytes of a program header. -/
def Phdr.bytes (phdr : Phdr) : Image :=
  writeLe 4 phdr.pType ++ writeLe 4 phdr.pFlags ++ writeLe 8 phdr.pOffset ++
    writeLe 8 phdr.pVaddr ++ writeLe 8 0 ++ writeLe 8 phdr.pFilesz ++ writeLe 8 phdr.pMemsz ++
    writeLe 8 0

/-- The bytes of an executable with the given program headers, followed by `body`. -/
def buildImage (entry : ℕ) (phdrs : List Phdr) (body : Image) : Image :=
  elfMagic ++ [elfClass64, elfData2Lsb, 1] ++ List.replicate 9 0 ++ writeLe 2 etExec ++
    writeLe 2 emX8664 ++ writeLe 4 1 ++ writeLe 8 entry ++ writeLe 8 ehdrSize ++ writeLe 8 0 ++
    writeLe 4 0 ++ writeLe 2 ehdrSize ++ writeLe 2 phdrSize ++ writeLe 2 phdrs.length ++
    writeLe 6 0 ++ phdrs.flatMap Phdr.bytes ++ body

/-- `checked_add` of 64-bit numbers. -/
def checkedAdd (a b : ℕ) : Option ℕ := if a + b < 2 ^ 64 then some (a + b) else none

/-- `checked_mul` of 64-bit numbers. -/
def checkedMul (a b : ℕ) : Option ℕ := if a * b < 2 ^ 64 then some (a * b) else none

/-- `Option::ok_or`. -/
def okOr {α : Type} (o : Option α) (e : ElfError) : Except ElfError α :=
  match o with
  | some a => .ok a
  | none => .error e

/-- Round an address down to its page. -/
abbrev pageDown (v : ℕ) : ℕ := PhysMem.frameOf v

/-- The check of the file header and of the bounds of the program-header table. -/
def parseEhdr (data : Image) : Except ElfError Ehdr := do
  if data.length < ehdrSize then throw .truncated
  let ehdr := readEhdr data
  if ehdr.eIdent.take 4 ≠ elfMagic then throw .badMagic
  if ehdr.eIdent.getD 4 0 ≠ elfClass64 then throw .badClass
  if ehdr.eIdent.getD 5 0 ≠ elfData2Lsb then throw .badEndian
  if ehdr.eMachine ≠ emX8664 then throw .badMachine
  if ehdr.eType ≠ etExec then throw .badType
  let phTableSize ← okOr (checkedMul ehdr.ePhnum ehdr.ePhentsize) .truncated
  if ehdr.ePhentsize < phdrSize then throw .truncated
  let stop ← okOr (checkedAdd ehdr.ePhoff phTableSize) .truncated
  if stop > data.length then throw .truncated
  return ehdr

/-- The offset of program header `i`. -/
def phdrOffset (ehdr : Ehdr) (i : ℕ) : Option ℕ :=
  (checkedMul i ehdr.ePhentsize).bind (checkedAdd ehdr.ePhoff)

/-- The check of one program header of an image of `len` bytes; the result says whether it is an
executable segment that contains the entry point. -/
def checkSegment (len entry : ℕ) (phdr : Phdr) : Except ElfError Bool := do
  if phdr.pType ≠ ptLoad then return false
  if phdr.pFilesz > phdr.pMemsz then throw .truncated
  let stop ← okOr (checkedAdd phdr.pVaddr phdr.pMemsz) .invalidAddress
  if phdr.pMemsz = 0 then return false
  if phdr.pVaddr < userCodeAddr ∨ stop > userAddrLimit then throw .invalidAddress
  let pageStart := pageDown phdr.pVaddr
  let pageEnd := pageDown (← okOr (checkedAdd stop 0xFFF) .invalidAddress)
  if pageStart < userCodeAddr ∨ pageEnd > userAddrLimit then throw .invalidAddress
  if overlapsKernelScratch pageStart pageEnd then throw .invalidAddress
  if pageStart < elfStackTopPage + 0x1000 ∧ pageEnd > elfStackLow then throw .fixedStackOverlap
  let fileEnd ← okOr (checkedAdd phdr.pOffset phdr.pFilesz) .truncated
  if fileEnd > len then throw .truncated
  return decide (phdr.pFlags &&& pfX ≠ 0 ∧ phdr.pVaddr ≤ entry ∧ entry < stop)

/-- The validation pass. -/
def validate (data : Image) (ehdr : Ehdr) : Except ElfError Unit := do
  let entryExecutable ← (List.range ehdr.ePhnum).foldlM (fun found i => do
    let off ← okOr (phdrOffset ehdr i) .truncated
    let hit ← checkSegment data.length ehdr.eEntry (readPhdr data off)
    return found || hit) false
  if !entryExecutable then throw .invalidEntry

/-! ### What the checks establish -/

section Checks

variable {α : Type} {data : Image} {ehdr : Ehdr} {phdr : Phdr} {len entry : ℕ}

theorem checkedAdd_eq_some {a b c : ℕ} (h : checkedAdd a b = some c) :
    c = a + b ∧ a + b < 2 ^ 64 := by
  unfold checkedAdd at h
  split at h
  next hlt =>
    cases h
    exact ⟨rfl, hlt⟩
  next => cases h

theorem checkedMul_eq_some {a b c : ℕ} (h : checkedMul a b = some c) : c = a * b := by
  unfold checkedMul at h
  split at h
  · cases h
    rfl
  · cases h

@[simp] theorem okOr_eq_ok {o : Option α} {e : ElfError} {a : α} :
    okOr o e = .ok a ↔ o = some a := by
  cases o <;> simp [okOr]

theorem bind_eq_ok {ε β : Type} {x : Except ε α} {f : α → Except ε β} {b : β}
    (h : (x >>= f) = .ok b) : ∃ a, x = .ok a ∧ f a = .ok b := by
  cases x with
  | error e => cases h
  | ok a => exact ⟨a, rfl, h⟩

/-- The part of a check after a guard that throws. -/
theorem guard_eq_ok {c : Prop} [Decidable c] {e : ElfError} {f : Unit → Except ElfError α} {b : α}
    (h : (if c then throw e >>= f else f ()) = .ok b) : ¬ c ∧ f () = .ok b := by
  split at h
  next => cases h
  next hc => exact ⟨hc, h⟩

theorem parseEhdr_ok (h : parseEhdr data = .ok ehdr) :
    ehdr = readEhdr data ∧ phdrSize ≤ ehdr.ePhentsize ∧
      ehdr.ePhoff + ehdr.ePhnum * ehdr.ePhentsize ≤ data.length := by
  unfold parseEhdr at h
  obtain ⟨-, h⟩ := guard_eq_ok h
  obtain ⟨-, h⟩ := guard_eq_ok h
  obtain ⟨-, h⟩ := guard_eq_ok h
  obtain ⟨-, h⟩ := guard_eq_ok h
  obtain ⟨-, h⟩ := guard_eq_ok h
  obtain ⟨-, h⟩ := guard_eq_ok h
  obtain ⟨size, hsize, h⟩ := bind_eq_ok h
  obtain ⟨hent, h⟩ := guard_eq_ok h
  obtain ⟨stop, hstop, h⟩ := bind_eq_ok h
  obtain ⟨hlen, h⟩ := guard_eq_ok h
  cases h
  obtain ⟨rfl, -⟩ := checkedAdd_eq_some (okOr_eq_ok.mp hstop)
  obtain rfl := checkedMul_eq_some (okOr_eq_ok.mp hsize)
  exact ⟨rfl, not_lt.mp hent, not_lt.mp hlen⟩

/-- What the check of the file header establishes about its bytes. -/
theorem parseEhdr_bytes (h : parseEhdr data = .ok ehdr) :
    ehdrSize ≤ data.length ∧ data.take 4 = elfMagic ∧ data[4]? = some elfClass64 ∧
      ehdr.ePhoff + ehdr.ePhnum * ehdr.ePhentsize < 2 ^ 64 := by
  unfold parseEhdr at h
  obtain ⟨hlen, h⟩ := guard_eq_ok h
  obtain ⟨hmagic, h⟩ := guard_eq_ok h
  obtain ⟨hclass, h⟩ := guard_eq_ok h
  obtain ⟨-, h⟩ := guard_eq_ok h
  obtain ⟨-, h⟩ := guard_eq_ok h
  obtain ⟨-, h⟩ := guard_eq_ok h
  obtain ⟨size, hsize, h⟩ := bind_eq_ok h
  obtain ⟨-, h⟩ := guard_eq_ok h
  obtain ⟨stop, hstop, h⟩ := bind_eq_ok h
  obtain ⟨-, h⟩ := guard_eq_ok h
  cases h
  obtain ⟨-, hlt⟩ := checkedAdd_eq_some (okOr_eq_ok.mp hstop)
  obtain rfl := checkedMul_eq_some (okOr_eq_ok.mp hsize)
  rw [not_lt] at hlen
  rw [not_not] at hmagic hclass
  refine ⟨hlen, ?_, ?_, hlt⟩
  · rwa [readEhdr, List.take_take] at hmagic
  · have h4 : 4 < data.length := (by decide : 4 < ehdrSize).trans_le hlen
    rw [List.getElem?_eq_getElem h4, ← hclass]
    simp [readEhdr, List.getD_eq_getElem?_getD, h4]

/-- What the validation pass establishes for a non-empty `PT_LOAD` of an image of `len` bytes. -/
structure Checked (len : ℕ) (phdr : Phdr) : Prop where
  start : userCodeAddr ≤ pageDown phdr.pVaddr
  stop : pageDown (phdr.pVaddr + phdr.pMemsz + 0xFFF) ≤ userAddrLimit
  scratch : overlapsKernelScratch (pageDown phdr.pVaddr)
    (pageDown (phdr.pVaddr + phdr.pMemsz + 0xFFF)) = false
  stack : ¬ (pageDown phdr.pVaddr < elfStackTopPage + 0x1000 ∧
    pageDown (phdr.pVaddr + phdr.pMemsz + 0xFFF) > elfStackLow)
  file : phdr.pOffset + phdr.pFilesz ≤ len

/-- What the validation pass establishes for a program header: empty segments are not checked. -/
def Accepted (len : ℕ) (phdr : Phdr) : Prop :=
  phdr.pType = ptLoad → phdr.pFilesz ≤ phdr.pMemsz ∧ (phdr.pMemsz ≠ 0 → Checked len phdr)

/-- A `PT_LOAD` that makes the entry point executable. -/
def Phdr.Executes (phdr : Phdr) (entry : ℕ) : Prop :=
  phdr.pType = ptLoad ∧ phdr.pFlags &&& pfX ≠ 0 ∧ phdr.pVaddr ≤ entry ∧
    entry < phdr.pVaddr + phdr.pMemsz

theorem checkSegment_ok {b : Bool} (h : checkSegment len entry phdr = .ok b) :
    Accepted len phdr ∧ (b = true → phdr.Executes entry) := by
  unfold checkSegment at h
  split at h
  next hload =>
    cases h
    exact ⟨fun hl => absurd hl hload, fun hb => by cases hb⟩
  next hload =>
    obtain ⟨hfile, h⟩ := guard_eq_ok h
    obtain ⟨stop, hstop, h⟩ := bind_eq_ok h
    split at h
    next hmem =>
      cases h
      exact ⟨fun _ => ⟨not_lt.mp hfile, fun h => absurd hmem h⟩, fun hb => by cases hb⟩
    next =>
      obtain ⟨-, h⟩ := guard_eq_ok h
      obtain ⟨up, hup, h⟩ := bind_eq_ok h
      obtain ⟨hpages, h⟩ := guard_eq_ok h
      obtain ⟨hscratch, h⟩ := guard_eq_ok h
      obtain ⟨hstack, h⟩ := guard_eq_ok h
      obtain ⟨fileEnd, hfileEnd, h⟩ := bind_eq_ok h
      obtain ⟨hlen, h⟩ := guard_eq_ok h
      cases h
      obtain ⟨rfl, -⟩ := checkedAdd_eq_some (okOr_eq_ok.mp hstop)
      obtain ⟨rfl, -⟩ := checkedAdd_eq_some (okOr_eq_ok.mp hup)
      obtain ⟨rfl, -⟩ := checkedAdd_eq_some (okOr_eq_ok.mp hfileEnd)
      rw [not_or] at hpages
      have hchecked : Checked len phdr := ⟨not_lt.mp hpages.1, not_lt.mp hpages.2,
        by simpa using hscratch, hstack, not_lt.mp hlen⟩
      refine ⟨fun _ => ⟨not_lt.mp hfile, fun _ => hchecked⟩, fun hb => ⟨not_not.mp hload, ?_⟩⟩
      simpa using hb

/-- The program header `i` of an image. -/
def phdrAt (data : Image) (ehdr : Ehdr) (i : ℕ) : Phdr :=
  readPhdr data (ehdr.ePhoff + i * ehdr.ePhentsize)

theorem phdrOffset_eq_some {i off : ℕ} (h : phdrOffset ehdr i = some off) :
    off = ehdr.ePhoff + i * ehdr.ePhentsize := by
  obtain ⟨k, hk, h⟩ := Option.bind_eq_some_iff.mp h
  rw [(checkedAdd_eq_some h).1, checkedMul_eq_some hk]

/-- The loop of the validation pass, from any header on. -/
theorem validate_loop {is : List ℕ} {found r : Bool}
    (h : is.foldlM (fun found i => do
      let off ← okOr (phdrOffset ehdr i) .truncated
      let hit ← checkSegment data.length ehdr.eEntry (readPhdr data off)
      return found || hit) found = Except.ok r) :
    (∀ i ∈ is, Accepted data.length (phdrAt data ehdr i)) ∧
      (r = true → found = true ∨ ∃ i ∈ is, (phdrAt data ehdr i).Executes ehdr.eEntry) := by
  induction is generalizing found with
  | nil =>
    cases h
    exact ⟨by simp, Or.inl⟩
  | cons i is ih =>
    obtain ⟨found', hbody, h⟩ := bind_eq_ok h
    obtain ⟨off, hoff, hbody⟩ := bind_eq_ok hbody
    obtain ⟨hit, hhit, hbody⟩ := bind_eq_ok hbody
    cases hbody
    obtain rfl := phdrOffset_eq_some (okOr_eq_ok.mp hoff)
    obtain ⟨hacc, hexec⟩ := checkSegment_ok hhit
    obtain ⟨hall, hr⟩ := ih h
    refine ⟨List.forall_mem_cons.mpr ⟨hacc, hall⟩, fun htrue => ?_⟩
    rcases hr htrue with hf | ⟨j, hj, hjx⟩
    · rcases Bool.or_eq_true_iff.mp hf with hf | hf
      · exact Or.inl hf
      · exact Or.inr ⟨i, List.mem_cons_self, hexec hf⟩
    · exact Or.inr ⟨j, List.mem_cons_of_mem _ hj, hjx⟩

/-- **An accepted image**: every program header is accepted, and one of them makes the entry point
executable. -/
theorem validate_ok (h : validate data ehdr = .ok ()) :
    (∀ i < ehdr.ePhnum, Accepted data.length (phdrAt data ehdr i)) ∧
      ∃ i < ehdr.ePhnum, (phdrAt data ehdr i).Executes ehdr.eEntry := by
  unfold validate at h
  obtain ⟨r, hloop, h⟩ := bind_eq_ok h
  obtain ⟨hall, hr⟩ := validate_loop hloop
  have hr' : r = true := by
    cases r
    · cases h
    · rfl
  refine ⟨fun i hi => hall i (List.mem_range.mpr hi), ?_⟩
  rcases hr hr' with hf | ⟨i, hi, hx⟩
  · cases hf
  · exact ⟨i, List.mem_range.mp hi, hx⟩

/-! ### Confinement -/

/-- The page at `v` lies where the pages of an image may lie: in the user range, away from the
kernel scratch page and from the fixed stack window. -/
def Confined (v : ℕ) : Prop :=
  userCodeAddr ≤ v ∧ v + 0x1000 ≤ userAddrLimit ∧ overlapsKernelScratch v (v + 0x1000) = false ∧
    (v + 0x1000 ≤ elfStackLow ∨ elfStackTopPage + 0x1000 ≤ v)

instance (v : ℕ) : Decidable (Confined v) := by unfold Confined; infer_instance

/-- The pages from `pageStart` up to `pageEnd`. -/
def pagesBetween (pageStart pageEnd : ℕ) : List ℕ :=
  (List.range ((pageEnd - pageStart + 0xFFF) / 0x1000)).map fun k => pageStart + 0x1000 * k

/-- The pages that contain a segment, as the mapping pass rounds them. -/
def Phdr.pages (phdr : Phdr) : List ℕ :=
  pagesBetween (pageDown phdr.pVaddr) (pageDown (phdr.pVaddr + phdr.pMemsz + 0xFFF))

theorem mem_pages {v : ℕ} : v ∈ phdr.pages ↔
    v % 0x1000 = 0 ∧ pageDown phdr.pVaddr ≤ v ∧
      v < pageDown (phdr.pVaddr + phdr.pMemsz + 0xFFF) := by
  simp only [Phdr.pages, pagesBetween, List.mem_map, List.mem_range, PhysMem.frameOf]
  constructor
  · rintro ⟨k, hk, rfl⟩
    omega
  · rintro ⟨h1, h2, h3⟩
    exact ⟨(v - phdr.pVaddr / 4096 * 4096) / 4096, by omega, by omega⟩

/-- **The pages of a checked segment are confined.** -/
theorem Checked.confined (h : Checked len phdr) {v : ℕ} (hv : v ∈ phdr.pages) : Confined v := by
  obtain ⟨hal, hlo, hhi⟩ := mem_pages.mp hv
  have hend : v + 0x1000 ≤ pageDown (phdr.pVaddr + phdr.pMemsz + 0xFFF) := by
    simp only [PhysMem.frameOf] at hhi ⊢
    omega
  have hscratch := h.scratch
  have hstack := h.stack
  refine ⟨h.start.trans hlo, hend.trans h.stop, ?_, ?_⟩
  · simp only [overlapsKernelScratch, Bool.and_eq_false_iff, decide_eq_false_iff_not] at hscratch ⊢
    omega
  · omega

end Checks

end Vibix.Elf
