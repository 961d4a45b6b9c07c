import Vibix.Elf.Format
import Vibix.Elf.Provenance
import Vibix.Lib.Spec
import Vibix.Paging.MapPage

/-! # The ELF loader

`load_with_injection` and `build_exec_image`.  The mapping pass is a program with state `Loader`; it
stops with an error of the loader, after having taken back what it mapped, or with a fault of the
kernel, when a store goes to an address that the target root does not map or that is not canonical.

The state also keeps two traces the kernel does not have, to speak about what a load did on the way:
the pages that were mapped and the ranges that were stored to through the target root. -/

namespace Vibix.Elf

open Paging

/-- `LoadFailureInjection`: the attempts at which a metadata reservation or a page allocation is
made to fail, and the attempts so far. -/
structure LoadFailureInjection where
  pmmFailAfter : Option ℕ
  metadataFailAfter : Option ℕ
  pmmAttempts : ℕ
  metadataAttempts : ℕ

/-- `LoadFailureInjection::disabled`. -/
def LoadFailureInjection.disabled : LoadFailureInjection := ⟨none, none, 0, 0⟩

/-- The state of a load. -/
structure Loader where
  mach : Mach
  arena : Arena
  pages : LoadedPages
  injection : LoadFailureInjection
  /-- The pages mapped so far, the last one first. -/
  mapped : List ℕ
  /-- The ranges stored to so far, as address and length, the last one first. -/
  stored : List (ℕ × ℕ)

/-- Why a load stops. -/
inductive Stop where
  | error (e : ElfError)
  | fault
deriving DecidableEq, Repr

/-- Programs of the loader. -/
abbrev LoadM := EStateM Stop Loader

section

variable (p : PmmAllocator) (root : ℕ)

/-- Unmap a recorded page and give its frame back. -/
def rollbackPage (m : Mach) (page : LoadedPage) : Mach :=
  match unmapAndFreeEmpty p m root page.vaddr with
  | (m, some entry) => m.free p (entryAddr entry)
  | (m, none) => m

/-- `LoadedPages::rollback`. -/
def Loader.rollback (s : Loader) : Loader :=
  { s with mach := (s.pages.recorded s.arena).foldl (rollbackPage p root) s.mach }

/-- `rollback_error`. -/
def rollbackError {α : Type} (e : ElfError) : LoadM α := do
  modify (Loader.rollback p root)
  throw (.error e)

theorem rollbackError_spec {α : Type} {e : ElfError} {s : Loader} {Q : α → Loader → Prop}
    {E : Stop → Loader → Prop} (h : E (.error e) (s.rollback p root)) :
    Spec (rollbackError p root e) s Q E := h

/-- `should_fail_metadata`. -/
def shouldFailMetadata : LoadM Bool := do
  let s ← get
  let i := s.injection
  set { s with injection := { i with metadataAttempts := i.metadataAttempts + 1 } }
  return i.metadataFailAfter = some i.metadataAttempts

/-- `should_fail_pmm`. -/
def shouldFailPmm : LoadM Bool := do
  let s ← get
  let i := s.injection
  set { s with injection := { i with pmmAttempts := i.pmmAttempts + 1 } }
  return i.pmmFailAfter = some i.pmmAttempts

/-- Reserve a slot for the next page. -/
def reserveSlot : LoadM Slot := do
  if ← shouldFailMetadata then rollbackError p root .metadataOom
  else
    let s ← get
    match s.pages.reserve s.arena with
    | none => rollbackError p root .metadataOom
    | some (arena, pages, slot) => do
      set { s with arena := arena, pages := pages }
      return slot

/-- `cancel_reservation`. -/
def Loader.cancel (s : Loader) : Loader :=
  let r := s.pages.cancelReservation s.arena
  { s with arena := r.1, pages := r.2 }

/-- Allocate the frame of the next page. -/
def allocFrame : LoadM ℕ := do
  if ← shouldFailPmm then do
    modify Loader.cancel
    rollbackError p root .oom
  else
    let s ← get
    let r := p.alloc s.mach.bitmap
    if r.2 = 0 then do
      set { s with mach := { s.mach with bitmap := r.1 } }
      modify Loader.cancel
      rollbackError p root .oom
    else do
      set { s with mach := { s.mach with bitmap := r.1 } }
      return r.2

/-- Map the frame `paddr` at `v` and record it. -/
def mapFrame (v paddr : ℕ) (slot : Slot) : LoadM Unit := do
  let s ← get
  match tryMap4k p s.mach root v paddr pageUserRw with
  | (mach, false) => do
    set { s with mach := mach.free p paddr }
    modify Loader.cancel
    rollbackError p root .oom
  | (mach, true) =>
    set { s with mach := mach, arena := s.arena.record slot ⟨v, paddr⟩, mapped := v :: s.mapped }

/-- The physical address of a kernel access to `v` under `root`; none if it faults. -/
def access (mem : PhysMem) (v : ℕ) : Option ℕ := if canonical v then walk mem root v else none

/-- Zero the page at `v` through the target root. -/
def zeroPage (v : ℕ) : LoadM Unit := do
  modify fun s => { s with stored := (v, 0x1000) :: s.stored }
  let s ← get
  match access root s.mach.mem v with
  | none => throw .fault
  | some pa => set { s with mach := s.mach.zero (PhysMem.frameOf pa) }

/-- Allocate, map, record and zero the page at `v`, unless this load did so already. -/
def mapPage (v : ℕ) : LoadM Unit := do
  let s ← get
  match s.pages.find s.arena v with
  | some _ => pure ()
  | none =>
    if (translateInPml4 s.mach.mem v root).isSome then rollbackError p root .mappingCollision
    else do
      let slot ← reserveSlot p root
      let paddr ← allocFrame p root
      mapFrame p root v paddr slot
      zeroPage root v

/-- One round of the page loop. -/
def mapPageStep (v : ℕ) : LoadM Unit := do
  mapPage p root v
  match checkedAdd v 0x1000 with
  | none => rollbackError p root .truncated
  | some _ => pure ()

/-- Store bytes from `v` on through the target root. -/
def storeBytes : ℕ → List (BitVec 8) → LoadM Unit
  | _, [] => pure ()
  | v, b :: bs => do
    let s ← get
    match access root s.mach.mem v with
    | none => throw .fault
    | some pa => do
      set { s with mach := { s.mach with mem := s.mach.mem.writeByte pa b } }
      storeBytes (v + 1) bs

variable (data : Image)

/-- Copy the file-backed part of a segment to its pages. -/
def copySegment (phdr : Phdr) : LoadM Unit := do
  if phdr.pFilesz > 0 then
    match checkedAdd phdr.pOffset phdr.pFilesz with
    | none => rollbackError p root .truncated
    | some srcEnd =>
      if srcEnd > data.length then rollbackError p root .truncated
      else do
        let src := (data.take srcEnd).drop phdr.pOffset
        let copyLen := min phdr.pFilesz phdr.pMemsz
        modify fun s => { s with stored := (phdr.pVaddr, copyLen) :: s.stored }
        storeBytes root phdr.pVaddr (src.take copyLen)

/-- Map the pages of a `PT_LOAD` and copy its bytes. -/
def loadSegment (phdr : Phdr) : LoadM Unit := do
  if phdr.pType ≠ ptLoad then pure ()
  else
    match (checkedAdd phdr.pVaddr phdr.pMemsz).bind (checkedAdd · 0xFFF) with
    | none => rollbackError p root .truncated
    | some up => do
      (pagesBetween (pageDown phdr.pVaddr) (pageDown up)).forM (mapPageStep p root)
      copySegment p root data phdr

/-- One round of the mapping pass: program header `i`. -/
def loadHeader (ehdr : Ehdr) (i : ℕ) : LoadM Unit := do
  match phdrOffset ehdr i with
  | none => rollbackError p root .truncated
  | some off =>
    match checkedAdd off phdrSize with
    | none => rollbackError p root .truncated
    | some stop =>
      if stop > data.length then rollbackError p root .truncated
      else loadSegment p root data (readPhdr data off)

/-- The mapping pass. -/
def mapSegments (ehdr : Ehdr) : LoadM Unit :=
  (List.range ehdr.ePhnum).forM (loadHeader p root data ehdr)

/-- The list of pages is dropped at the end of a load. -/
def Loader.drop (s : Loader) : Loader :=
  { s with arena := s.pages.releaseMetadata s.arena, pages := LoadedPages.new }

/-- `load_with_injection`. -/
def loadWithInjection (s : Loader) : Loader × Except Stop ℕ :=
  match parseEhdr data with
  | .error e => (s, .error (.error e))
  | .ok ehdr =>
    match validate data ehdr with
    | .error e => (s, .error (.error e))
    | .ok () =>
      match mapSegments p root data ehdr { s with pages := LoadedPages.new } with
      | .ok () s => (s.drop, .ok ehdr.eEntry)
      | .error (.error e) s => (s.drop, .error (.error e))
      | .error .fault s => (s, .error .fault)

end

/-- The state a load starts in. -/
def Loader.start (m : Mach) (a : Arena) (i : LoadFailureInjection) : Loader :=
  ⟨m, a, LoadedPages.new, i, [], []⟩

end Vibix.Elf
