import Vibix.Lib.TryFor
import Vibix.Paging.Walk

/-! # Constructing and destroying address spaces

`create_pml4_inner` and everything it calls, as the source computes it:

* `provisionKernelScratch`, `cleanupKernelScratch`: the transient tables of the scratch mapping in
  the active root;
* `copyUserPageThroughScratch`: one user page copied through that mapping;
* `destroyUncommittedPml4`: giving back what a root owns;
* `createPml4Inner`: the constructor with its three nested loops.  A failure inside the loops
  is `false`; all of them end in the same rollback, which the source repeats at each exit.

Everything that accesses memory through a virtual address returns `none` when the processor's walk
faults, and so does every function that uses it. -/

namespace Vibix.Paging

/-- The scratch address has PDPT index 1; its other indices are 0. -/
def scratchIndex : Fin 512 := 1

/-- `ScratchProvision`: the frames newly linked under the active root, `0` for borrowed ones. -/
structure ScratchProvision where
  newPd : ℕ
  newPt : ℕ

/-- All entries of the table at `t` are zero. -/
def tableEmpty (m : Mach) (t : ℕ) : Bool := decide (∀ x, m.mem t x = 0#64)

/-- Unlink and free a scratch table at entry `x` of `t`, if it was allocated by this call. -/
def unlinkScratch (p : PmmAllocator) (m : Mach) (t : ℕ) (x : Fin 512) (new : ℕ) : Mach :=
  if new ≠ 0 then (m.write t x 0#64).free p new else m

/-- One level of the scratch walk, entry `x` of `t`: a table is allocated if there is none,
a huge page is refused, an existing table is borrowed. -/
def linkScratch (p : PmmAllocator) (m : Mach) (t : ℕ) (x : Fin 512) : Mach × Option ℕ :=
  let e := m.mem t x
  if !present e then
    let r := p.alloc m.bitmap
    let m := { m with bitmap := r.1 }
    if r.2 = 0 then (m, none) else ((m.zero r.2).write t x (mkEntry r.2 pageKernel), some r.2)
  else if huge e then (m, none)
  else (m, some 0)

/-- `provision_kernel_scratch`: the PD, the PT and the check that the scratch leaf is unused; what
was linked is unlinked again when a later step fails. -/
def provisionKernelScratch (p : PmmAllocator) (m : Mach) : Mach × Option ScratchProvision :=
  let e4 := m.mem m.cr3 0
  if !present e4 || huge e4 then (m, none)
  else
    let l3 := entryAddr e4
    match linkScratch p m l3 scratchIndex with
    | (m, none) => (m, none)
    | (m, some newPd) =>
      let l2 := entryAddr (m.mem l3 scratchIndex)
      match linkScratch p m l2 0 with
      | (m, none) => (unlinkScratch p m l3 scratchIndex newPd, none)
      | (m, some newPt) =>
        if m.mem (entryAddr (m.mem l2 0)) 0 ≠ 0#64 then
          (unlinkScratch p (unlinkScratch p m l2 0 newPt) l3 scratchIndex newPd, none)
        else (m, some ⟨newPd, newPt⟩)

/-- Unlink and free the table behind entry `x` of `t` if it is the provisioned one and empty. -/
def reclaimScratch (p : PmmAllocator) (m : Mach) (t : ℕ) (x : Fin 512) (new : ℕ) : Mach :=
  let e := m.mem t x
  if new ≠ 0 ∧ entryAddr e = new ∧ huge e = false ∧ tableEmpty m (entryAddr e) then
    (m.write t x 0#64).free p new
  else m

/-- `cleanup_kernel_scratch`. -/
def cleanupKernelScratch (p : PmmAllocator) (m : Mach) (prov : ScratchProvision) : Mach :=
  if prov.newPd = 0 ∧ prov.newPt = 0 then m
  else
    let e4 := m.mem m.cr3 0
    if !present e4 || huge e4 then m
    else
      let l3 := entryAddr e4
      let e3 := m.mem l3 scratchIndex
      if !present e3 || huge e3 then m
      else
        let m := reclaimScratch p m (entryAddr e3) 0 prov.newPt
        reclaimScratch p m l3 scratchIndex prov.newPd

/-- `kernel_scratch_pte`: the table that holds the scratch leaf. -/
def kernelScratchPte (m : Mach) : Option ℕ :=
  let e4 := m.mem m.cr3 0
  if !present e4 || huge e4 then none
  else
    let e3 := m.mem (entryAddr e4) scratchIndex
    if !present e3 || huge e3 then none
    else
      let e2 := m.mem (entryAddr e3) 0
      if !present e2 || huge e2 then none else some (entryAddr e2)

/-- Copy the page at virtual address `src` to the page at `dst`, both page aligned. -/
def copyPage (m : Mach) (src dst : ℕ) : Option Mach :=
  match walk m.mem m.cr3 src, walk m.mem m.cr3 dst with
  | some a, some b => some { m with mem := m.mem.setFrame b (m.mem a) }
  | _, _ => none

/-- `copy_user_page_through_scratch`. -/
def copyUserPageThroughScratch (m : Mach) (src child : ℕ) : Option (Mach × Bool) :=
  match kernelScratchPte m with
  | none => some (m, false)
  | some t =>
    if present (m.mem t 0) then some (m, false)
    else
      match copyPage (m.write t 0 (mkEntry child pageKernel)) src kernelScratchVa with
      | none => none
      | some m => some (m.write t 0 0#64, true)

/-! ### Destruction -/

/-- The frames that destroying a PT gives back, in the order of the source. -/
def ptFrames (m : Mach) (pt : ℕ) : List ℕ :=
  ((List.finRange 512).filter fun k => present (m.mem pt k) && user (m.mem pt k)).map
    (fun k => entryAddr (m.mem pt k)) ++ [pt]

/-- What one PD entry gives back. -/
def pdeFrames (m : Mach) (i : Fin 512) (pd : ℕ) (j : Fin 512) : List ℕ :=
  let e := m.mem pd j
  if !present e then []
  else if pdVaddr i j < userCodeAddr then []
  else if huge e then (if user e then [entryAddr e] else [])
  else ptFrames m (entryAddr e)

/-- What one PDPT entry gives back. -/
def pdpteFrames (m : Mach) (pdpt : ℕ) (i : Fin 512) : List ℕ :=
  let e := m.mem pdpt i
  if !present e || huge e then []
  else (List.finRange 512).flatMap (pdeFrames m i (entryAddr e)) ++ [entryAddr e]

/-- All frames that destroying a root with `owns_user_leaves` gives back. -/
def destroyFrames (m : Mach) (root : ℕ) : List ℕ :=
  let e := m.mem root 0
  if !present e then [root]
  else (List.finRange 512).flatMap (pdpteFrames m (entryAddr e)) ++ [entryAddr e, root]

/-- `destroy_uncommitted_pml4` with `owns_user_leaves`: it only reads the tables and frees. -/
def destroyUncommittedPml4 (p : PmmAllocator) (m : Mach) (root : ℕ) : Mach :=
  (destroyFrames m root).foldl (fun m f => m.free p f) m

/-! ### Construction -/

/-- The state of the constructor's loops: the machine and `cloned_leaves`. -/
abbrev CloneState := Mach × ℕ

/-- One iteration of the innermost loop: share a kernel entry or clone a user leaf. -/
def cloneLeaf (p : PmmAllocator) (failAfter : Option ℕ) (srcPt newPt vaddr : ℕ) (k : Fin 512)
    (s : CloneState) : Option (CloneState × Bool) :=
  let srcPte := s.1.mem srcPt k
  if !present srcPte || !user srcPte then some ((s.1.write newPt k srcPte, s.2), true)
  else if failAfter = some s.2 then some (s, false)
  else
    let r := p.alloc s.1.bitmap
    let m := { s.1 with bitmap := r.1 }
    if r.2 = 0 then some ((m, s.2), false)
    else
      match copyUserPageThroughScratch m (vaddr + k * 0x1000) r.2 with
      | none => none
      | some (m, false) => some ((m.free p r.2, s.2), false)
      | some (m, true) =>
        some ((m.write newPt k (mkEntry r.2 (srcPte &&& ~~~addrMask)), s.2 + 1), true)

/-- Allocate, zero and publish a table in entry `x` of `t`. -/
def publishTable (p : PmmAllocator) (m : Mach) (t : ℕ) (x : Fin 512) (flags : BitVec 64) :
    Mach × ℕ :=
  let r := p.alloc m.bitmap
  let m := { m with bitmap := r.1 }
  if r.2 = 0 then (m, 0) else ((m.zero r.2).write t x (mkEntry r.2 flags), r.2)

/-- One iteration of the PD loop. -/
def copyPde (p : PmmAllocator) (copyUser : Bool) (failAfter : Option ℕ) (i : Fin 512)
    (srcPd newPd : ℕ) (j : Fin 512) (s : CloneState) : Option (CloneState × Bool) :=
  let srcPde := s.1.mem srcPd j
  let vaddr := pdVaddr i j
  if !present srcPde then some (s, true)
  else if copyUser && huge srcPde && user srcPde && decide (userCodeAddr < vaddr + 2 ^ 21) then
    some (s, false)
  else if decide (userCodeAddr ≤ vaddr) && !copyUser then some (s, true)
  else if copyUser && decide (userCodeAddr ≤ vaddr) && !huge srcPde then
    let r := publishTable p s.1 newPd j (srcPde &&& ~~~addrMask)
    if r.2 = 0 then some ((r.1, s.2), false)
    else tryFor (cloneLeaf p failAfter (entryAddr srcPde) r.2 vaddr) (List.finRange 512) (r.1, s.2)
  else if copyUser && decide (userCodeAddr ≤ vaddr) && huge srcPde then
    if user srcPde then some (s, false) else some ((s.1.write newPd j srcPde, s.2), true)
  else some ((s.1.write newPd j srcPde, s.2), true)

/-- One iteration of the PDPT loop. -/
def copyPdpte (p : PmmAllocator) (copyUser : Bool) (failAfter : Option ℕ) (srcPdpt newPdpt : ℕ)
    (i : Fin 512) (s : CloneState) : Option (CloneState × Bool) :=
  let srcPdpte := s.1.mem srcPdpt i
  let base := i.val * 2 ^ 30
  if !present srcPdpte then some (s, true)
  else if overlapsKernelScratch base (base + 2 ^ 30) then some (s, true)
  else if huge srcPdpte then
    if copyUser && user srcPdpte && decide (userCodeAddr < base + 2 ^ 30) then some (s, false)
    else if decide (userCodeAddr ≤ base) && !copyUser then some (s, true)
    else some ((s.1.write newPdpt i (freshHuge srcPdpte), s.2), true)
  else
    let r := publishTable p s.1 newPdpt i (tableFlags srcPdpte)
    if r.2 = 0 then some ((r.1, s.2), false)
    else tryFor (copyPde p copyUser failAfter i (entryAddr srcPdpte) r.2) (List.finRange 512)
      (r.1, s.2)

/-- Copy `PML4[1..511]` into the fresh root. -/
def copyKernelEntries (m : Mach) (newL4 : ℕ) : Mach :=
  { m with mem := m.mem.setFrame newL4 fun x => if x = 0 then 0#64 else m.mem m.cr3 x }

/-- Fill the fresh root: the private tables under `PML4[0]`. -/
def fillPml4 (p : PmmAllocator) (copyUser : Bool) (failAfter : Option ℕ) (m : Mach)
    (newL4 : ℕ) : Option (Mach × Bool) :=
  let m := copyKernelEntries m newL4
  let srcPml4e0 := m.mem m.cr3 0
  if !present srcPml4e0 then some (m, true)
  else
    let r := publishTable p m newL4 0 (tableFlags srcPml4e0)
    if r.2 = 0 then some (r.1, false)
    else
      (tryFor (copyPdpte p copyUser failAfter (entryAddr srcPml4e0) r.2) (List.finRange 512)
        (r.1, 0)).map fun s => (s.1.1, s.2)

/-- Undo the scratch provisioning, if there was one. -/
def cleanupOptional (p : PmmAllocator) (m : Mach) : Option ScratchProvision → Mach
  | none => m
  | some prov => cleanupKernelScratch p m prov

/-- The constructor once the scratch mapping is provisioned. -/
def createWithScratch (p : PmmAllocator) (copyUser : Bool) (failAfter : Option ℕ)
    (prov : Option ScratchProvision) (m : Mach) : Option (Mach × Option ℕ) :=
  let r := p.alloc m.bitmap
  let m := { m with bitmap := r.1 }
  if r.2 = 0 then some (cleanupOptional p m prov, none)
  else
    match fillPml4 p copyUser failAfter (m.zero r.2) r.2 with
    | none => none
    | some (m, false) => some (cleanupOptional p (destroyUncommittedPml4 p m r.2) prov, none)
    | some (m, true) => some (cleanupOptional p m prov, some r.2)

/-- `create_pml4_inner`: the new root, or `none` when construction failed.  The outer option
is `none` if the processor faults. -/
def createPml4Inner (p : PmmAllocator) (m : Mach) (copyUser : Bool) (failAfter : Option ℕ) :
    Option (Mach × Option ℕ) :=
  if copyUser then
    match provisionKernelScratch p m with
    | (m, none) => some (m, none)
    | (m, some prov) => createWithScratch p copyUser failAfter (some prov) m
  else createWithScratch p copyUser failAfter none m

/-- `create_pml4`. -/
def createPml4 (p : PmmAllocator) (m : Mach) (copyUser : Bool) : Option (Mach × Option ℕ) :=
  createPml4Inner p m copyUser none

end Vibix.Paging
