import Vibix.Lib.FrameTree
import Vibix.Mem
import Vibix.Paging.Entry
import Vibix.Pmm

/-! # Page-table walks

The machine state the paging code works on, the walks through a page-table tree, and the two
notions of tree used throughout:

* `walk` is the walk of the processor (4 KiB, 2 MiB and 1 GiB pages); a kernel access through a
  virtual address it does not map faults.  `CR0.WP` is never set, so kernel writes only need the
  page to be present.
* `translateInPml4` is the walk of the source, which does not know about 1 GiB pages.
* `tableOf` makes a root the tree of all its tables (`PML4`, `PDPT`, `PD`, `PT`).
* `ownedBy` makes a root the tree of the frames it owns by the kernel's ownership discipline: the
  tables under `PML4[0]`, except those that map addresses below `USER_CODE_ADDR`, and the user
  leaves under them. -/

namespace Vibix.Paging

/-- `USER_CODE_ADDR`. -/
def userCodeAddr : ℕ := 0x2000000

/-- `KERNEL_SCRATCH_VA`. -/
def kernelScratchVa : ℕ := 0x40000000

/-- `overlaps_kernel_scratch`. -/
def overlapsKernelScratch (start stop : ℕ) : Bool :=
  start < kernelScratchVa + 0x1000 && stop > kernelScratchVa

/-- Physical memory, the PMM bitmap and the active root (`CR3`). -/
structure Mach where
  mem : PhysMem
  bitmap : Bitmap
  cr3 : ℕ

/-- Overwrite entry `x` of the table at `t`. -/
def Mach.write (m : Mach) (t : ℕ) (x : Fin 512) (e : BitVec 64) : Mach :=
  { m with mem := m.mem.setSlot t x e }

/-- `pmm.free`. -/
def Mach.free (m : Mach) (p : PmmAllocator) (f : ℕ) : Mach :=
  { m with bitmap := p.free m.bitmap f }

/-- Zero the frame `f`. -/
def Mach.zero (m : Mach) (f : ℕ) : Mach := { m with mem := m.mem.setFrame f fun _ => 0#64 }

/-- The PML4 index of an address. -/
def l4Index (v : ℕ) : Fin 512 := ⟨v / 2 ^ 39 % 512, Nat.mod_lt _ (by norm_num)⟩
/-- The PDPT index of an address. -/
def l3Index (v : ℕ) : Fin 512 := ⟨v / 2 ^ 30 % 512, Nat.mod_lt _ (by norm_num)⟩
/-- The PD index of an address. -/
def l2Index (v : ℕ) : Fin 512 := ⟨v / 2 ^ 21 % 512, Nat.mod_lt _ (by norm_num)⟩
/-- The PT index of an address. -/
def l1Index (v : ℕ) : Fin 512 := ⟨v / 2 ^ 12 % 512, Nat.mod_lt _ (by norm_num)⟩

/-- The addresses an access can be made at. -/
def canonical (v : ℕ) : Bool := v < 2 ^ 47 || 2 ^ 64 - 2 ^ 47 ≤ v

/-- The first address under PDPT entry `i` and PD entry `j` of `PML4[0]`. -/
def pdVaddr (i j : Fin 512) : ℕ := i * 2 ^ 30 + j * 2 ^ 21

/-- `translate_in_pml4`. -/
def translateInPml4 (mem : PhysMem) (v root : ℕ) : Option ℕ :=
  let l4e := mem root (l4Index v)
  if !present l4e then none
  else
    let l3e := mem (entryAddr l4e) (l3Index v)
    if !present l3e then none
    else
      let l2e := mem (entryAddr l3e) (l2Index v)
      if !present l2e then none
      else if huge l2e then some (entryAddr l2e ||| v % 2 ^ 21)
      else
        let l1e := mem (entryAddr l2e) (l1Index v)
        if !present l1e then none else some (entryAddr l1e ||| v % 2 ^ 12)

/-- The walk of the processor: the physical address of `v` under `root`. -/
def walk (mem : PhysMem) (root v : ℕ) : Option ℕ :=
  let l4e := mem root (l4Index v)
  if !present l4e then none
  else
    let l3e := mem (entryAddr l4e) (l3Index v)
    if !present l3e then none
    else if huge l3e then some (entryAddr l3e / 2 ^ 30 * 2 ^ 30 + v % 2 ^ 30)
    else
      let l2e := mem (entryAddr l3e) (l2Index v)
      if !present l2e then none
      else if huge l2e then some (entryAddr l2e / 2 ^ 21 * 2 ^ 21 + v % 2 ^ 21)
      else
        let l1e := mem (entryAddr l2e) (l1Index v)
        if !present l1e then none else some (entryAddr l1e + v % 2 ^ 12)

/-! ### The two trees of a root -/

/-- Which entries lead to a table. -/
def tableOf : List (Fin 512) → Fin 512 → BitVec 64 → Option ℕ
  | [], _, e => if present e then some (entryAddr e) else none
  | [_], _, e => if present e && !huge e then some (entryAddr e) else none
  | [_, _], _, e => if present e && !huge e then some (entryAddr e) else none
  | _, _, _ => none

/-- Which entries own a frame: the tables under `PML4[0]`, below the PD only for addresses from
`USER_CODE_ADDR` on, and the user leaves. -/
def ownedBy : List (Fin 512) → Fin 512 → BitVec 64 → Option ℕ
  | [], x, e => if x = 0 ∧ present e then some (entryAddr e) else none
  | [_], _, e => if present e && !huge e then some (entryAddr e) else none
  | [i, _], j, e =>
    if userCodeAddr ≤ pdVaddr i j ∧ (present e && !huge e) then some (entryAddr e) else none
  | [_, _, _], _, e => if present e && user e then some (entryAddr e) else none
  | _, _, _ => none

/-- The tables of a root. -/
abbrev tables (mem : PhysMem) (root : ℕ) : Set ℕ := FrameTree.footprint tableOf mem root

/-- The frames a root owns. -/
abbrev owned (mem : PhysMem) (root : ℕ) : Set ℕ := FrameTree.footprint ownedBy mem root

end Vibix.Paging
