import Vibix.Lib.Chain
import Vibix.Lib.Tiling
import Vibix.Mem
import Vibix.Pmm

/-! # The kernel heap

The first-fit allocator of `kmm.rs`.  Blocks live in memory: a 24-byte header (`magic`, `size`,
`next`) followed by the payload; free blocks are linked through `next` from `FREE_LIST`.

* **The code.** `init`, `kmalloc` and `kfree` act on the heap's statics and on physical memory,
  field by field and in the order of the source.  The two list walks take fuel and return
  `none` when it runs out, so a corrupted (cyclic) list shows up as a call that never returns.
* **The representation.** `HeapInv s L` says that the heap state `s` stores the tiling `L` of
  `[HEAP_LOW, HEAP_HIGH)`: every cell has its header in memory, the cells tagged free are the
  free list in address order, and no two neighbouring cells are both free.
* **Runs.** `HeapSystem` adds the live pointers with the sizes requested for them; the clients
  may write to the payloads of live blocks at any time.  `HeapSystem.Represented` is kept by every
  step, and the calls terminate in every represented state. -/

namespace Vibix

/-- `MAGIC`. -/
def kmmMagic : BitVec 32 := 0x564B4841#32

/-- `MIN_BLOCK_SIZE`. -/
def minBlockSize : ℕ := 64

/-- `KMALLOC_ALIGN`. -/
def kmallocAlign : ℕ := 8

/-- `HEADER_SIZE`. -/
def headerSize : ℕ := 24

/-- `INITIAL_HEAP_PAGES`. -/
def initialHeapPages : ℕ := 256

/-- The heap: physical memory and the statics `FREE_LIST`, `HEAP_LOW` and `HEAP_HIGH`. -/
structure Kmm where
  mem : PhysMem
  freeList : ℕ
  heapLow : ℕ
  heapHigh : ℕ

namespace Kmm

/-- Word `k` of the header of block `b`. -/
def field (s : Kmm) (b k : ℕ) : BitVec 64 := s.mem.readWord (b + 8 * k)

/-- Overwrite word `k` of the header of block `b`. -/
def setField (s : Kmm) (b k : ℕ) (v : BitVec 64) : Kmm :=
  { s with mem := s.mem.writeWord (b + 8 * k) v }

/-- `(*b).magic`: the low half of the first word. -/
def magic (s : Kmm) (b : ℕ) : BitVec 32 := (s.field b 0).setWidth 32

/-- `(*b).size`. -/
def size (s : Kmm) (b : ℕ) : ℕ := (s.field b 1).toNat

/-- `(*b).next`. -/
def next (s : Kmm) (b : ℕ) : ℕ := (s.field b 2).toNat

/-- `(*b).magic = MAGIC`; the padding above the `u32` keeps its bytes. -/
def setMagic (s : Kmm) (b : ℕ) : Kmm :=
  s.setField b 0 ((s.field b 0).extractLsb' 32 32 ++ kmmMagic)

/-- `(*b).size = v`. -/
def setSize (s : Kmm) (b v : ℕ) : Kmm := s.setField b 1 (BitVec.ofNat 64 v)

/-- `(*b).next = v`. -/
def setNext (s : Kmm) (b v : ℕ) : Kmm := s.setField b 2 (BitVec.ofNat 64 v)

/-- `(*b).end()`. -/
def stop (s : Kmm) (b : ℕ) : ℕ := (b + s.size b) % 2 ^ 64

/-- `init`: the heap is one free block over the initial pages; without memory the statics keep
their zero values. -/
def init (p : PmmAllocator) (bm : Bitmap) (mem : PhysMem) : Bitmap × Kmm :=
  let r := p.allocPages bm initialHeapPages
  let heapSize := initialHeapPages * pmmPageSize
  let s : Kmm := ⟨mem, 0, 0, 0⟩
  if r.2 = 0 then (r.1, s)
  else
    let s := { s with heapLow := r.2, heapHigh := (r.2 + heapSize) % 2 ^ 64 }
    let s := ((s.setMagic r.2).setSize r.2 heapSize).setNext r.2 0
    (r.1, { s with freeList := r.2 })

/-- `size` rounded up to `KMALLOC_ALIGN`, with the header: the block size a request needs. -/
def needed (size : ℕ) : ℕ :=
  (headerSize + (size + kmallocAlign - 1) % 2 ^ 64 / kmallocAlign * kmallocAlign) % 2 ^ 64

/-- The first-fit walk: the first block of at least `n` bytes with its predecessor, a null
block at the end of the list, `none` when the fuel runs out. -/
def findFit (s : Kmm) (n : ℕ) : ℕ → ℕ → ℕ → Option (ℕ × ℕ)
  | 0, _, _ => none
  | fuel + 1, prev, curr =>
    if curr = 0 then some (prev, 0)
    else if n ≤ s.size curr then some (prev, curr)
    else s.findFit n fuel curr (s.next curr)

/-- Store `target` in the link that led to the current block: `FREE_LIST` or `(*prev).next`. -/
def setLink (s : Kmm) (prev target : ℕ) : Kmm :=
  if prev = 0 then { s with freeList := target } else s.setNext prev target

/-- Split `curr`: it keeps `n` bytes, the rest becomes a free block in its place in the list. -/
def splitBlock (s : Kmm) (n prev curr : ℕ) : Kmm :=
  let remainder := s.size curr - n
  let newFree := (curr + n) % 2 ^ 64
  let s := s.setSize curr n
  let s := s.setMagic newFree
  let s := s.setSize newFree remainder
  let s := s.setNext newFree (s.next curr)
  let s := s.setNext curr newFree
  s.setLink prev newFree

/-- Take `curr` out of the list, splitting it if the remainder is worth keeping. -/
def takeBlock (s : Kmm) (n prev curr : ℕ) : Kmm :=
  let s' := if minBlockSize ≤ s.size curr - n then s.splitBlock n prev curr
    else s.setLink prev (s.next curr)
  s'.setMagic curr

/-- `kmalloc`. -/
def kmalloc (fuel : ℕ) (s : Kmm) (size : ℕ) : Option (Kmm × ℕ) :=
  if size = 0 then some (s, 0)
  else
    match s.findFit (needed size) fuel 0 s.freeList with
    | none => none
    | some (prev, curr) =>
      if curr = 0 then some (s, 0)
      else some (s.takeBlock (needed size) prev curr, (curr + headerSize) % 2 ^ 64)

/-- The insertion walk: the first block not below `block`, with its predecessor. -/
def findSpot (s : Kmm) (block : ℕ) : ℕ → ℕ → ℕ → Option (ℕ × ℕ)
  | 0, _, _ => none
  | fuel + 1, prev, curr =>
    if curr ≠ 0 ∧ curr < block then s.findSpot block fuel curr (s.next curr)
    else some (prev, curr)

/-- Join `block` with the next free block, or link it before it. -/
def joinNext (s : Kmm) (block curr : ℕ) : Kmm :=
  if curr ≠ 0 ∧ s.stop block = curr then
    let s := s.setSize block (s.size block + s.size curr)
    s.setNext block (s.next curr)
  else s.setNext block curr

/-- Join `block` with the previous free block, or link it after it. -/
def joinPrev (s : Kmm) (prev block : ℕ) : Kmm :=
  if prev ≠ 0 ∧ s.stop prev = block then
    let s := s.setSize prev (s.size prev + s.size block)
    s.setNext prev (s.next block)
  else s.setLink prev block

/-- `kfree`. -/
def kfree (fuel : ℕ) (s : Kmm) (ptr : ℕ) : Option Kmm :=
  if ptr = 0 then some s
  else
    let block := (ptr + 2 ^ 64 - headerSize) % 2 ^ 64
    if s.magic block ≠ kmmMagic then some s
    else
      match s.findSpot block fuel 0 s.freeList with
      | none => none
      | some (prev, curr) => some ((s.joinNext block curr).joinPrev prev block)

end Kmm

end Vibix
