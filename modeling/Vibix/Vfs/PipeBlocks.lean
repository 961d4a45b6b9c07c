import Vibix.KmmClient
import Vibix.Lib.Lease

/-! # The blocks of pipes

A pipe is three blocks of the kernel heap: the buffer (`PipeBuf`, 4120 bytes) and a vnode (56 bytes)
for each end, which points to the buffer.  The buffer counts its ends; `pipe_close` frees the vnode,
and with the last end the buffer.  Here these blocks are in memory: the words of a vnode that
`pipe_close` reads are at offsets 0 (`ops`) and 40 (`data`), the count of a buffer at offset 4112.

`PipeHeap` is the heap with a log of the blocks that the pipe code allocates and frees.  `Writes p m`
says that only the payload of one block is stored to, which is all that filling the blocks of a pipe
does (`writes_zero`, `writes_setRefcount`, `writes_setVnode`). -/

namespace Vibix.Vfs

/-- The addresses of `PIPE_READ_OPS` and `PIPE_WRITE_OPS`. -/
structure PipeOps where
  read : BitVec 64
  write : BitVec 64
  ne : read ≠ write

/-- `size_of::<PipeBuf>()`. -/
def pipeBufBytes : ℕ := 4120
/-- `size_of::<Vnode>()`. -/
def vnodeBytes : ℕ := 56

/-- The heap.  The log is not state of the kernel: it has the blocks of the pipe code. -/
structure PipeHeap where
  heap : HeapSystem
  log : LeaseLog ℕ

namespace PipeHeap

/-- `(*vnode).ops`. -/
def ops (h : PipeHeap) (vnode : ℕ) : BitVec 64 := h.heap.word vnode

/-- `(*vnode).data`. -/
def data (h : PipeHeap) (vnode : ℕ) : ℕ := (h.heap.word (vnode + 40)).toNat

/-- `(*pb).refcount`: the low half of a word. -/
def refcount (h : PipeHeap) (pb : ℕ) : BitVec 32 := (h.heap.word (pb + 4112)).setWidth 32

/-- Store a word. -/
def put (h : PipeHeap) (a : ℕ) (v : BitVec 64) : PipeHeap := { h with heap := h.heap.put a v }

/-- `(*pb).refcount = v`; the padding keeps its bytes. -/
def setRefcount (h : PipeHeap) (pb : ℕ) (v : BitVec 32) : PipeHeap :=
  h.put (pb + 4112) ((h.heap.word (pb + 4112)).extractLsb' 32 32 ++ v)

/-- `write_bytes(ptr, 0, n)`, for a whole number of words. -/
def zero (h : PipeHeap) (ptr n : ℕ) : PipeHeap :=
  (List.range (n / 8)).foldl (fun h k => h.put (ptr + 8 * k) 0#64) h

/-- `*vnode = Vnode { … }` for the end of a pipe: `ops`, `mode`, `ino`, `size`, `fs_type`, `data`,
`mount`. -/
def setVnode (h : PipeHeap) (vnode : ℕ) (ops : BitVec 64) (pb : ℕ) : PipeHeap :=
  ((((((h.put vnode ops).put (vnode + 8) 0o020600#64).put (vnode + 16) 0#64).put (vnode + 24)
    0#64).put (vnode + 32) 1#64).put (vnode + 40) (BitVec.ofNat 64 pb)).put (vnode + 48) 0#64

/-- `kmalloc`, by the pipe code. -/
def kmalloc (h : PipeHeap) (size : ℕ) : Option (PipeHeap × ℕ) :=
  (h.heap.alloc size).map fun r => (⟨r.1, if r.2 = 0 then h.log else h.log.issue r.2⟩, r.2)

/-- `kfree`, by the pipe code. -/
def kfree (h : PipeHeap) (ptr : ℕ) : Option PipeHeap :=
  (h.heap.free ptr).map fun heap => ⟨heap, h.log.giveBack ptr⟩

/-- `pipe_close`. -/
def pipeClose (h : PipeHeap) (vnode : ℕ) : Option PipeHeap :=
  let pb := h.data vnode
  let count := h.refcount pb - 1
  match (h.setRefcount pb count).kfree vnode with
  | none => none
  | some h => if count = 0 then h.kfree pb else some h

/-- The vnode belongs to a pipe. -/
def IsEnd (ops : PipeOps) (h : PipeHeap) (vnode : ℕ) : Prop :=
  h.ops vnode = ops.read ∨ h.ops vnode = ops.write

instance (ops : PipeOps) (h : PipeHeap) (vnode : ℕ) : Decidable (IsEnd ops h vnode) :=
  inferInstanceAs (Decidable (_ ∨ _))

/-- The close operation of a vnode.  Those of the terminal, of devices and of directories do
nothing. -/
def close (ops : PipeOps) (h : PipeHeap) (vnode : ℕ) : Option PipeHeap :=
  if IsEnd ops h vnode then h.pipeClose vnode else some h

/-- The first steps of `sys_pipe`: the buffer and the two vnodes, or none of them (`ENOMEM`). -/
def allocBlocks (ops : PipeOps) (h : PipeHeap) : Option (PipeHeap × Option (ℕ × ℕ × ℕ)) :=
  match h.kmalloc pipeBufBytes with
  | none => none
  | some (h, pb) =>
    if pb = 0 then some (h, none)
    else
      match ((h.zero pb pipeBufBytes).setRefcount pb 2).kmalloc vnodeBytes with
      | none => none
      | some (h, rvn) =>
        if rvn = 0 then (h.kfree pb).map fun h => (h, none)
        else
          match ((h.zero rvn vnodeBytes).setVnode rvn ops.read pb).kmalloc vnodeBytes with
          | none => none
          | some (h, wvn) =>
            if wvn = 0 then ((h.kfree pb).bind (·.kfree rvn)).map fun h => (h, none)
            else some ((h.zero wvn vnodeBytes).setVnode wvn ops.write pb, some (pb, rvn, wvn))

/-! ### Stores to a block -/

/-- From `h` to `h'` only the block of `n` bytes at `p` was written to. -/
def Writes (p n : ℕ) (h h' : PipeHeap) : Prop :=
  ∃ mem : PhysMem, h' = ⟨⟨{ h.heap.heap with mem := mem }, h.heap.live⟩, h.log⟩ ∧
    ∀ a, a % 8 = 0 → a < p ∨ p + n ≤ a → mem.readWord a = h.heap.word a

section Writes

variable {h h₁ h₂ : PipeHeap} {p n a pb : ℕ}

theorem word_put (w : BitVec 64) {b : ℕ} :
    (h.put a w).heap.word b = if a / 8 = b / 8 then w else h.heap.word b :=
  HeapSystem.word_put w

theorem Writes.refl : Writes p n h h := ⟨_, rfl, fun _ _ _ => rfl⟩

theorem Writes.trans (h₁₂ : Writes p n h h₁) (h₂₃ : Writes p n h₁ h₂) : Writes p n h h₂ := by
  obtain ⟨mem₁, rfl, hmem₁⟩ := h₁₂
  obtain ⟨mem₂, rfl, hmem₂⟩ := h₂₃
  exact ⟨mem₂, rfl, fun a ha hout => (hmem₂ a ha hout).trans (hmem₁ a ha hout)⟩

theorem Writes.word (hw : Writes p n h h₁) (ha : a % 8 = 0) (hout : a < p ∨ p + n ≤ a) :
    h₁.heap.word a = h.heap.word a := by
  obtain ⟨mem, rfl, hmem⟩ := hw
  exact hmem a ha hout

theorem Writes.live (hw : Writes p n h h₁) : h₁.heap.live = h.heap.live := by
  obtain ⟨mem, rfl, -⟩ := hw
  rfl

theorem writes_put (hp : p % 8 = 0) (hpa : p ≤ a) (han : a < p + n) (w : BitVec 64) :
    Writes p n h (h.put a w) := by
  refine ⟨_, rfl, fun b hb hout => ?_⟩
  rw [PhysMem.readWord_writeWord, if_neg (by omega)]
  rfl

theorem writes_zero (hp : p % 8 = 0) : Writes p n h (h.zero p n) := by
  unfold PipeHeap.zero
  have hall : ∀ l : List ℕ, (∀ k ∈ l, 8 * k < n) → ∀ h : PipeHeap,
      Writes p n h (l.foldl (fun h k => h.put (p + 8 * k) 0#64) h) := by
    intro l
    induction l with
    | nil => exact fun _ h => .refl
    | cons k l ih =>
      intro hl h
      rw [List.forall_mem_cons] at hl
      exact (writes_put hp (by omega) (by omega) _).trans (ih hl.2 _)
  refine hall _ (fun k hk => ?_) h
  rw [List.mem_range] at hk
  omega

theorem writes_setRefcount (hp : p % 8 = 0) (c : BitVec 32) :
    Writes p pipeBufBytes h (h.setRefcount p c) :=
  writes_put hp (by omega) (by simp [pipeBufBytes]) _

theorem writes_setVnode (hp : p % 8 = 0) (w : BitVec 64) :
    Writes p vnodeBytes h (h.setVnode p w pb) := by
  have hput : ∀ (h : PipeHeap) (k : ℕ) (w : BitVec 64), k < 56 →
      Writes p vnodeBytes h (h.put (p + k) w) := fun h k w hk =>
    writes_put hp (by omega) (by simpa [vnodeBytes] using hk) w
  unfold PipeHeap.setVnode
  refine .trans ?_ (hput _ 48 _ (by norm_num))
  refine .trans ?_ (hput _ 40 _ (by norm_num))
  refine .trans ?_ (hput _ 32 _ (by norm_num))
  refine .trans ?_ (hput _ 24 _ (by norm_num))
  refine .trans ?_ (hput _ 16 _ (by norm_num))
  refine .trans ?_ (hput _ 8 _ (by norm_num))
  exact hput _ 0 _ (by norm_num)

theorem refcount_setRefcount (c : BitVec 32) :
    (h.setRefcount p c).refcount p = c := by
  rw [PipeHeap.refcount, PipeHeap.setRefcount, word_put, if_pos rfl]
  exact BitVec.setWidth_append_eq_right

/-- What is read from a vnode that was just stored. -/
theorem setVnode_words (hp : p % 8 = 0) (w : BitVec 64) {pb : ℕ} (hpb : pb < 2 ^ 64) :
    (h.setVnode p w pb).ops p = w ∧ (h.setVnode p w pb).data p = pb := by
  simp only [PipeHeap.ops, PipeHeap.data, PipeHeap.setVnode, word_put]
  constructor
  · simp (disch := omega) only [if_neg, if_true]
  · simp (disch := omega) only [if_neg, if_true]
    rw [BitVec.toNat_ofNat, Nat.mod_eq_of_lt hpb]

end Writes

/-- A word in the payload of a live block. -/
theorem untouched_of_live {h : PipeHeap} {p m : ℕ} (hrep : h.heap.Represented) (hp : (p, m) ∈ h.heap.live) {k : ℕ}
    (hk : k < m) (hmod : k % 8 = 0) : h.heap.Untouched (p + k) := by
  have hpmod := (hrep.live_ok hp).1
  exact ⟨by omega, .inl ⟨_, hp, by simp, by simpa using hk⟩⟩

end PipeHeap

end Vibix.Vfs
