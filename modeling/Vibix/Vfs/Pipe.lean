import Vibix.Lib.Ring
import Vibix.Lib.Run

/-! # Pipes

`vfs/pipe.rs`: the shared buffer of a pipe and its two operations.  The buffer is a ring of 4096
bytes with two `usize` positions that only ever advance and wrap around at `2 ^ 64`; one byte is
kept empty.

`PipeBuf.Queue` says which bytes are in the buffer, with the rules of `Ring`.  A write appends as
many bytes as there is room for (`pipeWrite_spec`), a read takes as many as there are
(`pipeRead_spec`).  In a `PipeTrace` all bytes accepted and all bytes delivered are remembered, and
over any sequence of operations what was delivered is the beginning of what was accepted
(`pipe_lossless`). -/

namespace Vibix.Vfs

/-- `PIPE_BUF_SIZE`. -/
def pipeBufSize : ℕ := 4096

/-- `PipeBuf`. -/
structure PipeBuf where
  buf : Fin 4096 → BitVec 8
  readOff : BitVec 64
  writeOff : BitVec 64
  refcount : BitVec 32

namespace PipeBuf

/-- A zeroed buffer with one reference for each end. -/
def new : PipeBuf := ⟨fun _ => 0, 0, 0, 2⟩

/-- The number of bytes in the buffer. -/
def used (pb : PipeBuf) : BitVec 64 := pb.writeOff - pb.readOff

/-- The room that is left; the subtractions wrap. -/
def space (pb : PipeBuf) : BitVec 64 := BitVec.ofNat 64 pipeBufSize - 1 - pb.used

/-- Store one byte at the write position and advance it. -/
def put (pb : PipeBuf) (b : BitVec 8) : PipeBuf :=
  { pb with
    buf := fun c => if c = Fin.ofNat 4096 pb.writeOff.toNat then b else pb.buf c
    writeOff := pb.writeOff + 1 }

/-- The byte at the read position. -/
def first (pb : PipeBuf) : BitVec 8 := pb.buf (Fin.ofNat 4096 pb.readOff.toNat)

/-- Advance the read position. -/
def skip (pb : PipeBuf) : PipeBuf := { pb with readOff := pb.readOff + 1 }

end PipeBuf

/-- `pipe_read`: the bytes that are stored to the caller's buffer, and the result. -/
def pipeRead (pb : PipeBuf) (len : BitVec 64) : PipeBuf × List (BitVec 8) × BitVec 64 :=
  let avail := pb.used
  if avail = 0 then (pb, [], 0)
  else
    let toRead := min len.toNat avail.toNat
    let r := (List.range toRead).foldl (fun r _ => (r.1.skip, r.2 ++ [r.1.first])) (pb, [])
    (r.1, r.2, BitVec.ofNat 64 toRead)

/-- `pipe_write`, where `src` are the bytes of the caller's buffer. -/
def pipeWrite (pb : PipeBuf) (src : ℕ → BitVec 8) (len : BitVec 64) : PipeBuf × BitVec 64 :=
  let space := pb.space
  if space = 0 then (pb, 0)
  else
    let toWrite := min len.toNat space.toNat
    ((List.range toWrite).foldl (fun pb i => pb.put (src i)) pb, BitVec.ofNat 64 toWrite)

/-! ### The bytes in the buffer -/

namespace PipeBuf

/-- The buffer holds the bytes `q`, in this order. -/
def Queue (pb : PipeBuf) (q : List (BitVec 8)) : Prop :=
  Ring.Holds 4096 (2 ^ 64) pb.buf pb.readOff.toNat pb.writeOff.toNat q

variable {pb : PipeBuf} {q : List (BitVec 8)} {b : BitVec 8}

theorem size_dvd : 4096 ∣ 2 ^ 64 := ⟨2 ^ 52, by norm_num⟩

theorem Queue.of_empty (h : pb.readOff = pb.writeOff) : pb.Queue [] := by
  unfold Queue
  rw [← h]
  exact .empty pb.readOff.isLt

theorem Queue.length_le (h : pb.Queue q) : q.length ≤ 4095 := Nat.le_of_lt_succ h.length_lt

theorem Queue.used (h : pb.Queue q) : pb.used.toNat = q.length := by
  rw [PipeBuf.used, BitVec.toNat_sub]
  exact Ring.Holds.used h (by norm_num) pb.readOff.isLt

/-- The subtraction for the free space does not wrap. -/
theorem Queue.space (h : pb.Queue q) : pb.space.toNat = 4095 - q.length := by
  have hlen := h.length_le
  have hsub : (BitVec.ofNat 64 pipeBufSize - 1 : BitVec 64) = 4095#64 := by decide
  rw [PipeBuf.space, hsub, BitVec.toNat_sub_of_le]
  · rw [h.used]
    rfl
  · rw [BitVec.le_def, h.used]
    exact hlen

theorem Queue.put (h : pb.Queue q) (hlen : q.length < 4095) : (pb.put b).Queue (q ++ [b]) := by
  unfold Queue
  have hoff : (pb.writeOff + 1).toNat = (pb.writeOff.toNat + 1) % 2 ^ 64 := BitVec.toNat_add _ _
  rw [PipeBuf.put, hoff]
  exact Ring.Holds.push h size_dvd (by omega)

theorem Queue.skip (h : pb.Queue (b :: q)) : pb.first = b ∧ pb.skip.Queue q := by
  unfold Queue
  have hoff : (pb.readOff + 1).toNat = (pb.readOff.toNat + 1) % 2 ^ 64 := BitVec.toNat_add _ _
  rw [PipeBuf.skip, hoff]
  exact Ring.Holds.pop h size_dvd

/-- The loop of a write. -/
theorem Queue.putAll (h : pb.Queue q) (src : ℕ → BitVec 8) {k : ℕ} (hk : q.length + k ≤ 4095) :
    ((List.range k).foldl (fun pb i => pb.put (src i)) pb).Queue (q ++ (List.range k).map src) := by
  induction k with
  | zero => simpa using h
  | succ k ih =>
    rw [List.range_succ, List.foldl_append, List.map_append, ← List.append_assoc]
    refine (ih (by omega)).put ?_
    simp only [List.length_append, List.length_map, List.length_range]
    omega

/-- The loop of a read. -/
theorem Queue.skipAll (h : pb.Queue q) {k : ℕ} (hk : k ≤ q.length) :
    ∃ pb', (List.range k).foldl (fun r _ => (PipeBuf.skip r.1, r.2 ++ [PipeBuf.first r.1])) (pb, []) =
      (pb', q.take k) ∧ pb'.Queue (q.drop k) := by
  induction k with
  | zero => exact ⟨pb, rfl, h⟩
  | succ k ih =>
    obtain ⟨pb', hfold, hq⟩ := ih (by omega)
    rw [List.drop_eq_getElem_cons (by omega)] at hq
    obtain ⟨hfirst, hskip⟩ := hq.skip
    refine ⟨pb'.skip, ?_, hskip⟩
    rw [List.range_succ, List.foldl_append, hfold, List.foldl_cons, List.foldl_nil, hfirst,
      List.take_append_getElem]

end PipeBuf

variable {pb : PipeBuf} {q : List (BitVec 8)}

/-- **A write** appends the bytes there is room for. -/
theorem pipeWrite_spec (h : pb.Queue q) (src : ℕ → BitVec 8) (len : BitVec 64) :
    (pipeWrite pb src len).2.toNat = min len.toNat (4095 - q.length) ∧
      (pipeWrite pb src len).1.Queue
        (q ++ (List.range (pipeWrite pb src len).2.toNat).map src) := by
  have hspace := h.space
  unfold pipeWrite
  dsimp only
  split_ifs with hfull
  · rw [hfull] at hspace
    simpa [← hspace] using h
  · have hmin : (BitVec.ofNat 64 (min len.toNat pb.space.toNat)).toNat =
        min len.toNat (4095 - q.length) := by
      rw [BitVec.toNat_ofNat, hspace, Nat.mod_eq_of_lt (by omega)]
    refine ⟨hmin, ?_⟩
    rw [hmin, hspace]
    have hlen := h.length_le
    exact h.putAll src (by omega)

/-- **A read** takes the first bytes that are there. -/
theorem pipeRead_spec (h : pb.Queue q) (len : BitVec 64) :
    (pipeRead pb len).2.2.toNat = min len.toNat q.length ∧
      (pipeRead pb len).2.1 = q.take (pipeRead pb len).2.2.toNat ∧
      (pipeRead pb len).1.Queue (q.drop (pipeRead pb len).2.2.toNat) := by
  have hused := h.used
  unfold pipeRead
  dsimp only
  split_ifs with hempty
  · rw [hempty] at hused
    simpa [← hused] using h
  · have hlen := h.length_le
    have hmin : (BitVec.ofNat 64 (min len.toNat pb.used.toNat)).toNat =
        min len.toNat q.length := by
      rw [BitVec.toNat_ofNat, hused, Nat.mod_eq_of_lt (by omega)]
    obtain ⟨pb', hfold, hq⟩ := h.skipAll (Nat.min_le_right len.toNat q.length)
    rw [hmin, hused, hfold]
    exact ⟨rfl, rfl, hq⟩

/-! ### Sequences of operations -/

/-- An operation on one of the two ends. -/
inductive PipeOp where
  | write (src : ℕ → BitVec 8) (len : BitVec 64)
  | read (len : BitVec 64)

/-- A pipe with all bytes that were accepted and all that were delivered. -/
structure PipeTrace where
  pipe : PipeBuf
  accepted : List (BitVec 8)
  delivered : List (BitVec 8)

/-- One operation. -/
def PipeTrace.step (s : PipeTrace) : PipeOp → PipeTrace
  | .write src len =>
    let r := pipeWrite s.pipe src len
    ⟨r.1, s.accepted ++ (List.range r.2.toNat).map src, s.delivered⟩
  | .read len =>
    let r := pipeRead s.pipe len
    ⟨r.1, s.accepted, s.delivered ++ r.2.1⟩

/-- The bytes in the buffer are those accepted and not yet delivered. -/
def PipeTrace.Lossless (s : PipeTrace) : Prop :=
  ∃ q, s.pipe.Queue q ∧ s.accepted = s.delivered ++ q

theorem PipeTrace.Lossless.step {s : PipeTrace} (h : s.Lossless) (op : PipeOp) :
    (s.step op).Lossless := by
  obtain ⟨q, hq, hall⟩ := h
  cases op with
  | write src len =>
    obtain ⟨-, hqueue⟩ := pipeWrite_spec hq src len
    generalize hw : pipeWrite s.pipe src len = r at hqueue
    refine ⟨_, by simpa only [PipeTrace.step, hw] using hqueue, ?_⟩
    simp only [PipeTrace.step, hw, hall, List.append_assoc]
  | read len =>
    obtain ⟨-, hbytes, hrest⟩ := pipeRead_spec hq len
    generalize hr : pipeRead s.pipe len = r at hbytes hrest
    refine ⟨_, by simpa only [PipeTrace.step, hr] using hrest, ?_⟩
    simp only [PipeTrace.step, hr, hall, hbytes, List.append_assoc, List.take_append_drop]

/-- **A pipe is a lossless bounded queue**: from any empty buffer, wherever its positions are, over
any sequence of operations. -/
theorem pipe_lossless {pb : PipeBuf} {ops : List PipeOp} {s : PipeTrace}
    (hempty : pb.readOff = pb.writeOff)
    (hrun : Run (fun s op t => PipeTrace.step s op = t) ⟨pb, [], []⟩ ops s) :
    s.pipe.used.toNat ≤ 4095 ∧ s.pipe.space.toNat = 4095 - s.pipe.used.toNat ∧
      (∀ src len, (pipeWrite s.pipe src len).2.toNat =
        min len.toNat (4095 - s.pipe.used.toNat)) ∧
      (∀ len, (pipeRead s.pipe len).2.2.toNat = min len.toNat s.pipe.used.toNat ∧
        (pipeRead s.pipe len).2.1.length = min len.toNat s.pipe.used.toNat) ∧
      s.delivered <+: s.accepted := by
  have hlossless : s.Lossless := by
    refine hrun.invariant ⟨[], .of_empty hempty, rfl⟩ ?_
    rintro t op u ht rfl
    exact ht.step op
  obtain ⟨q, hq, hall⟩ := hlossless
  rw [hq.used, hall]
  refine ⟨hq.length_le, hq.space, fun src len => (pipeWrite_spec hq src len).1, fun len => ?_,
    List.prefix_append _ _⟩
  obtain ⟨hcount, hbytes, -⟩ := pipeRead_spec hq len
  refine ⟨hcount, ?_⟩
  rw [hbytes, hcount, List.length_take, Nat.min_assoc, Nat.min_self]

/-- A buffer whose positions are about to wrap around. -/
def lastPipe : PipeBuf := { PipeBuf.new with readOff := -1, writeOff := -1 }

/-- Two bytes written across the wrap-around and one of them read. -/
theorem pipe_lossless_wrapped :
    ((PipeTrace.step ⟨lastPipe, [], []⟩ (.write (fun i => BitVec.ofNat 8 i) 2)).step
      (.read 1)).delivered <+:
    ((PipeTrace.step ⟨lastPipe, [], []⟩ (.write (fun i => BitVec.ofNat 8 i) 2)).step
      (.read 1)).accepted :=
  (pipe_lossless (show lastPipe.readOff = lastPipe.writeOff from rfl)
    (((Run.nil _).snoc rfl).snoc rfl)).2.2.2.2

end Vibix.Vfs
