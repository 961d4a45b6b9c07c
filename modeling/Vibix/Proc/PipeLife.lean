import Vibix.Proc.Holdings
import Vibix.Vfs.PipeBlocks

/-! # The calls on pipes, with their blocks

The process side of the kernel together with the blocks of its pipes (`World`): `sys_pipe` with its
error exits, and `oft_decref` with the close operation that it runs.  On the process side they do what
`Proc.sysPipe` and `OpenFileTable.oftDecref` do (`publish_sys`, `oftDecref_sys`). -/

namespace Vibix.Proc

open Vfs RefCount OpenFileTable PipeHeap

/-- The process side of the kernel, and the blocks of the pipes. -/
structure World where
  sys : System
  pipes : PipeHeap

namespace World

/-- `oft_decref`, with the close operation. -/
def oftDecref (ops : PipeOps) (w : World) (i : ℕ) : Option World :=
  match w.sys.oft.get i with
  | none => some w
  | some file =>
    -- the close operation runs before the entry is freed
    let closed := if file.refcount - 1 = 0 ∧ file.vnode.closes = true then
      w.pipes.close ops file.vnode.addr else some w.pipes
    closed.map fun pipes => ⟨{ w.sys with oft := w.sys.oft.oftDecref i }, pipes⟩

/-- `sys_pipe` from the point where the three blocks exist. -/
def publish (ops : PipeOps) (w : World) (pb rvn wvn : ℕ) : Option (Except Halt (World × ℤ)) :=
  match w.sys.oft.oftAlloc ⟨rvn, none, true⟩ 0 0o600 with
  | none =>
    (((w.pipes.kfree pb).bind (·.kfree rvn)).bind (·.kfree wvn)).map fun pipes =>
      .ok (⟨w.sys, pipes⟩, -enfile)
  | some (oft, readIdx) =>
    match oft.oftAlloc ⟨wvn, none, true⟩ 1 0o600 with
    | none =>
      -- the close operation has freed the vnode of the read end
      (oftDecref ops ⟨{ w.sys with oft := oft }, w.pipes⟩ readIdx).bind fun w =>
        ((w.pipes.kfree pb).bind (·.kfree wvn)).map fun pipes => .ok (⟨w.sys, pipes⟩, -enfile)
    | some (oft, writeIdx) =>
      match w.sys.current with
      | none => some (.error .notFound)
      | some (i, q) =>
        let sys : System := { w.sys with oft := oft }
        let giveUp (sys : System) : Option (Except Halt (World × ℤ)) :=
          ((oftDecref ops ⟨sys, w.pipes⟩ readIdx).bind fun w => oftDecref ops w writeIdx).map
            fun w => .ok (w, -emfile)
        match firstFree q.fds with
        | none => giveUp sys
        | some readFd =>
          let q' := q.setFd readFd (some readIdx)
          match firstFree q'.fds with
          | none => giveUp (sys.put i (q'.setFd readFd none))
          | some writeFd => some (.ok (⟨sys.put i (q'.setFd writeFd (some writeIdx)), w.pipes⟩, 0))

/-- `sys_pipe`. -/
def sysPipe (ops : PipeOps) (w : World) (pipefd : ℕ) : Option (Except Halt (World × ℤ)) :=
  if pipefd = 0 then some (.ok (w, -einval))
  else
    match w.pipes.allocBlocks ops with
    | none => none
    | some (pipes, none) => some (.ok (⟨w.sys, pipes⟩, -enomem))
    | some (pipes, some (pb, rvn, wvn)) => publish ops ⟨w.sys, pipes⟩ pb rvn wvn

section Steps

variable {ops : PipeOps} {w w' : World}

theorem oftDecref_sys {i : ℕ} (h : oftDecref ops w i = some w') :
    w'.sys = { w.sys with oft := w.sys.oft.oftDecref i } := by
  unfold oftDecref at h
  split at h
  next hget =>
    cases h
    simp only [OpenFileTable.oftDecref, hget]
  next file hget =>
    obtain ⟨pipes, -, rfl⟩ := Option.map_eq_some_iff.mp h
    rfl

/-- The error exits and the success of `sys_pipe`, on the process side. -/
theorem publish_sys {pb rvn wvn : ℕ} {rc : ℤ}
    (h : publish ops w pb rvn wvn = some (.ok (w', rc))) :
    Proc.sysPipe (some (⟨rvn, none, true⟩, ⟨wvn, none, true⟩)) 1 w.sys = .ok (w'.sys, rc) := by
  unfold publish at h
  simp only [Proc.sysPipe, if_neg one_ne_zero]
  cases halloc : w.sys.oft.oftAlloc ⟨rvn, none, true⟩ 0 0o600 with
  | none =>
    simp only [halloc] at h
    obtain ⟨pipes, -, heq⟩ := Option.map_eq_some_iff.mp h
    cases heq
    rfl
  | some r =>
    obtain ⟨oft, readIdx⟩ := r
    simp only [halloc] at h ⊢
    cases halloc' : oft.oftAlloc ⟨wvn, none, true⟩ 1 0o600 with
    | none =>
      simp only [halloc'] at h
      obtain ⟨w₁, hdec, h⟩ := Option.bind_eq_some_iff.mp h
      obtain ⟨pipes, -, heq⟩ := Option.map_eq_some_iff.mp h
      cases heq
      simp only [oftDecref_sys hdec]
    | some r' =>
      obtain ⟨oft', writeIdx⟩ := r'
      simp only [halloc'] at h ⊢
      cases hcur : w.sys.current with
      | none => simp [hcur] at h
      | some c =>
        obtain ⟨i, q⟩ := c
        simp only [hcur] at h ⊢
        cases hfree : firstFree q.fds with
        | none =>
          simp only [hfree] at h
          obtain ⟨w₂, hdec, heq⟩ := Option.map_eq_some_iff.mp h
          obtain ⟨w₁, hdec₁, hdec₂⟩ := Option.bind_eq_some_iff.mp hdec
          cases heq
          simp only [oftDecref_sys hdec₂, oftDecref_sys hdec₁]
        | some readFd =>
          simp only [hfree] at h ⊢
          cases hfree' : firstFree (q.setFd readFd (some readIdx)).fds with
          | none =>
            simp only [hfree'] at h
            obtain ⟨w₂, hdec, heq⟩ := Option.map_eq_some_iff.mp h
            obtain ⟨w₁, hdec₁, hdec₂⟩ := Option.bind_eq_some_iff.mp hdec
            cases heq
            simp only [oftDecref_sys hdec₂, oftDecref_sys hdec₁]
            rfl
          | some writeFd =>
            simp only [hfree'] at h
            cases h
            rfl

theorem oftDecref_last {i : ℕ} {file : OpenFile} (hget : w.sys.oft.get i = some file)
    (hone : file.refcount = 1) (hcloses : file.vnode.closes = true) :
    oftDecref ops w i = (w.pipes.close ops file.vnode.addr).map fun pipes =>
      ⟨{ w.sys with oft := w.sys.oft.oftDecref i }, pipes⟩ := by
  simp only [oftDecref, hget, hone, hcloses, and_self, ↓reduceIte]

end Steps

end World

end Vibix.Proc
