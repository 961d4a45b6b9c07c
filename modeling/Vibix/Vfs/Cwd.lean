import Vibix.Vfs.PathBuf

/-! # The working directory

A process has the path of its working directory in a buffer of `PATH_MAX` bytes.  The kernel sets it
to `/` at boot, `fork` copies it, and `chdir` replaces it; `stat` and `chdir` resolve relative paths
against it.  The accesses are checked, as in `Vibix.Vfs.PathBuf`.

`IsCwd` says which buffers a process can have.  Each of them has a zero (`IsCwd.terminated`), and so
no access of the functions below is out of bounds (`vfsResolveRelative_some`, `chdirTo_spec`). -/

namespace Vibix.Vfs

/-- `ENOTDIR`. -/
def enotdir : ℕ := 20
/-- `V_DIR`. -/
def vDir : ℕ := 0o040000
/-- `V_FILE`. -/
def vFile : ℕ := 0o100000
/-- `V_CHR`. -/
def vChr : ℕ := 0o020000

/-- The field `mode`. -/
def VnodeRef.mode : VnodeRef → ℕ
  | rootDir | sbinDir | binDir | etcDir | devDir | devfsRoot => vDir ||| 0o755
  | devNull | devZero | devTty => vChr ||| 0o666
  | file _ _ isDir => if isDir then vDir ||| 0o755 else vFile ||| 0o644

/-- Whether the byte before `pos` is not a slash. -/
def unslashed (buf : PathBuf) (pos : ℕ) : Option Bool := (buf.get (pos - 1)).map (· ≠ slash)

/-- `vfs_resolve_relative`. -/
def FsState.vfsResolveRelative (fs : FsState) (cwd path : Bytes) : Option (Except ℕ VnodeRef) :=
  let finish := fun (buf : PathBuf) (pos : ℕ) =>
    (appendPath buf pos path).bind fun
      | .error e => some (.error e)
      | .ok full => fs.vfsResolveIn full
  if path.head? = some slash then fs.vfsResolveIn path
  else
    (PathBuf.zero.copy 0 cwd).bind fun buf =>
      let pos := cwd.length
      (if pos = 0 then some true else unslashed buf pos).bind fun separate =>
        if separate then
          if pathMax - 1 ≤ pos then some (.error enametoolong)
          else (buf.set pos slash).bind fun buf => finish buf (pos + 1)
        else finish buf pos

/-- The new working directory, `new_cwd_buf`, and its length. -/
def newCwd (cwd path : Bytes) : Option (PathBuf × ℕ) :=
  if path.head? = some slash then
    let len := min path.length (pathMax - 1)
    (PathBuf.zero.copy 0 (path.take len)).map (·, len)
  else
    (PathBuf.zero.copy 0 cwd).bind fun c =>
      let i := cwd.length
      (if 0 < i then unslashed c i else some false).bind fun separate =>
        (if separate then (c.set i slash).map (·, i + 1) else some (c, i)).bind fun (c, i) =>
          (c.copy i (path.take (pathMax - 1 - i))).bind fun c =>
            (skipWhile (· ≠ 0) c.items pathMax 0).map (c, ·)

/-- The working directory is overwritten. -/
def setCwd (cwd new : PathBuf) (len : ℕ) : Option PathBuf :=
  let i := min len (pathMax - 1)
  (new.upTo i).bind fun bytes => (cwd.copy 0 bytes).bind fun cwd => cwd.set i 0

/-- `sys_chdir` of a path that was copied: the new working directory. -/
def FsState.chdirTo (fs : FsState) (cwd : PathBuf) (path : Bytes) : Option (Except ℕ PathBuf) :=
  cwd.path.bind fun cwdSlice =>
    (fs.vfsResolveRelative cwdSlice path).bind fun
      | .error e => some (.error e)
      | .ok vn =>
        if vn.mode &&& vDir = 0 then some (.error enotdir)
        else
          (newCwd cwdSlice path).bind fun (new, len) => (setCwd cwd new len).map .ok

/-- What `sys_getcwd` copies to a buffer of `size` bytes. -/
def getcwdBytes (cwd : PathBuf) (size : ℕ) : Bytes :=
  if 0 < size then cwd.items.take (min (cwd.strLen 255) (size - 1)) ++ [0] else []

/-- The working directory at boot. -/
def rootCwd : PathBuf := PathBuf.zero.overlay 0 [slash] (by decide)

/-- The working directories of processes. -/
inductive IsCwd : PathBuf → Prop
  | root : IsCwd rootCwd
  | chdir {fs : FsState} {cwd cwd' : PathBuf} {path : Bytes} :
      IsCwd cwd → fs.chdirTo cwd path = some (.ok cwd') → IsCwd cwd'

section Bounds

variable {fs : FsState} {buf cwd new : PathBuf} {dir path : Bytes} {pos len : ℕ}

theorem path_of_terminated (h : 0 ∈ buf.items) :
    ∃ bs, buf.path = some bs ∧ bs.length < pathMax := by
  have hlt := strLen_lt h pathMax
  refine ⟨_, FixedArray.upTo_eq hlt.le, ?_⟩
  rw [List.length_take, buf.length_items]
  omega

theorem unslashed_some (hpos : 0 < pos) (hle : pos ≤ pathMax) : ∃ b, unslashed buf pos = some b := by
  obtain ⟨x, hx, -⟩ := FixedArray.get_lt (a := buf) (show pos - 1 < pathMax by omega)
  exact ⟨_, by rw [unslashed, hx, Option.map_some]⟩

theorem finish_some (hle : pos ≤ pathMax) :
    ∃ r, ((appendPath buf pos path).bind fun
      | .error e => some (.error e)
      | .ok full => fs.vfsResolveIn full) = some r := by
  rw [appendPath_eq hle, Option.bind_some]
  split
  next => exact ⟨_, rfl⟩
  next => exact ⟨_, vfsResolveIn_eq _ _⟩

/-- **`vfs_resolve_relative` stays in bounds** if the working directory is shorter than its buffer. -/
theorem vfsResolveRelative_some (fs : FsState) (hdir : dir.length < pathMax) (path : Bytes) :
    ∃ r, fs.vfsResolveRelative dir path = some r := by
  have hcopy : 0 + dir.length ≤ pathMax := by omega
  unfold FsState.vfsResolveRelative
  dsimp only
  split
  next => exact ⟨_, vfsResolveIn_eq _ _⟩
  next =>
    rw [FixedArray.copy_eq hcopy, Option.bind_some]
    obtain ⟨separate, hseparate⟩ : ∃ b, (if dir.length = 0 then some true else
        unslashed (PathBuf.zero.overlay 0 dir hcopy) dir.length) = some b := by
      split
      next => exact ⟨_, rfl⟩
      next hne => exact unslashed_some (Nat.pos_of_ne_zero hne) hdir.le
    rw [hseparate, Option.bind_some]
    cases separate with
    | false => exact finish_some hdir.le
    | true =>
      rw [if_pos rfl]
      split
      next => exact ⟨_, rfl⟩
      next =>
        rw [FixedArray.set_eq hdir, Option.bind_some]
        exact finish_some hdir

theorem newCwd_some (hdir : dir.length < pathMax) (path : Bytes) : ∃ r, newCwd dir path = some r := by
  unfold newCwd
  dsimp only
  split
  next =>
    have hcopy : 0 + (path.take (min path.length (pathMax - 1))).length ≤ pathMax := by
      rw [List.length_take]
      omega
    rw [FixedArray.copy_eq hcopy, Option.map_some]
    exact ⟨_, rfl⟩
  next =>
    have hcopy : 0 + dir.length ≤ pathMax := by omega
    rw [FixedArray.copy_eq hcopy, Option.bind_some]
    obtain ⟨separate, hseparate⟩ : ∃ b, (if 0 < dir.length then
        unslashed (PathBuf.zero.overlay 0 dir hcopy) dir.length else some false) = some b := by
      split
      next hpos => exact unslashed_some hpos hdir.le
      next => exact ⟨_, rfl⟩
    rw [hseparate, Option.bind_some]
    obtain ⟨c, i, hi, hc⟩ : ∃ c i, i ≤ pathMax ∧ (if separate = true then
        ((PathBuf.zero.overlay 0 dir hcopy).set dir.length slash).map (·, dir.length + 1)
        else some (PathBuf.zero.overlay 0 dir hcopy, dir.length)) = some (c, i) := by
      split
      next => exact ⟨_, _, hdir, by rw [FixedArray.set_eq hdir, Option.map_some]⟩
      next => exact ⟨_, _, hdir.le, rfl⟩
    have hrest : i + (path.take (pathMax - 1 - i)).length ≤ pathMax := by
      rw [List.length_take]
      omega
    rw [hc, Option.bind_some]
    dsimp only
    rw [FixedArray.copy_eq hrest, Option.bind_some, skipWhile_eq, Option.map_some]
    · exact ⟨_, rfl⟩
    · rw [FixedArray.length_items]
      omega

theorem setCwd_spec (cwd new : PathBuf) (len : ℕ) :
    ∃ cwd', setCwd cwd new len = some cwd' ∧ 0 ∈ cwd'.items := by
  have hlt : min len (pathMax - 1) < pathMax := (Nat.min_le_right _ _).trans_lt (by decide)
  have hcopy : 0 + (new.items.take (min len (pathMax - 1))).length ≤ pathMax := by
    rw [List.length_take]
    omega
  unfold setCwd
  dsimp only
  rw [FixedArray.upTo_eq hlt.le, Option.bind_some, FixedArray.copy_eq hcopy, Option.bind_some,
    FixedArray.set_eq hlt]
  exact ⟨_, rfl, by simp [FixedArray.overlay]⟩

/-- **`chdir` stays in bounds**, and leaves a zero in the working directory. -/
theorem chdirTo_spec (hcwd : 0 ∈ cwd.items) (path : Bytes) :
    ∃ r, fs.chdirTo cwd path = some r ∧ ∀ cwd', r = .ok cwd' → 0 ∈ cwd'.items := by
  obtain ⟨dir, hdir, hlen⟩ := path_of_terminated hcwd
  obtain ⟨found, hfound⟩ := vfsResolveRelative_some fs hlen path
  rw [FsState.chdirTo, hdir, Option.bind_some, hfound, Option.bind_some]
  cases found with
  | error e => exact ⟨_, rfl, nofun⟩
  | ok vn =>
    dsimp only
    split
    next => exact ⟨_, rfl, nofun⟩
    next =>
      obtain ⟨⟨new, len⟩, hnew⟩ := newCwd_some hlen path
      obtain ⟨cwd', hset, hzero⟩ := setCwd_spec cwd new len
      rw [hnew, Option.bind_some]
      dsimp only
      rw [hset, Option.map_some]
      refine ⟨_, rfl, fun c hc => ?_⟩
      cases hc
      exact hzero

/-- **Every working directory has a zero**, at boot and after any number of changes. -/
theorem IsCwd.terminated (h : IsCwd cwd) : 0 ∈ cwd.items := by
  induction h with
  | root => decide
  | chdir _ hset ih =>
    obtain ⟨r, hr, hzero⟩ := chdirTo_spec ih _
    rw [hset] at hr
    exact hzero _ (Option.some.inj hr).symm

end Bounds

end Vibix.Vfs
