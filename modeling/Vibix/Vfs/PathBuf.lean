import Vibix.Lib.FixedArray
import Vibix.Vfs.Resolve

/-! # Paths in buffers

The functions on paths with the bounds checks that the compiler adds: every access to a buffer of
`PATH_MAX` bytes, to a path or to a slice of it has no result when it is out of bounds.
`cstr_from_user` copies a path into a buffer; `vfs_resolve` and `rootfs_lookup` are the functions of
`Vibix.Vfs.Resolve`, once more, now with their accesses.

No access is out of bounds, for any path: `cstrFromUser_spec` and `vfsResolveIn_eq`. -/

namespace Vibix.Vfs

/-- `EFAULT`. -/
def efault : ℕ := 14

/-- `[u8; PATH_MAX]`. -/
abbrev PathBuf := FixedArray (BitVec 8) pathMax

/-- `[0u8; PATH_MAX]`. -/
def PathBuf.zero : PathBuf := FixedArray.fill pathMax 0

/-- The position of the first zero, or the given length. -/
def PathBuf.strLen (buf : PathBuf) (otherwise : ℕ) : ℕ :=
  (buf.items.findIdx? (· = 0)).getD otherwise

/-- The loop of `cstr_from_user`, with `k` rounds left. -/
def cstrLoop (user : ℕ → BitVec 8) (ptr : ℕ) : ℕ → ℕ → PathBuf → Option (Except ℕ PathBuf)
  | 0, _, _ => some (.error enametoolong)
  | k + 1, i, buf =>
    (buf.set i (user (ptr + i))).bind fun buf =>
      if user (ptr + i) = 0 then some (.ok buf) else cstrLoop user ptr k (i + 1) buf

/-- `cstr_from_user(ptr, PATH_MAX)`, where `user` is the memory as the caller sees it. -/
def cstrFromUser (user : ℕ → BitVec 8) (ptr : ℕ) : Option (Except ℕ PathBuf) :=
  if ptr = 0 then some (.error efault) else cstrLoop user ptr pathMax 0 .zero

/-- The path that a buffer holds, `&buf[..path_len]`. -/
def PathBuf.path (buf : PathBuf) : Option Bytes := buf.upTo (buf.strLen pathMax)

/-- The loop that adds a name to a buffer in which `pos` bytes are used. -/
def appendName : PathBuf → ℕ → Bytes → Option (Except ℕ (PathBuf × ℕ))
  | buf, pos, [] => some (.ok (buf, pos))
  | buf, pos, b :: bs =>
    if pathMax ≤ pos then some (.error enametoolong)
    else (buf.set pos b).bind fun buf => appendName buf (pos + 1) bs

/-- The path in the buffer after the name was added, `&buf[..pos]`. -/
def appendPath (buf : PathBuf) (pos : ℕ) (name : Bytes) : Option (Except ℕ Bytes) :=
  (appendName buf pos name).bind fun
    | .error e => some (.error e)
    | .ok (buf, pos) => (buf.upTo pos).map .ok

namespace FsState

/-- The path of a child of `dir`, in the buffer of `rootfs_lookup`. -/
def childPathIn (dir : VnodeRef) (name : Bytes) : Option (Except ℕ Bytes) :=
  -- the prefix is a string of the kernel; at most `PATH_MAX - 2` bytes of it are copied
  let dirPath := dir.pathPrefix.take (pathMax - 2)
  (PathBuf.zero.copy 0 dirPath).bind fun buf =>
    let total := dirPath.length
    let behind := if 0 < total ∧ total < pathMax - 1 then (buf.set total slash).map (·, total + 1)
      else some (buf, total)
    behind.bind fun (buf, total) => appendPath buf total name

variable (fs : FsState)

/-- `rootfs_lookup`. -/
def rootfsLookupIn (dir : VnodeRef) (name : Bytes) : Option (Except ℕ VnodeRef) :=
  if dir.ino = 0 ∧ name = sbinName then some (.ok .sbinDir)
  else if dir.ino = 0 ∧ name = binName then some (.ok .binDir)
  else if dir.ino = 0 ∧ name = etcName then some (.ok .etcDir)
  else if dir.ino = 0 ∧ name = devName then some (.ok .devDir)
  else
    (childPathIn dir name).map fun
      | .error e => .error e
      | .ok path =>
        match initramfsFind fs.mem fs.entries path with
        | none => .error enoent
        | some (_, _, entryType) =>
          if entryType = 0x35 then .error enoent
          else
            match fs.initramfsBuildVnode path with
            | some vn => .ok vn
            | none => .error enomem

/-- `vfs_lookup`. -/
def vfsLookupIn (dir : VnodeRef) (name : Bytes) : Option (Except ℕ VnodeRef) :=
  if name = [] ∨ name = dotName then some (.error einval)
  else if name = dotDotName then some (.error einval)
  else
    match dir.fsType with
    | .rootFs => fs.rootfsLookupIn dir name
    | .devFs =>
      match devfsLookup name with
      | some vn => some (.ok vn)
      | none => some (.error enoent)
    | .initramFs => some (.error enoent)

/-- Pass 1 of `vfs_resolve`; `comps` are the used entries of `comp_start` and `comp_end`. -/
def collectIn (path : Bytes) : ℕ → ℕ → FixedArray (ℕ × ℕ) vfsMaxComponents → ℕ →
    Option (Except ℕ (FixedArray (ℕ × ℕ) vfsMaxComponents × ℕ))
  | 0, _, comps, ncomp => some (.ok (comps, ncomp))
  | fuel + 1, pos, comps, ncomp =>
    if path.length ≤ pos then some (.ok (comps, ncomp))
    else
      (skipWhile (· = slash) path path.length pos).bind fun cs =>
        if path.length ≤ cs then some (.ok (comps, ncomp))
        else
          (skipWhile (· ≠ slash) path path.length cs).bind fun pos =>
            if ncomp < vfsMaxComponents then
              (sliceOf path cs pos).bind fun name =>
                if name = dotDotName then collectIn path fuel pos comps (ncomp - 1)
                else if name ≠ dotName then
                  (comps.set ncomp (cs, pos)).bind fun comps =>
                    collectIn path fuel pos comps (ncomp + 1)
                else collectIn path fuel pos comps ncomp
            else some (.error enametoolong)

/-- Pass 2 of `vfs_resolve`, with `k` rounds left. -/
def resolveFromIn (path : Bytes) (start : ℕ) (comps : FixedArray (ℕ × ℕ) vfsMaxComponents) :
    ℕ → ℕ → VnodeRef → Option (Except ℕ VnodeRef)
  | 0, _, current => some (.ok current)
  | k + 1, i, current =>
    (comps.get i).bind fun (compStart, compEnd) =>
      (sliceOf path compStart compEnd).bind fun component =>
        (fs.vfsLookupIn current component).bind fun
          | .ok next => resolveFromIn path start comps k (i + 1) (next.mount.getD next)
          | .error e =>
            (sliceOf path start compEnd).map fun accumulated =>
              if accumulated = [] then .error e
              else
                match fs.initramfsBuildVnode accumulated with
                | some vn => .ok vn
                | none => .error e

/-- `vfs_resolve`. -/
def vfsResolveIn (path : Bytes) : Option (Except ℕ VnodeRef) :=
  if path = [] ∨ path = [slash] then some (.ok .rootDir)
  else
    (skipWhile (· = slash) path path.length 0).bind fun start =>
      if path.length ≤ start then some (.ok .rootDir)
      else
        (collectIn path path.length start (FixedArray.fill _ (0, 0)) 0).bind fun
          | .error e => some (.error e)
          | .ok (comps, ncomp) => fs.resolveFromIn path start comps ncomp 0 .rootDir

end FsState

/-! ### Copying a path -/

section Copy

variable {buf : PathBuf} {user : ℕ → BitVec 8} {ptr pos : ℕ} {bs : Bytes}

theorem strLen_lt (h : 0 ∈ buf.items) (otherwise : ℕ) : buf.strLen otherwise < pathMax := by
  have hsome : (buf.items.findIdx? (· = 0)).isSome = true := by
    rw [List.findIdx?_isSome, List.any_eq_true]
    exact ⟨0, h, rfl⟩
  obtain ⟨i, hi⟩ := Option.isSome_iff_exists.mp hsome
  have hlt := (List.findIdx?_eq_some_iff_findIdx_eq.mp hi).1
  rw [PathBuf.strLen, hi, Option.getD_some]
  rwa [buf.length_items] at hlt

theorem strLen_eq {otherwise : ℕ} (hnz : 0 ∉ bs) (h : buf.items.take (bs.length + 1) = bs ++ [0]) :
    buf.strLen otherwise = bs.length := by
  have hsplit : buf.items = bs ++ 0 :: buf.items.drop (bs.length + 1) := by
    conv_lhs => rw [← List.take_append_drop (bs.length + 1) buf.items, h]
    rw [List.append_assoc, List.singleton_append]
  have hnone : bs.findIdx? (fun b => decide (b = 0)) = none := by
    rw [List.findIdx?_eq_none_iff]
    intro b hb
    exact decide_eq_false (ne_of_mem_of_not_mem hb hnz)
  rw [PathBuf.strLen, hsplit, List.findIdx?_append, hnone]
  simp [List.findIdx?_cons]

/-- A string of a buffer: what is before its first zero. -/
structure PathBuf.Holds (buf : PathBuf) (bs : Bytes) : Prop where
  short : bs.length < pathMax
  nonzero : 0 ∉ bs
  take : buf.items.take (bs.length + 1) = bs ++ [0]

theorem PathBuf.Holds.path (h : buf.Holds bs) : buf.path = some bs := by
  have htake : buf.items.take bs.length = bs := by
    have := congrArg (List.take bs.length) h.take
    rwa [List.take_take, min_eq_left (Nat.le_succ _), List.take_left] at this
  rw [PathBuf.path, strLen_eq h.nonzero h.take, FixedArray.upTo_eq h.short.le, htake]

theorem cstrLoop_spec {k i : ℕ} (hk : i + k = pathMax)
    (htake : buf.items.take i = (List.range i).map fun j => user (ptr + j))
    (hnz : 0 ∉ buf.items.take i) :
    ∃ r, cstrLoop user ptr k i buf = some r ∧ ∀ buf', r = .ok buf' →
      ∃ n, buf'.Holds ((List.range n).map fun j => user (ptr + j)) := by
  induction k generalizing i buf with
  | zero => exact ⟨_, rfl, nofun⟩
  | succ k ih =>
    have hi : i < pathMax := by omega
    have hlen : (buf.items.take i).length = i := by
      rw [List.length_take, buf.length_items]
      omega
    have hnext : (buf.overlay i [user (ptr + i)] hi).items.take (i + 1) =
        (List.range (i + 1)).map fun j => user (ptr + j) := by
      have hlen' : (buf.items.take i ++ [user (ptr + i)]).length = i + 1 := by
        rw [List.length_append, hlen, List.length_singleton]
      rw [FixedArray.overlay, List.take_left' hlen', List.range_succ, List.map_append, htake]
      rfl
    rw [cstrLoop, FixedArray.set_eq hi, Option.bind_some]
    split
    next hzero =>
      refine ⟨_, rfl, fun buf' h => ?_⟩
      cases h
      refine ⟨i, by simpa using hi, htake ▸ hnz, ?_⟩
      rw [List.length_map, List.length_range, hnext, List.range_succ, List.map_append,
        List.map_singleton, hzero]
    next hne =>
      refine ih (by omega) hnext ?_
      rw [hnext, List.range_succ, List.map_append, ← htake, List.mem_append]
      rintro (h | h)
      · exact hnz h
      · exact hne (List.mem_singleton.mp h).symm

/-- **`cstr_from_user`** stays in its buffer, and leaves a string there if it succeeds: the bytes at
`ptr` up to the first zero. -/
theorem cstrFromUser_spec (user : ℕ → BitVec 8) (ptr : ℕ) :
    ∃ r, cstrFromUser user ptr = some r ∧ ∀ buf, r = .ok buf →
      ∃ n, buf.Holds ((List.range n).map fun j => user (ptr + j)) := by
  unfold cstrFromUser
  split
  next => exact ⟨_, rfl, nofun⟩
  next => exact cstrLoop_spec (Nat.zero_add _) rfl (List.not_mem_nil)

theorem appendName_eq (hpos : pos ≤ pathMax) : appendName buf pos bs =
    some (if h : pos + bs.length ≤ pathMax then .ok (buf.overlay pos bs h, pos + bs.length)
      else .error enametoolong) := by
  induction bs generalizing buf pos with
  | nil =>
    rw [appendName, dif_pos (by simpa using hpos)]
    simp only [FixedArray.overlay_nil, List.length_nil, Nat.add_zero]
  | cons b bs ih =>
    rw [appendName]
    split
    next hfull =>
      rw [dif_neg]
      rw [List.length_cons]
      omega
    next hroom =>
      have hlt : pos < pathMax := by omega
      rw [FixedArray.set_eq hlt, Option.bind_some, ih (by omega)]
      congr 1
      split
      next h =>
        have h' : pos + (b :: bs).length ≤ pathMax := by
          rw [List.length_cons]
          omega
        rw [dif_pos h', FixedArray.overlay_overlay _ _ h', List.length_cons]
        congr 2
        omega
      next h =>
        rw [dif_neg]
        rw [List.length_cons]
        omega

theorem appendPath_eq (hpos : pos ≤ pathMax) : appendPath buf pos bs =
    some (if pathMax < pos + bs.length then .error enametoolong
      else .ok (buf.items.take pos ++ bs)) := by
  rw [appendPath, appendName_eq hpos, Option.bind_some]
  rcases Nat.lt_or_ge pathMax (pos + bs.length) with h | h
  · rw [if_pos h, dif_neg (Nat.not_le_of_lt h)]
  · rw [if_neg (Nat.not_lt_of_le h), dif_pos h]
    dsimp only
    rw [FixedArray.upTo_overlay, Option.map_some]

end Copy

/-! ### Resolving a path -/

section Resolve

variable {fs : FsState} {path : Bytes} {start pos : ℕ}

theorem length_pathPrefix_le (dir : VnodeRef) : dir.pathPrefix.length ≤ 4 := by
  cases dir with
  | file => exact Nat.zero_le 4
  | _ => decide

/-- The buffer of `rootfs_lookup` is large enough. -/
theorem childPathIn_eq (dir : VnodeRef) (name : Bytes) :
    FsState.childPathIn dir name = some (FsState.childPath dir name) := by
  have hfour := length_pathPrefix_le dir
  have htake : dir.pathPrefix.take (pathMax - 2) = dir.pathPrefix :=
    List.take_of_length_le (hfour.trans (by decide))
  have hcopy : 0 + dir.pathPrefix.length ≤ pathMax := by
    rw [Nat.zero_add]
    exact hfour.trans (by decide)
  rw [FsState.childPathIn]
  dsimp only
  rw [htake, FixedArray.copy_eq hcopy, Option.bind_some]
  rcases Nat.eq_zero_or_pos dir.pathPrefix.length with hzero | hpos
  · have hnil : dir.pathPrefix = [] := List.length_eq_zero_iff.mp hzero
    rw [if_neg (by omega), Option.bind_some]
    dsimp only
    rw [hzero, appendPath_eq (Nat.zero_le _), FsState.childPath, if_pos hnil, List.nil_append,
      List.take_zero, Nat.zero_add, List.nil_append]
  · have hne : dir.pathPrefix ≠ [] := List.ne_nil_of_length_pos hpos
    have hroom : dir.pathPrefix.length < pathMax - 1 := hfour.trans_lt (by decide)
    have hlt : dir.pathPrefix.length < pathMax := hroom.trans_le (Nat.sub_le _ _)
    have hfirst : (dir.pathPrefix ++ [slash]).length = dir.pathPrefix.length + 1 := by
      rw [List.length_append, List.length_singleton]
    have hbuf : ((PathBuf.zero.overlay 0 dir.pathPrefix hcopy).overlay dir.pathPrefix.length [slash]
        hlt).items.take (dir.pathPrefix.length + 1) = dir.pathPrefix ++ [slash] := by
      simp only [FixedArray.overlay, List.take_zero, List.nil_append, Nat.zero_add, List.take_left]
      exact List.take_left' hfirst
    rw [if_pos ⟨hpos, hroom⟩, FixedArray.set_eq hlt, Option.map_some, Option.bind_some]
    dsimp only
    rw [appendPath_eq hlt, FsState.childPath, if_neg hne, hbuf, List.length_append, hfirst]

theorem vfsLookupIn_eq (dir : VnodeRef) (name : Bytes) :
    fs.vfsLookupIn dir name = some (fs.vfsLookup dir name) := by
  have hroot : fs.rootfsLookupIn dir name = some (fs.rootfsLookup dir name) := by
    rw [FsState.rootfsLookupIn, FsState.rootfsLookup, childPathIn_eq, Option.map_some]
    split_ifs <;> rfl
  rw [FsState.vfsLookupIn, FsState.vfsLookup, hroot]
  split_ifs
  · rfl
  · rfl
  · cases dir.fsType with
    | rootFs => rfl
    | devFs => cases FsState.devfsLookup name <;> rfl
    | initramFs => rfl

theorem skipSlashes_eq (pos : ℕ) :
    skipWhile (· = slash) path path.length pos = some (skipSlashes path pos) :=
  skipWhile_eq (Nat.le_add_left _ _)

theorem skipName_eq (pos : ℕ) :
    skipWhile (· ≠ slash) path path.length pos = some (skipName path pos) :=
  skipWhile_eq (Nat.le_add_left _ _)

theorem le_skipSlashes : pos ≤ skipSlashes path pos := Nat.le_add_right _ _

theorem le_skipName : pos ≤ skipName path pos := Nat.le_add_right _ _

theorem skipName_le (h : pos ≤ path.length) : skipName path pos ≤ path.length := by
  have hle := (List.takeWhile_sublist (l := path.drop pos) (fun b => decide (b ≠ slash))).length_le
  rw [List.length_drop] at hle
  rw [skipName]
  omega

theorem sliceOf_eq {i j : ℕ} (hij : i ≤ j) (hj : j ≤ path.length) :
    sliceOf path i j = some (slice path i j) := if_pos ⟨hij, hj⟩

/-- The positions of components lie in the path, behind `start`. -/
def Within (path : Bytes) (start : ℕ) (comps : List (ℕ × ℕ)) : Prop :=
  ∀ c ∈ comps, start ≤ c.2 ∧ c.1 ≤ c.2 ∧ c.2 ≤ path.length

/-- Pass 1 stays in bounds; the array holds the components that `collect` finds. -/
theorem collectIn_spec (fuel : ℕ) {ncomp : ℕ} {comps : FixedArray (ℕ × ℕ) vfsMaxComponents}
    (hn : ncomp ≤ vfsMaxComponents) (hin : Within path start (comps.items.take ncomp))
    (hpos : start ≤ pos) :
    ∃ r, FsState.collectIn path fuel pos comps ncomp = some r ∧
      match collect path fuel pos (comps.items.take ncomp) with
      | .error e => r = .error e
      | .ok found => ∃ comps' ncomp', r = .ok (comps', ncomp') ∧ ncomp' ≤ vfsMaxComponents ∧
          comps'.items.take ncomp' = found ∧ Within path start found := by
  induction fuel generalizing pos comps ncomp with
  | zero => exact ⟨_, rfl, comps, ncomp, rfl, hn, rfl, hin⟩
  | succ fuel ih =>
    have hlen : (comps.items.take ncomp).length = ncomp := by
      rw [List.length_take, comps.length_items]
      omega
    rw [FsState.collectIn, collect]
    split
    next => exact ⟨_, rfl, comps, ncomp, rfl, hn, rfl, hin⟩
    next hlt =>
      rw [skipSlashes_eq, Option.bind_some]
      dsimp only
      split
      next => exact ⟨_, rfl, comps, ncomp, rfl, hn, rfl, hin⟩
      next hcs =>
        have hnext : start ≤ skipName path (skipSlashes path pos) :=
          hpos.trans (le_skipSlashes.trans le_skipName)
        rw [skipName_eq, Option.bind_some, hlen]
        split
        next hroom =>
          rw [sliceOf_eq le_skipName (skipName_le (Nat.le_of_not_le hcs)), Option.bind_some]
          split
          next =>
            have hdrop : (comps.items.take ncomp).dropLast = comps.items.take (ncomp - 1) := by
              rw [List.dropLast_eq_take, hlen, List.take_take, min_eq_left (Nat.sub_le _ _)]
            rw [hdrop]
            refine ih (by omega) (fun c hc => hin c ?_) hnext
            exact List.take_subset_take_left _ (Nat.sub_le _ _) hc
          next =>
            split
            next =>
              rw [FixedArray.set_eq hroom, Option.bind_some]
              have htake : (comps.overlay ncomp
                  [(skipSlashes path pos, skipName path (skipSlashes path pos))]
                  hroom).items.take (ncomp + 1) = comps.items.take ncomp ++
                  [(skipSlashes path pos, skipName path (skipSlashes path pos))] :=
                List.take_left' (by rw [List.length_append, hlen, List.length_singleton])
              rw [← htake]
              refine ih (by omega) ?_ hnext
              rw [htake]
              intro c hc
              rcases List.mem_append.mp hc with hc | hc
              · exact hin c hc
              · rw [List.mem_singleton.mp hc]
                exact ⟨hnext, le_skipName, skipName_le (Nat.le_of_not_le hcs)⟩
            next => exact ih hn hin hnext
        next => exact ⟨_, rfl, rfl⟩

theorem resolveFromIn_eq {k i : ℕ} {current : VnodeRef}
    {comps : FixedArray (ℕ × ℕ) vfsMaxComponents} (hk : i + k ≤ vfsMaxComponents)
    (hin : Within path start (comps.items.take (i + k))) :
    fs.resolveFromIn path start comps k i current =
      some (fs.resolveFrom path start current ((comps.items.take (i + k)).drop i)) := by
  induction k generalizing i current with
  | zero =>
    rw [List.drop_eq_nil_of_le (by rw [List.length_take]; omega)]
    rfl
  | succ k ih =>
    have hlt : i < (comps.items.take (i + (k + 1))).length := by
      rw [List.length_take, comps.length_items]
      omega
    have hget : comps.get i = some (comps.items.take (i + (k + 1)))[i] := by
      rw [FixedArray.get, List.getElem_take, List.getElem?_eq_getElem]
    rw [List.drop_eq_getElem_cons hlt]
    obtain ⟨⟨compStart, compEnd⟩, hc⟩ : ∃ c, c = (comps.items.take (i + (k + 1)))[i] := ⟨_, rfl⟩
    obtain ⟨hs, hle, hend⟩ := hin _ (List.getElem_mem hlt)
    rw [← hc] at hget hs hle hend ⊢
    rw [FsState.resolveFromIn, hget, Option.bind_some, FsState.resolveFrom]
    dsimp only
    rw [sliceOf_eq hle hend, Option.bind_some, vfsLookupIn_eq, Option.bind_some]
    cases fs.vfsLookup current (slice path compStart compEnd) with
    | ok next =>
      have hsum : i + 1 + k = i + (k + 1) := by omega
      dsimp only
      rw [ih (by omega) (hsum ▸ hin), hsum]
    | error e =>
      dsimp only at hs hend ⊢
      exact congrArg (Option.map _) (sliceOf_eq hs hend)

/-- **`vfs_resolve` stays in bounds**, for every path, and does what `vfsResolve` says. -/
theorem vfsResolveIn_eq (fs : FsState) (path : Bytes) :
    fs.vfsResolveIn path = some (fs.vfsResolve path) := by
  rw [FsState.vfsResolveIn, FsState.vfsResolve]
  split
  next => rfl
  next =>
    rw [skipSlashes_eq, Option.bind_some]
    dsimp only
    split
    next => rfl
    next hstart =>
      obtain ⟨comps₀, hcomps₀⟩ : ∃ comps₀ : FixedArray (ℕ × ℕ) vfsMaxComponents,
        comps₀ = FixedArray.fill _ (0, 0) := ⟨_, rfl⟩
      have hnil : Within path (skipSlashes path 0) (comps₀.items.take 0) := by simp [Within]
      obtain ⟨r, hr, hspec⟩ := collectIn_spec path.length (Nat.zero_le _) hnil le_rfl
      rw [← hcomps₀, hr, Option.bind_some]
      rw [List.take_zero] at hspec
      cases hcollect : collect path path.length (skipSlashes path 0) [] with
      | error e =>
        rw [hcollect] at hspec
        rw [hspec]
      | ok found =>
        rw [hcollect] at hspec
        obtain ⟨comps, ncomp, rfl, hn, rfl, hin⟩ := hspec
        dsimp only
        rw [resolveFromIn_eq (by omega) (by rwa [Nat.zero_add]), Nat.zero_add, List.drop_zero]

end Resolve

end Vibix.Vfs
