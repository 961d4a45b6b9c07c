import Vibix.Proc.Dispatch
import Vibix.Vfs.Normal
import Mathlib.Data.List.TakeWhile

/-! # Changing the working directory

`sys_chdir` puts the working directory and a relative path together twice: `vfs_resolve_relative` for
the directory that is checked, in a buffer that it may fill, and once more for the string that is kept,
which must leave room for a zero.

* **Strings.**  `joined` is the path that a relative one stands for.  `vfsResolveRelative_eq` and
  `newCwd_eq` say what becomes of it on either side.
* **Invariant.**  The working directory is a string that begins with a slash (`isCwd_head`).
* **Result.**  The string that is kept leads to the directory that was checked, exactly if it does where
  the path fills the buffer of `vfs_resolve_relative`, so that its last byte is lost
  (`chdir_keeps_iff`). -/

namespace Vibix.Proc

open Vfs

/-- The path that a relative one stands for. -/
def joined (dir path : Bytes) : Bytes :=
  dir ++ (if dir.getLast? = some slash then [] else [slash]) ++ path

/-! ### The path that is checked -/

section Check

variable {fs : FsState} {dir path : Bytes} {buf : PathBuf}

theorem take_zero_overlay (hlen : 0 + dir.length ≤ pathMax) :
    (PathBuf.zero.overlay 0 dir hlen).items.take dir.length = dir := by
  have htake := @FixedArray.take_overlay _ _ PathBuf.zero 0 dir hlen
  rwa [Nat.zero_add, List.take_zero, List.nil_append] at htake

theorem unslashed_overlay (hdir : dir ≠ []) (hlen : 0 + dir.length ≤ pathMax) :
    unslashed (PathBuf.zero.overlay 0 dir hlen) dir.length =
      some (decide (dir.getLast? ≠ some slash)) := by
  have hpos := List.length_pos_of_ne_nil hdir
  have hget : (PathBuf.zero.overlay 0 dir hlen).get (dir.length - 1) = dir.getLast? := by
    have hlt : dir.length - 1 < dir.length := by omega
    rw [FixedArray.get, ← List.getElem?_take_of_lt hlt, take_zero_overlay,
      List.getLast?_eq_getElem?]
  obtain ⟨b, hb⟩ := Option.ne_none_iff_exists'.mp (mt List.getLast?_eq_none_iff.mp hdir)
  rw [unslashed, hget, hb, Option.map_some]
  simp

/-- **`vfs_resolve_relative`**: the path may have 256 bytes, but not if the last one is the slash that is
added. -/
theorem vfsResolveRelative_eq (fs : FsState) (hdir : dir ≠ []) (hlen : dir.length < pathMax)
    (path : Bytes) :
    fs.vfsResolveRelative dir path = some (
      if path.head? = some slash then fs.vfsResolve path
      else if dir.getLast? ≠ some slash ∧ pathMax - 1 ≤ dir.length ∨
          pathMax < (joined dir path).length then .error enametoolong
      else fs.vfsResolve (joined dir path)) := by
  have hcopy : 0 + dir.length ≤ pathMax := by omega
  have hne : dir.length ≠ 0 := by simpa using hdir
  unfold FsState.vfsResolveRelative
  dsimp only
  by_cases habs : path.head? = some slash
  · rw [if_pos habs, if_pos habs, vfsResolveIn_eq]
  rw [if_neg habs, if_neg habs, FixedArray.copy_eq hcopy, Option.bind_some, if_neg hne,
    unslashed_overlay hdir hcopy, Option.bind_some]
  by_cases hslash : dir.getLast? = some slash
  · have hjoined : joined dir path = dir ++ path := by
      rw [joined, if_pos hslash, List.append_nil]
    simp only [hslash, ne_eq, not_true_eq_false, decide_false, Bool.false_eq_true, if_false,
      false_and, false_or]
    rw [appendPath_eq hlen.le, take_zero_overlay, Option.bind_some, hjoined, ← List.length_append]
    split_ifs
    · rfl
    · exact vfsResolveIn_eq _ _
  · have hjoined : joined dir path = dir ++ [slash] ++ path := by rw [joined, if_neg hslash]
    simp only [hslash, ne_eq, not_false_eq_true, decide_true, if_true, true_and]
    by_cases hfull : pathMax - 1 ≤ dir.length
    · rw [if_pos hfull, if_pos (.inl hfull)]
    · have hroom : 0 + (dir ++ [slash]).length ≤ pathMax := by
        rw [List.length_append, List.length_singleton]
        omega
      have hbuf : (PathBuf.zero.overlay 0 dir hcopy).set dir.length slash =
          some (PathBuf.zero.overlay 0 (dir ++ [slash]) hroom) := by
        rw [← FixedArray.copy_eq hroom, FixedArray.copy_append, FixedArray.copy_eq hcopy,
          Option.bind_some, Nat.zero_add, FixedArray.copy_singleton]
      have hone : dir.length + 1 = (dir ++ [slash]).length := by
        rw [List.length_append, List.length_singleton]
      rw [if_neg hfull, hbuf, Option.bind_some, hone, appendPath_eq (by omega), take_zero_overlay,
        Option.bind_some, hjoined, ← List.length_append]
      simp only [hfull, false_or]
      split_ifs
      · rfl
      · exact vfsResolveIn_eq _ _

/-- A path that fills the buffer is resolved. -/
theorem relative_of_full {r : Except ℕ VnodeRef} (hdir : dir ≠ []) (hlen : dir.length < pathMax)
    (hpath : path ≠ []) (hrel : path.head? ≠ some slash) (hfull : (joined dir path).length = pathMax)
    (h : fs.vfsResolve (joined dir path) = r) : fs.vfsResolveRelative dir path = some r := by
  rw [vfsResolveRelative_eq fs hdir hlen, if_neg hrel, if_neg, h]
  rintro (⟨hslash, hlong⟩ | hlong)
  · have hpos := List.length_pos_of_ne_nil hpath
    rw [joined, if_neg hslash, List.length_append, List.length_append, List.length_singleton] at hfull
    omega
  · omega

/-- A relative path that is resolved fits in the buffer. -/
theorem full_of_relative {vn : VnodeRef} (hdir : dir ≠ []) (hlen : dir.length < pathMax)
    (hrel : path.head? ≠ some slash) (h : fs.vfsResolveRelative dir path = some (.ok vn)) :
    fs.vfsResolve (joined dir path) = .ok vn ∧
      ((joined dir path).length < pathMax ∨ (joined dir path).length = pathMax ∧ path ≠ []) := by
  rw [vfsResolveRelative_eq fs hdir hlen, if_neg hrel] at h
  split_ifs at h with hrefused
  · cases h
  · obtain ⟨hroom, hle⟩ := not_or.mp hrefused
    refine ⟨Option.some.inj h, (not_lt.mp hle).lt_or_eq.imp_right fun heq => ⟨heq, ?_⟩⟩
    rintro rfl
    -- the slash that is added would be the last byte of the buffer
    by_cases hslash : dir.getLast? = some slash
    · rw [joined, if_pos hslash, List.append_nil, List.append_nil] at heq
      omega
    · rw [joined, if_neg hslash, List.append_nil, List.length_append, List.length_singleton] at heq
      exact hroom ⟨hslash, by omega⟩

theorem childPath_error {dir : VnodeRef} {name : Bytes} {e : ℕ}
    (h : FsState.childPath dir name = .error e) : e ≠ 0 := by
  unfold FsState.childPath at h
  dsimp only at h
  generalize (if dir.pathPrefix = [] then [] else dir.pathPrefix ++ [slash]) ++ name = path at h
  split_ifs at h
  cases h
  decide

theorem rootfsLookup_error {dir : VnodeRef} {name : Bytes} {e : ℕ}
    (h : fs.rootfsLookup dir name = .error e) : e ≠ 0 := by
  unfold FsState.rootfsLookup at h
  split_ifs at h
  cases hchild : FsState.childPath dir name with
  | error e' =>
    simp only [hchild, Except.error.injEq] at h
    exact h ▸ childPath_error hchild
  | ok path =>
    cases hfind : initramfsFind fs.mem fs.entries path with
    | none =>
      simp only [hchild, hfind] at h
      cases h
      decide
    | some found =>
      simp only [hchild, hfind] at h
      split_ifs at h
      · cases h
        decide
      · cases hbuild : fs.initramfsBuildVnode path with
        | none =>
          simp only [hbuild] at h
          cases h
          decide
        | some vn => simp [hbuild] at h

theorem vfsLookup_error {dir : VnodeRef} {name : Bytes} {e : ℕ}
    (h : fs.vfsLookup dir name = .error e) : e ≠ 0 := by
  unfold FsState.vfsLookup at h
  split_ifs at h
  · cases h
    decide
  · cases h
    decide
  · cases htype : dir.fsType with
    | rootFs =>
      simp only [htype] at h
      exact rootfsLookup_error h
    | devFs =>
      simp only [htype] at h
      cases hdev : FsState.devfsLookup name with
      | none =>
        simp only [hdev] at h
        cases h
        decide
      | some vn => simp [hdev] at h
    | initramFs =>
      simp only [htype] at h
      cases h
      decide

theorem descent_error {current : VnodeRef} {names : List Bytes} {k e : ℕ}
    (h : fs.descent current names = (k, .error e)) : e ≠ 0 := by
  induction names generalizing current k with
  | nil => cases h
  | cons c names ih =>
    rw [FsState.descent] at h
    cases hlookup : fs.vfsLookup current c with
    | ok next =>
      simp only [hlookup, Prod.mk.injEq] at h
      exact ih (Prod.ext rfl h.2)
    | error e' =>
      simp only [hlookup, Prod.mk.injEq, Except.error.injEq] at h
      exact h.2 ▸ vfsLookup_error hlookup

/-- An error of `vfs_resolve` is not zero. -/
theorem vfsResolve_error {e : ℕ} (h : fs.vfsResolve path = .error e) : e ≠ 0 := by
  obtain ⟨hover, hspec⟩ := vfsResolve_spec fs path
  by_cases hroom : Overflows path
  · rw [hover hroom] at h
    cases h
    decide
  · rw [hspec hroom] at h
    rcases hdescent : fs.descent .rootDir (normalise path) with ⟨k, found⟩
    cases found with
    | ok vn => simp [hdescent] at h
    | error e' =>
      cases hbuild : fs.initramfsBuildVnode (accumulated path k) with
      | some vn => simp [hdescent, hbuild] at h
      | none =>
        simp only [hdescent, hbuild, Except.error.injEq] at h
        exact h ▸ descent_error hdescent

theorem vfsResolveRelative_error {e : ℕ} (hdir : dir ≠ []) (hlen : dir.length < pathMax)
    (h : fs.vfsResolveRelative dir path = some (.error e)) : e ≠ 0 := by
  rw [vfsResolveRelative_eq fs hdir hlen] at h
  have h := Option.some.inj h
  split_ifs at h
  · exact vfsResolve_error h
  · cases h
    decide
  · exact vfsResolve_error h

end Check

/-! ### The string that is kept -/

/-- The bytes that `sys_chdir` writes to `new_cwd_buf`. -/
def written (dir path : Bytes) : Bytes :=
  if path.head? = some slash then path.take (pathMax - 1)
  else joined dir [] ++ path.take (pathMax - 1 - (joined dir []).length)

section Keep

variable {fs : FsState} {dir path bs : Bytes} {buf cwd cwd' new : PathBuf} {len : ℕ}

theorem length_joined_nil : (joined dir []).length ≤ dir.length + 1 := by
  rw [joined, List.append_nil, List.length_append]
  split_ifs
  · exact Nat.le_succ _
  · exact le_rfl

theorem length_written (hlen : dir.length < pathMax) : (written dir path).length ≤ pathMax := by
  have hjoined := @length_joined_nil dir
  unfold written
  split_ifs
  · rw [List.length_take]
    omega
  · rw [List.length_append, List.length_take]
    omega

theorem takeWhile_append_replicate {α : Type*} {p : α → Bool} {z : α} (hz : p z = false) (l : List α)
    (n : ℕ) : (l ++ List.replicate n z).takeWhile p = l.takeWhile p := by
  induction l with
  | nil => cases n with
    | zero => rfl
    | succ n => simp [List.replicate_succ, hz]
  | cons x l ih => rw [List.cons_append, List.takeWhile_cons, List.takeWhile_cons, ih]

/-- The length of a string is that of what was written before the first zero. -/
theorem skipWhile_overlay (hlen : 0 + bs.length ≤ pathMax) :
    skipWhile (· ≠ 0) (PathBuf.zero.overlay 0 bs hlen).items pathMax 0 =
      some (bs.takeWhile (· ≠ 0)).length := by
  have hitems : (PathBuf.zero.overlay 0 bs hlen).items =
      bs ++ List.replicate (pathMax - (0 + bs.length)) 0 := by
    simp only [FixedArray.overlay, PathBuf.zero, FixedArray.fill, List.drop_replicate,
      List.take_zero, List.nil_append]
  rw [skipWhile_eq (by rw [FixedArray.length_items]; omega), List.drop_zero, hitems,
    takeWhile_append_replicate (by decide), Nat.zero_add]

/-- **`new_cwd_buf`.** -/
theorem newCwd_eq (hdir : dir ≠ []) (hlen : dir.length < pathMax) (path : Bytes) :
    ∃ h : 0 + (written dir path).length ≤ pathMax, newCwd dir path =
      some (PathBuf.zero.overlay 0 (written dir path) h,
        if path.head? = some slash then (written dir path).length
        else ((written dir path).takeWhile (· ≠ 0)).length) := by
  have hcopy : 0 + dir.length ≤ pathMax := by omega
  have hwritten : 0 + (written dir path).length ≤ pathMax := by
    rw [Nat.zero_add]
    exact length_written hlen
  refine ⟨hwritten, ?_⟩
  unfold newCwd
  dsimp only
  by_cases habs : path.head? = some slash
  · have htake : path.take (min path.length (pathMax - 1)) = written dir path := by
      rw [written, if_pos habs, Nat.min_comm]
      exact List.take_eq_take_min.symm
    have hcount : min path.length (pathMax - 1) = (written dir path).length := by
      rw [← htake, List.length_take]
      omega
    rw [if_pos habs, if_pos habs, htake, hcount, FixedArray.copy_eq hwritten, Option.map_some]
  · have hjoined : 0 + (joined dir []).length ≤ pathMax := by
      have := @length_joined_nil dir
      omega
    have hsep : (if decide (dir.getLast? ≠ some slash) = true then
          ((PathBuf.zero.overlay 0 dir hcopy).set dir.length slash).map (·, dir.length + 1)
        else some (PathBuf.zero.overlay 0 dir hcopy, dir.length)) =
        some (PathBuf.zero.overlay 0 (joined dir []) hjoined, (joined dir []).length) := by
      have hcount : (joined dir []).length =
          if dir.getLast? = some slash then dir.length else dir.length + 1 := by
        rw [joined, List.append_nil, List.length_append]
        split_ifs
        · rfl
        · rfl
      have hcopied : (PathBuf.zero.copy 0 (joined dir [])) =
          if dir.getLast? = some slash then some (PathBuf.zero.overlay 0 dir hcopy)
          else (PathBuf.zero.overlay 0 dir hcopy).set dir.length slash := by
        rw [joined, List.append_nil, FixedArray.copy_append, FixedArray.copy_eq hcopy,
          Option.bind_some, Nat.zero_add]
        split_ifs
        · rfl
        · exact FixedArray.copy_singleton
      rw [FixedArray.copy_eq hjoined] at hcopied
      rw [hcount]
      by_cases hslash : dir.getLast? = some slash
      · simp only [hslash, if_true, Option.some.injEq] at hcopied ⊢
        simp [hcopied]
      · simp only [hslash, if_false] at hcopied ⊢
        simp [← hcopied, hslash]
    have hw : written dir path =
        joined dir [] ++ path.take (pathMax - 1 - (joined dir []).length) := if_neg habs
    have hcopied := @FixedArray.copy_append _ _ PathBuf.zero 0 (joined dir [])
      (path.take (pathMax - 1 - (joined dir []).length))
    rw [← hw, FixedArray.copy_eq hwritten, FixedArray.copy_eq hjoined, Option.bind_some,
      Nat.zero_add] at hcopied
    rw [if_neg habs, if_neg habs, FixedArray.copy_eq hcopy, Option.bind_some,
      if_pos (List.length_pos_of_ne_nil hdir), unslashed_overlay hdir hcopy, Option.bind_some, hsep,
      Option.bind_some]
    dsimp only
    rw [← hcopied, Option.bind_some, skipWhile_overlay, Option.map_some]

/-- What `sys_chdir` leaves in the buffer of the process. -/
theorem setCwd_eq (cwd new : PathBuf) (len : ℕ) :
    ∃ h : 0 + (new.items.take (min len (pathMax - 1)) ++ [0]).length ≤ pathMax,
      setCwd cwd new len =
        some (cwd.overlay 0 (new.items.take (min len (pathMax - 1)) ++ [0]) h) := by
  have hmin : min len (pathMax - 1) < pathMax := (Nat.min_le_right _ _).trans_lt (by decide)
  have hcount : (new.items.take (min len (pathMax - 1))).length = min len (pathMax - 1) := by
    rw [List.length_take, new.length_items]
    exact min_eq_left hmin.le
  have hcopy : 0 + (new.items.take (min len (pathMax - 1))).length ≤ pathMax := by omega
  have hboth : 0 + (new.items.take (min len (pathMax - 1)) ++ [0]).length ≤ pathMax := by
    rw [List.length_append, List.length_singleton]
    omega
  refine ⟨hboth, ?_⟩
  unfold setCwd
  dsimp only
  rw [FixedArray.upTo_eq hmin.le, Option.bind_some, ← FixedArray.copy_eq hboth,
    FixedArray.copy_append, FixedArray.copy_eq hcopy, Option.bind_some, Option.bind_some,
    FixedArray.copy_singleton, Nat.zero_add, hcount]

theorem holds_of_terminated (h : 0 ∈ buf.items) : buf.Holds (buf.items.takeWhile (· ≠ 0)) := by
  obtain ⟨l₁, l₂, hsplit, hnone⟩ : ∃ l₁ l₂, buf.items = l₁ ++ 0 :: l₂ ∧ 0 ∉ l₁ :=
    List.eq_append_cons_of_mem h
  have htake : buf.items.takeWhile (· ≠ 0) = l₁ := by
    rw [hsplit, List.takeWhile_append_of_pos]
    · simp
    · intro b hb
      exact decide_eq_true (ne_of_mem_of_not_mem hb hnone)
  have hlen := congrArg List.length hsplit
  rw [buf.length_items, List.length_append, List.length_cons] at hlen
  rw [htake]
  refine ⟨by omega, hnone, ?_⟩
  rw [hsplit, List.append_cons]
  exact List.take_left' (by rw [List.length_append, List.length_singleton])

theorem holds_unique {bs' : Bytes} (h : buf.Holds bs) (h' : buf.Holds bs') : bs = bs' :=
  Option.some.inj (h.path.symm.trans h'.path)

theorem head_overlay (hbs : bs ≠ []) (hlen : 0 + bs.length ≤ pathMax) :
    (buf.overlay 0 bs hlen).items.head? = bs.head? := by
  obtain ⟨b, rest, rfl⟩ := List.exists_cons_of_ne_nil hbs
  rfl

theorem head_written (hdir : dir.head? = some slash) : (written dir path).head? = some slash := by
  unfold written
  split_ifs with habs
  · obtain ⟨rest, rfl⟩ := List.head?_eq_some_iff.mp habs
    rfl
  · obtain ⟨rest, rfl⟩ := List.head?_eq_some_iff.mp hdir
    rfl

/-- The parts of a `chdir` that succeeds. -/
theorem chdirTo_ok (h : fs.chdirTo cwd path = some (.ok cwd')) :
    ∃ dir vn new len, cwd.path = some dir ∧ fs.vfsResolveRelative dir path = some (.ok vn) ∧
      vn.mode &&& vDir ≠ 0 ∧ newCwd dir path = some (new, len) ∧
      setCwd cwd new len = some cwd' := by
  obtain ⟨dir, hdir, h⟩ := Option.bind_eq_some_iff.mp h
  obtain ⟨found, hfound, h⟩ := Option.bind_eq_some_iff.mp h
  cases found with
  | error e => cases h
  | ok vn =>
    dsimp only at h
    split_ifs at h with hmode
    · cases h
    · obtain ⟨⟨new, len⟩, hnew, h⟩ := Option.bind_eq_some_iff.mp h
      obtain ⟨_, hset, heq⟩ := Option.map_eq_some_iff.mp h
      cases heq
      exact ⟨dir, vn, new, len, hdir, hfound, hmode, hnew, hset⟩

/-- The reason why a `chdir` fails. -/
theorem chdirTo_error {e : ℕ} (hcwd : cwd.Holds dir) (h : fs.chdirTo cwd path = some (.error e)) :
    fs.vfsResolveRelative dir path = some (.error e) ∨
      ∃ vn, fs.vfsResolveRelative dir path = some (.ok vn) ∧ vn.mode &&& vDir = 0 ∧ e = enotdir := by
  rw [FsState.chdirTo, hcwd.path, Option.bind_some] at h
  obtain ⟨found, hfound, h⟩ := Option.bind_eq_some_iff.mp h
  cases found with
  | error e' =>
    cases h
    exact .inl hfound
  | ok vn =>
    dsimp only at h
    split_ifs at h with hmode
    · cases h
      exact .inr ⟨vn, hfound, hmode, rfl⟩
    · obtain ⟨_, -, h⟩ := Option.bind_eq_some_iff.mp h
      obtain ⟨_, -, heq⟩ := Option.map_eq_some_iff.mp h
      cases heq

/-- **The working directory begins with a slash**, at boot and after any number of changes. -/
theorem isCwd_head (h : IsCwd cwd) : cwd.items.head? = some slash := by
  induction h with
  | root => decide
  | @chdir fs cwd cwd' path hcwd hset ih =>
    obtain ⟨dir, vn, new, len, hdir, -, -, hnew, hset⟩ := chdirTo_ok hset
    have hholds := holds_of_terminated hcwd.terminated
    obtain rfl := Option.some.inj (hholds.path.symm.trans hdir)
    obtain ⟨rest, hrest⟩ := List.head?_eq_some_iff.mp ih
    have hhead : (cwd.items.takeWhile (· ≠ 0)).head? = some slash := by
      rw [hrest]
      rfl
    have hne : cwd.items.takeWhile (· ≠ 0) ≠ [] := by
      intro hnil
      rw [hnil] at hhead
      cases hhead
    obtain ⟨hlen, hnew'⟩ := newCwd_eq hne hholds.short path
    obtain ⟨hroom, hset'⟩ := setCwd_eq cwd new len
    have hfirst := @head_written _ path hhead
    rw [hnew] at hnew'
    cases hnew'
    rw [hset] at hset'
    cases hset'
    -- the first byte is copied, since the string that was written is not empty
    generalize written (cwd.items.takeWhile (· ≠ 0)) path = bs at *
    obtain ⟨rest', rfl⟩ := List.head?_eq_some_iff.mp hfirst
    have hpos : (min (if path.head? = some slash then (slash :: rest').length
        else ((slash :: rest').takeWhile (· ≠ 0)).length) (pathMax - 1)) ≠ 0 := by
      have hstring : ((slash :: rest').takeWhile (· ≠ 0)).length =
          (rest'.takeWhile (· ≠ 0)).length + 1 := rfl
      have hmax : pathMax = 256 := rfl
      rw [hstring, List.length_cons]
      split_ifs
      · omega
      · omega
    rw [head_overlay (by simp), List.head?_append, List.head?_take, if_neg hpos,
      head_overlay (by simp)]
    rfl

theorem joined_eq (dir path : Bytes) : joined dir path = joined dir [] ++ path := by
  rw [joined, joined, List.append_nil]

/-- What is written, if it was checked before. -/
theorem written_eq (hlen : dir.length < pathMax)
    (hroom : dir.getLast? = some slash ∨ dir.length < pathMax - 1) (hpath : path.length < pathMax) :
    written dir path = if path.head? = some slash then path else (joined dir path).take (pathMax - 1) := by
  unfold written
  split_ifs
  · exact List.take_of_length_le (by omega)
  · have hjoined : (joined dir []).length ≤ pathMax - 1 := by
      rcases hroom with hslash | hroom
      · rw [joined, if_pos hslash, List.append_nil, List.append_nil]
        omega
      · have := @length_joined_nil dir
        omega
    rw [joined_eq dir path, List.take_append, List.take_of_length_le hjoined]

theorem zero_notMem_written (hdir : 0 ∉ dir) (hpath : 0 ∉ path) : 0 ∉ written dir path := by
  have hjoined : 0 ∉ joined dir [] := by
    rw [joined, List.append_nil, List.mem_append]
    rintro (h | h)
    · exact hdir h
    · split_ifs at h
      · cases h
      · exact absurd (List.mem_singleton.mp h) (by decide)
  unfold written
  split_ifs
  · exact fun h => hpath (List.mem_of_mem_take h)
  · rw [List.mem_append]
    rintro (h | h)
    · exact hjoined h
    · exact hpath (List.mem_of_mem_take h)

/-- **A `chdir` that succeeds** keeps what is written. -/
theorem chdirTo_holds (hcwd : cwd.Holds dir) (hdir : dir ≠ []) (hnz : 0 ∉ path)
    (hpath : path.length < pathMax) (h : fs.chdirTo cwd path = some (.ok cwd')) :
    ∃ vn, fs.vfsResolveRelative dir path = some (.ok vn) ∧ vn.mode &&& vDir ≠ 0 ∧
      cwd'.Holds (written dir path) ∧ written dir path =
        if path.head? = some slash then path else (joined dir path).take (pathMax - 1) := by
  obtain ⟨dir', vn, new, len, hdir', hfound, hmode, hnew, hset⟩ := chdirTo_ok h
  obtain rfl := Option.some.inj (hcwd.path.symm.trans hdir')
  have hnone := zero_notMem_written hcwd.nonzero hnz
  have hshort : (written dir path).length ≤ pathMax - 1 ∧ written dir path =
      if path.head? = some slash then path else (joined dir path).take (pathMax - 1) := by
    by_cases habs : path.head? = some slash
    · rw [written, if_pos habs, if_pos habs, List.length_take]
      exact ⟨Nat.min_le_left _ _, List.take_of_length_le (by omega)⟩
    · rw [vfsResolveRelative_eq fs hdir hcwd.short, if_neg habs] at hfound
      split_ifs at hfound with hrefused
      · cases hfound
      · have hroom : dir.getLast? = some slash ∨ dir.length < pathMax - 1 := by
          by_contra hfull
          obtain ⟨hslash, hfull⟩ := not_or.mp hfull
          exact hrefused (.inl ⟨hslash, not_lt.mp hfull⟩)
        have heq := written_eq hcwd.short hroom hpath
        rw [if_neg habs] at heq
        rw [heq, if_neg habs, List.length_take]
        exact ⟨Nat.min_le_left _ _, rfl⟩
  refine ⟨vn, hfound, hmode, ?_, hshort.2⟩
  obtain ⟨hlen, hnew'⟩ := newCwd_eq hdir hcwd.short path
  obtain ⟨hroom, hset'⟩ := setCwd_eq cwd new len
  rw [hnew] at hnew'
  cases hnew'
  rw [hset] at hset'
  cases hset'
  have hall : (written dir path).takeWhile (· ≠ 0) = written dir path :=
    List.takeWhile_eq_self_iff.mpr fun b hb => decide_eq_true (ne_of_mem_of_not_mem hb hnone)
  have htake : (PathBuf.zero.overlay 0 (written dir path) hlen).items.take
      (min (if path.head? = some slash then (written dir path).length
        else ((written dir path).takeWhile (· ≠ 0)).length) (pathMax - 1)) = written dir path := by
    rw [hall, ite_self, min_eq_left hshort.1, take_zero_overlay]
  have hmax : pathMax = 256 := rfl
  refine ⟨by omega, hnone, ?_⟩
  have hitems := FixedArray.take_overlay (a := cwd) hroom
  simp only [htake, Nat.zero_add, List.take_zero, List.nil_append, List.length_append,
    List.length_singleton] at hitems ⊢
  exact hitems

end Keep

/-! ### The system call -/

/-- If `sys_chdir` succeeds, the process has a string that leads to the directory that was checked; if
it fails, the process has the string that it had. -/
structure ChdirKeeps (env : Env) (args : SyscallArgs) (c : Caller) (r : Reply) : Prop where
  success : r.rc = 0 → ∃ dir path vn new, c.cwd.Holds dir ∧
    Caller.userPath env args.arg1 = .ok (.ok path) ∧
    env.fs.vfsResolveRelative dir path = some (.ok vn) ∧ vn.mode &&& vDir ≠ 0 ∧
    r.cwd.Holds new ∧ new.head? = some slash ∧ env.fs.vfsResolve new = .ok vn
  failure : r.rc ≠ 0 → r.cwd = c.cwd

section Call

variable {env : Env} {args : SyscallArgs} {c : Caller} {r : Reply}

theorem userPath_error {ptr : BitVec 64} {e : ℤ} (h : Caller.userPath env ptr = .ok (.error e)) :
    e ≠ 0 := by
  have hloop : ∀ {k i : ℕ} {buf : PathBuf} {e : ℕ},
      cstrLoop env.user ptr.toNat k i buf = some (.error e) → e ≠ 0 := by
    intro k
    induction k with
    | zero =>
      intro i buf e h
      cases h
      decide
    | succ k ih =>
      intro i buf e h
      obtain ⟨buf', -, h⟩ := Option.bind_eq_some_iff.mp h
      split_ifs at h
      · cases h
      · exact ih h
  unfold Caller.userPath cstrFromUser at h
  split_ifs at h with hnull
  · cases h
    decide
  · cases hcopy : cstrLoop env.user ptr.toNat pathMax 0 PathBuf.zero with
    | none => simp [hcopy] at h
    | some r =>
      cases r with
      | error e' =>
        simp only [hcopy, Except.ok.injEq, Except.error.injEq] at h
        rw [← h]
        exact Int.natCast_ne_zero.mpr (hloop hcopy)
      | ok buf =>
        simp only [hcopy] at h
        cases hpath : buf.path with
        | none => simp [hpath, checked, Except.map] at h
        | some path => simp [hpath, checked, Except.map] at h

theorem userPath_string {ptr : BitVec 64} {path : Bytes}
    (h : Caller.userPath env ptr = .ok (.ok path)) : 0 ∉ path ∧ path.length < pathMax := by
  obtain ⟨found, hfound, hholds⟩ := cstrFromUser_spec env.user ptr.toNat
  unfold Caller.userPath at h
  rw [hfound] at h
  cases found with
  | error e => cases h
  | ok buf =>
    obtain ⟨n, hn⟩ := hholds buf rfl
    simp only [hn.path, checked, Except.map, Except.ok.injEq] at h
    exact h ▸ ⟨hn.nonzero, hn.short⟩

theorem sysChdir_cases (h : c.sysChdir env args = .ok r) :
    (∃ e, Caller.userPath env args.arg1 = .ok (.error e) ∧ r = c.reply (-e)) ∨
    ∃ path, Caller.userPath env args.arg1 = .ok (.ok path) ∧
      ((∃ e : ℕ, env.fs.chdirTo c.cwd path = some (.error e) ∧ r = c.reply (-e)) ∨
        ∃ cwd, env.fs.chdirTo c.cwd path = some (.ok cwd) ∧ r = { c.reply 0 with cwd := cwd }) := by
  unfold Caller.sysChdir at h
  cases hpath : Caller.userPath env args.arg1 with
  | error halt => simp [hpath] at h
  | ok found =>
    cases found with
    | error e =>
      simp only [hpath, Except.ok.injEq] at h
      exact .inl ⟨e, rfl, h.symm⟩
    | ok path =>
      refine .inr ⟨path, rfl, ?_⟩
      simp only [hpath] at h
      cases hcur : c.sys.current with
      | none => simp [hcur] at h
      | some cur =>
        cases hto : env.fs.chdirTo c.cwd path with
        | none => simp [hcur, hto] at h
        | some result =>
          cases result with
          | error e =>
            simp only [hcur, hto, Except.ok.injEq] at h
            exact .inl ⟨e, rfl, h.symm⟩
          | ok cwd =>
            simp only [hcur, hto, Except.ok.injEq] at h
            exact .inr ⟨cwd, rfl, h.symm⟩

/-- A reply with an error. -/
theorem keeps_of_error {e : ℤ} (he : e ≠ 0) : ChdirKeeps env args c (c.reply (-e)) :=
  ⟨fun hrc => absurd (neg_eq_zero.mp hrc) he, fun _ => rfl⟩

/-- **The string that `chdir` keeps** leads to the directory that it checked, exactly if it does so
without its last byte where it has 256. -/
theorem chdir_keeps_iff (h : c.sysChdir env args = .ok r) (hcwd : IsCwd c.cwd) :
    ChdirKeeps env args c r ↔ ∀ dir path vn, c.cwd.Holds dir →
      Caller.userPath env args.arg1 = .ok (.ok path) → path ≠ [] → path.head? ≠ some slash →
      (joined dir path).length = pathMax → env.fs.vfsResolve (joined dir path) = .ok vn →
      vn.mode &&& vDir ≠ 0 →
      env.fs.vfsResolve ((joined dir path).take (pathMax - 1)) = .ok vn := by
  have hdir := holds_of_terminated hcwd.terminated
  have hhead : (c.cwd.items.takeWhile (· ≠ 0)).head? = some slash := by
    obtain ⟨rest, hrest⟩ := List.head?_eq_some_iff.mp (isCwd_head hcwd)
    rw [hrest]
    rfl
  generalize c.cwd.items.takeWhile (· ≠ 0) = dir at hdir hhead
  have hne : dir ≠ [] := by
    rintro rfl
    cases hhead
  rcases sysChdir_cases h with ⟨e, hpath, rfl⟩ | ⟨path, hpath, ⟨e, hto, rfl⟩ | ⟨cwd, hto, rfl⟩⟩
  · refine iff_of_true (keeps_of_error (userPath_error hpath)) ?_
    intro dir' path' vn _ hpath'
    rw [hpath] at hpath'
    cases hpath'
  · -- the check failed, so the path does not lead to a directory
    have he : e ≠ 0 := by
      rcases chdirTo_error hdir hto with herr | ⟨-, -, -, rfl⟩
      · exact vfsResolveRelative_error hne hdir.short herr
      · decide
    refine iff_of_true (keeps_of_error (Int.natCast_ne_zero.mpr he)) ?_
    intro dir' path' vn hdir' hpath' hnil hrel hlen hfound hmode
    obtain rfl := holds_unique hdir hdir'
    rw [hpath] at hpath'
    cases hpath'
    have hcheck := relative_of_full hne hdir.short hnil hrel hlen hfound
    rcases chdirTo_error hdir hto with herr | ⟨vn', hvn', hmode', -⟩
    · rw [hcheck] at herr
      cases herr
    · rw [hcheck] at hvn'
      cases hvn'
      exact absurd hmode' hmode
  · obtain ⟨hnz, hshort⟩ := userPath_string hpath
    obtain ⟨vn, hfound, hmode, hholds, hwritten⟩ := chdirTo_holds hdir hne hnz hshort hto
    constructor
    · rintro ⟨hsuccess, -⟩ dir' path' vn' hdir' hpath' hnil hrel hlen hfull -
      obtain ⟨dir'', path'', vn'', new, hdir'', hpath'', hvn'', -, hnew, -, hres⟩ := hsuccess rfl
      obtain rfl := holds_unique hdir hdir'
      obtain rfl := holds_unique hdir hdir''
      rw [hpath] at hpath' hpath''
      cases hpath'
      cases hpath''
      obtain rfl := holds_unique hholds hnew
      rw [relative_of_full hne hdir.short hnil hrel hlen hfull] at hvn''
      cases hvn''
      rwa [hwritten, if_neg hrel] at hres
    · intro hcond
      refine ⟨fun _ => ⟨dir, path, vn, _, hdir, hpath, hfound, hmode, hholds,
        head_written hhead, ?_⟩, fun hrc => absurd rfl hrc⟩
      rw [hwritten]
      by_cases habs : path.head? = some slash
      · rw [vfsResolveRelative_eq _ hne hdir.short, if_pos habs] at hfound
        rw [if_pos habs]
        exact Option.some.inj hfound
      · obtain ⟨hjoined, hfull⟩ := full_of_relative hne hdir.short habs hfound
        rw [if_neg habs]
        rcases hfull with hlt | ⟨heq, hnil⟩
        · rwa [List.take_of_length_le (by omega)]
        · exact hcond dir path vn hdir hpath hnil habs heq hjoined hmode

end Call

/-- What a system call finds if there is no archive. -/
def bareEnv (user : ℕ → BitVec 8) : Env where
  user := user
  fs := ⟨fun _ => 0, [], true⟩
  kind _ := .node .rootDir
  vnode _ := ⟨0, none, true⟩
  blocks := none
  forkMemory := .noStack
  image := .error (-enoent)
  memory := (0, 0, 0)
  frameMask := 0
  input := []

/-- A path of 255 bytes: a dot, slashes, and `dev`. -/
def longPath : Bytes := dotName ++ List.replicate 251 slash ++ devName

/-- Init, with the root as its working directory. -/
def initCaller : Caller :=
  ⟨startScheduler (spawnInit ⟨⟨0, 0, 0x3000, 0⟩, 0, 0, 0, 0⟩ ⟨0, none, true⟩), rootCwd⟩

/-- The memory of a process with a string at address 1. -/
def stringAt (bs : Bytes) (a : ℕ) : BitVec 8 := if a = 0 then 0 else bs.getD (a - 1) 0

/-- A change to the directory `dev`. -/
theorem chdir_keeps_iff_dev : ∃ r,
    initCaller.sysChdir (bareEnv (stringAt devName)) ⟨1, 0, 0, 0⟩ = .ok r ∧ IsCwd initCaller.cwd ∧
    r.rc = 0 ∧
    (ChdirKeeps (bareEnv (stringAt devName)) ⟨1, 0, 0, 0⟩ initCaller r ↔
      ∀ dir path vn, initCaller.cwd.Holds dir →
        Caller.userPath (bareEnv (stringAt devName)) 1 = .ok (.ok path) → path ≠ [] →
        path.head? ≠ some slash → (joined dir path).length = pathMax →
        (bareEnv (stringAt devName)).fs.vfsResolve (joined dir path) = .ok vn →
        vn.mode &&& vDir ≠ 0 → (bareEnv (stringAt devName)).fs.vfsResolve
          ((joined dir path).take (pathMax - 1)) = .ok vn) := by
  have hrun : ∃ r, initCaller.sysChdir (bareEnv (stringAt devName)) ⟨1, 0, 0, 0⟩ = .ok r ∧ r.rc = 0 := by
    decide +kernel
  exact hrun.imp fun r h => ⟨h.1, .root, h.2, chdir_keeps_iff h.1 .root⟩

/-- A change to a path of 255 bytes in the root: the directory `dev` is checked, and the string that is
kept ends in `de`, which is not there. -/
theorem chdir_loses_byte : ∃ r,
    initCaller.sysChdir (bareEnv (stringAt longPath)) ⟨1, 0, 0, 0⟩ = .ok r ∧ IsCwd initCaller.cwd ∧
    r.rc = 0 ∧
    (bareEnv (stringAt longPath)).fs.vfsResolveRelative [slash] longPath =
      some (.ok .devfsRoot) ∧
    r.cwd.path = some ((joined [slash] longPath).take (pathMax - 1)) ∧
    (bareEnv (stringAt longPath)).fs.vfsResolve ((joined [slash] longPath).take (pathMax - 1)) =
      .error Vfs.enoent := by
  have hrun : ∃ r, initCaller.sysChdir (bareEnv (stringAt longPath)) ⟨1, 0, 0, 0⟩ = .ok r ∧ r.rc = 0 ∧
      r.cwd.path = some ((joined [slash] longPath).take (pathMax - 1)) := by
    decide +kernel
  refine hrun.imp fun r h => ⟨h.1, .root, h.2.1, ?_, h.2.2, ?_⟩
  · decide +kernel
  · decide +kernel

end Vibix.Proc
