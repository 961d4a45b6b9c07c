import Vibix.Proc.Chdir
import Vibix.Proc.Offsets
import Vibix.Proc.Outputs
import Vibix.Vfs.ArchiveBounds
import Vibix.Lib.Run

/-! # Files of the initramfs as arrays with a cursor

What an open file is for: an array of bytes, and a position that all descriptors of the file share.
`CursorCall` says what `read` and `lseek` do to it.

* **Runs.**  `UserStep` is a system call with the registers that user mode gave it, and the switch that
  may follow, or an interrupt.  `Uses` says that it is a `read` or an `lseek` on a given open file,
  by whatever process and descriptor.
* **Steps.**  A handler moves no offset, or that of the file behind the descriptor (`dispatch_oft`).
  The offset of every file stays below 2^63 (`FilesBelow`), since the size of a file of the initramfs
  has twelve octal digits; so that the conversions of `sys_lseek` between signed and unsigned numbers
  and its wrapping additions do no harm (`seekTarget_spec`).
* **Result.**  In every state after boot, `read` and `lseek` on a file of the initramfs are those of
  `CursorCall`, and everything else that happens leaves the position where it is
  (`initramfs_cursor`).  A `read` of no bytes is refused (`read_nothing`). -/

namespace Vibix.Proc

open Vfs

/-! ### Arrays -/

/-- The contents of a file of the initramfs. -/
def contents (env : Env) (data size : ℕ) : Bytes :=
  (List.range size).map fun i => env.fs.mem (data + i)

/-- The position that a seek asks for. -/
def seekPosition (D : Bytes) (pos : ℕ) (offset whence : BitVec 64) : Option ℤ :=
  match whence.toNat with
  | 0 => some offset.toInt
  | 1 => some (pos + offset.toInt)
  | 2 => some (D.length + offset.toInt)
  | _ => none

/-- `read` and `lseek` on an array with a cursor. -/
structure CursorCall (D : Bytes) (num : BitVec 64) (args : SyscallArgs) (pos : ℕ) (r : Reply)
    (pos' : ℕ) : Prop where
  read : num = 2#64 ∨ num = 14#64 → args.arg2 ≠ 0 → args.arg3 ≠ 0 →
    r.stores = [⟨args.arg2.toNat, (D.drop pos).take args.arg3.toNat⟩] ∧
      r.rc = ((D.drop pos).take args.arg3.toNat).length ∧
      pos' = pos + ((D.drop pos).take args.arg3.toNat).length
  refused : num = 2#64 ∨ num = 14#64 → args.arg2 = 0 ∨ args.arg3 = 0 →
    r.stores = [] ∧ r.rc < 0 ∧ pos' = pos
  sought : num = 16#64 → 0 ≤ r.rc →
    seekPosition D pos args.arg2 args.arg3 = some r.rc ∧ pos' = r.rc.toNat
  failed : num = 16#64 → r.rc < 0 → pos' = pos ∧
    ∀ t, seekPosition D pos args.arg2 args.arg3 = some t → t < 0 ∨ 2 ^ 63 ≤ t

/-- The addresses that `initramfs_read` copies from. -/
def readFootprint (data size len offset : ℕ) : Set ℕ :=
  {a | ∃ i < min len (size - offset), a = data + offset + i}

section Arrays

variable {env : Env} {file : OpenFile} {data size : ℕ} {isDir : Bool}

@[simp] theorem length_contents : (contents env data size).length = size := by simp [contents]

theorem take_drop_contents (pos len : ℕ) :
    ((contents env data size).drop pos).take len =
      (List.range (min len (size - pos))).map fun i => env.fs.mem (data + pos + i) := by
  refine List.ext_getElem ?_ fun i _ _ => ?_
  · simp
  · simp [contents, Nat.add_assoc]

/-- The addition in `sys_lseek`, for a base that is a position. -/
theorem toInt_add_ofNat {base : ℕ} (hbase : base < 2 ^ 63) (offset : BitVec 64) :
    (BitVec.ofNat 64 base + offset).toInt =
      if (base : ℤ) + offset.toInt < 2 ^ 63 then (base : ℤ) + offset.toInt
      else (base : ℤ) + offset.toInt - 2 ^ 64 := by
  have hto : (BitVec.ofNat 64 base).toInt = base := by
    have hnat : (BitVec.ofNat 64 base).toNat = base := by
      rw [BitVec.toNat_ofNat, Nat.mod_eq_of_lt (by omega)]
    rw [BitVec.toInt_eq_toNat_of_lt (by omega), hnat]
  have hlow := BitVec.le_toInt offset
  have hhigh := BitVec.toInt_lt (x := offset)
  rw [BitVec.toInt_add, hto, Int.bmod_def]
  norm_num at hlow hhigh ⊢
  split_ifs
  · omega
  · omega
  · omega
  · omega

/-- The result of a seek is the position that is asked for, or an error if that is none. -/
def SeekOk (target : ℤ) (position : Option ℤ) : Prop :=
  (0 ≤ target ∧ target < 2 ^ 63 ∧ position = some target) ∨
    (target < 0 ∧ ∀ t, position = some t → t < 0 ∨ 2 ^ 63 ≤ t)

/-- A sum that wrapped around is negative. -/
theorem seekOk_wrapped {t x : ℤ} (hlow : -2 ^ 63 ≤ t) (hhigh : t < 2 ^ 64)
    (hx : x = if t < 2 ^ 63 then t else t - 2 ^ 64) :
    SeekOk (if x < 0 then -einval else x) (some t) := by
  by_cases hneg : x < 0
  · rw [if_pos hneg]
    refine .inr ⟨by decide, fun t' ht' => ?_⟩
    cases ht'
    split_ifs at hx
    · omega
    · omega
  · rw [if_neg hneg]
    split_ifs at hx
    · exact .inl ⟨by omega, by omega, congrArg some hx.symm⟩
    · omega

/-- **The computation in `sys_lseek`** is the one on integers, or fails. -/
theorem seekTarget_spec (hkind : env.kind file.vnode.addr = .node (.file data size isDir))
    (hsize : size < 2 ^ 63) (hpos : file.offset < 2 ^ 63) (offset whence : BitVec 64) :
    SeekOk (seekTarget env file offset whence)
      (seekPosition (contents env data size) file.offset offset whence) := by
  have hlow := BitVec.le_toInt offset
  have hhigh := BitVec.toInt_lt (x := offset)
  norm_num only at hlow hhigh
  unfold seekTarget seekPosition
  rw [hkind, length_contents]
  obtain hw | hw | hw | ⟨k, hw⟩ : whence.toNat = 0 ∨ whence.toNat = 1 ∨ whence.toNat = 2 ∨
      ∃ k, whence.toNat = k + 3 := by
    rcases Nat.lt_or_ge whence.toNat 3 with hlt | hge
    · omega
    · exact .inr (.inr (.inr ⟨whence.toNat - 3, by omega⟩))
  · simp only [hw]
    exact seekOk_wrapped (by omega) (by omega) (if_pos (by omega)).symm
  · simp only [hw]
    exact seekOk_wrapped (by omega) (by omega) (toInt_add_ofNat hpos offset)
  · simp only [hw, VnodeRef.size]
    exact seekOk_wrapped (by omega) (by omega) (toInt_add_ofNat hsize offset)
  · simp only [hw]
    exact .inr ⟨by decide, by simp⟩

end Arrays

/-! ### Handlers -/

/-- A handler that moves the offset of the file behind its descriptor. -/
structure Moves (env : Env) (c : Caller) (args : SyscallArgs) (r : Reply) (idx : ℕ)
    (file : OpenFile) (offset : ℕ) : Prop where
  fd : fdEntry args.arg1.toNat c.sys = .ok (some idx)
  entry : c.sys.oft.get idx = some file
  sys : r.sys = moveOffset idx offset c.sys
  source : (∃ len rc bytes, readOp env file len = .moved offset rc bytes) ∨
    (0 ≤ seekTarget env file args.arg2 args.arg3 ∧
      offset = (seekTarget env file args.arg2 args.arg3).toNat)

section Handlers

variable {env : Env} {c : Caller} {args : SyscallArgs} {r : Reply}

theorem call_keeps {call : Call} {stores : List Store} (h : c.call call stores = .ok r)
    (hne : ∀ idx offset rc, call ≠ .transfer idx offset rc) : OftKeeps c.sys.oft r.sys.oft := by
  obtain ⟨⟨s, rc⟩, hrun, heq⟩ := ok_of_map h
  cases heq
  exact Call.run_oftKeeps hrun hne

theorem readFile_oft {missing : ℤ} {buf idx : ℕ} {len : BitVec 64} {file : OpenFile}
    (hfd : fdEntry args.arg1.toNat c.sys = .ok (some idx)) (hfile : c.sys.oft.get idx = some file)
    (h : c.readFile env missing buf len idx file = .ok r) :
    OftKeeps c.sys.oft r.sys.oft ∨ ∃ idx file offset, Moves env c args r idx file offset := by
  unfold Caller.readFile at h
  cases hop : readOp env file len with
  | missing =>
    simp only [hop] at h
    cases h
    exact .inl (.refl _)
  | terminal =>
    simp only [hop] at h
    exact .inl (call_keeps h nofun)
  | moved offset rc bytes =>
    simp only [hop] at h
    cases h
    exact .inr ⟨idx, file, offset, hfd, hfile, rfl, .inl ⟨len, rc, bytes, hop⟩⟩

theorem sysReadVfs_oft (h : c.sysReadVfs env args = .ok r) :
    OftKeeps c.sys.oft r.sys.oft ∨ ∃ idx file offset, Moves env c args r idx file offset := by
  rcases onFile_cases h with ⟨hsys, -⟩ | ⟨idx, file, hfd, hfile, hop⟩
  · exact .inl (.of_eq (congrArg System.oft hsys))
  · exact readFile_oft hfd hfile hop

theorem sysRead_oft (h : c.sysRead env args = .ok r) :
    OftKeeps c.sys.oft r.sys.oft ∨ ∃ idx file offset, Moves env c args r idx file offset := by
  unfold Caller.sysRead at h
  split_ifs at h
  · cases h
    exact .inl (.refl _)
  · obtain ⟨r', hr', heq⟩ := ok_of_map h
    cases heq
    rcases onFile_cases hr' with ⟨hsys, -⟩ | ⟨idx, file, hfd, hfile, hop⟩
    · exact .inl (.of_eq (congrArg System.oft hsys))
    · rcases readFile_oft hfd hfile hop with hkeep | ⟨idx, file, offset, hmove⟩
      · exact .inl hkeep
      · exact .inr ⟨idx, file, offset, hmove.fd, hmove.entry, hmove.sys, hmove.source⟩

theorem sysLseek_oft (h : c.sysLseek env args = .ok r) :
    OftKeeps c.sys.oft r.sys.oft ∨ ∃ idx file offset, Moves env c args r idx file offset := by
  rcases onFile_cases h with ⟨hsys, -⟩ | ⟨idx, file, hfd, hfile, hop⟩
  · exact .inl (.of_eq (congrArg System.oft hsys))
  · dsimp only at hop
    split_ifs at hop with htarget
    · cases hop
      exact .inr ⟨idx, file, _, hfd, hfile, rfl, .inr ⟨htarget, rfl⟩⟩
    · cases hop
      exact .inl (.refl _)

/-- A handler that only looks at an open file. -/
theorem onFile_looks {fd : ℕ} {bad : ℤ} {refused : Option ℤ}
    {op : ℕ → OpenFile → Except Halt Reply} (h : c.onFile fd bad refused op = .ok r)
    (hop : ∀ idx file r', op idx file = .ok r' → r'.sys = c.sys) : OftKeeps c.sys.oft r.sys.oft := by
  rcases onFile_cases h with ⟨hsys, -⟩ | ⟨idx, file, -, -, hop'⟩
  · exact .of_eq (congrArg System.oft hsys)
  · exact .of_eq (congrArg System.oft (hop idx file r hop'))

theorem openPath_keeps (h : c.openPath env args = .ok r) : OftKeeps c.sys.oft r.sys.oft := by
  unfold Caller.openPath at h
  split at h
  next => cases h
  next => exact call_keeps h nofun

theorem execPath_keeps (h : c.execPath env args = .ok r) : OftKeeps c.sys.oft r.sys.oft := by
  unfold Caller.execPath at h
  split at h
  next => cases h
  split at h
  next => cases h
  next =>
    cases h
    exact .refl _
  split at h
  next =>
    cases h
    exact .refl _
  next => exact call_keeps h nofun

theorem sysStat_keeps (h : c.sysStat env args = .ok r) : OftKeeps c.sys.oft r.sys.oft := by
  unfold Caller.sysStat at h
  split at h
  next => cases h
  next =>
    cases h
    exact .refl _
  split at h
  next => cases h
  next => cases h
  next =>
    cases h
    exact .refl _
  next =>
    cases h
    exact .refl _

theorem sysChdir_keeps (h : c.sysChdir env args = .ok r) : OftKeeps c.sys.oft r.sys.oft := by
  unfold Caller.sysChdir at h
  split at h
  next => cases h
  next =>
    cases h
    exact .refl _
  split at h
  next => cases h
  next => cases h
  next =>
    cases h
    exact .refl _
  next =>
    cases h
    exact .refl _

theorem onTty_keeps {stores : List Store} (h : c.onTty env args stores = .ok r) :
    OftKeeps c.sys.oft r.sys.oft := by
  unfold Caller.onTty at h
  split_ifs at h
  · cases h
    exact .refl _
  · refine onFile_looks h fun idx file r' hop => ?_
    split_ifs at hop
    · cases hop
      rfl
    · cases hop
      rfl

/-- A handler that changes the result or the stores of a call. -/
theorem map_call_keeps {call : Call} {stores : List Store} {f : Reply → Reply}
    (h : (c.call call stores).map f = .ok r) (hf : ∀ r, (f r).sys = r.sys)
    (hne : ∀ idx offset rc, call ≠ .transfer idx offset rc) : OftKeeps c.sys.oft r.sys.oft := by
  obtain ⟨r', hr', heq⟩ := ok_of_map h
  rw [← heq, hf r']
  exact call_keeps hr' hne

/-- **The table of handlers**: `read` and `lseek` move the offset of the file behind their descriptor,
and nothing else moves an offset. -/
theorem handler_oft {n : ℕ} (h : c.handler env args n = some (.ok r)) :
    OftKeeps c.sys.oft r.sys.oft ∨
      ((n = 2 ∨ n = 14 ∨ n = 16) ∧ ∃ idx file offset, Moves env c args r idx file offset) := by
  unfold Caller.handler at h
  split at h <;> (try cases h; done) <;> have h' := Option.some.inj h <;> clear h
  · exact .inl (call_keeps h' nofun)
  · unfold Caller.sysWrite at h'
    split_ifs at h'
    · cases h'
      exact .inl (.refl _)
    · refine .inl (onFile_looks h' fun idx file r' hop => ?_)
      split at hop <;> cases hop <;> rfl
  · exact (sysRead_oft h').imp_right fun hmove => ⟨.inl rfl, hmove⟩
  · cases h'
    exact .inl (.refl _)
  · exact .inl (call_keeps h' nofun)
  · unfold Caller.sysNanosleep at h'
    split_ifs at h' <;> cases h' <;> exact .inl (.refl _)
  · cases h'
    exact .inl (.refl _)
  · unfold Caller.sysReboot at h'
    split_ifs at h' <;> cases h' <;> exact .inl (.refl _)
  · exact .inl (call_keeps h' nofun)
  · exact .inl (execPath_keeps h')
  · obtain ⟨⟨s, rc, reaped⟩, hwait, heq⟩ := ok_of_map h'
    cases heq
    exact .inl (moves_keep (sysWaitpid_moves (V := ∅) hwait))
  · exact .inl (call_keeps h' nofun)
  · exact .inl (openPath_keeps h')
  · exact .inl (call_keeps h' nofun)
  · exact (sysReadVfs_oft h').imp_right fun hmove => ⟨.inr (.inl rfl), hmove⟩
  · refine .inl (onFile_looks h' fun idx file r' hop => ?_)
    cases hop
    rfl
  · exact (sysLseek_oft h').imp_right fun hmove => ⟨.inr (.inr rfl), hmove⟩
  · refine .inl (onFile_looks h' fun idx file r' hop => ?_)
    dsimp only at hop
    split at hop <;> cases hop <;> rfl
  · exact .inl (call_keeps h' nofun)
  · exact .inl (call_keeps h' nofun)
  · refine .inl (map_call_keeps h' (fun r => ?_) nofun)
    split_ifs <;> rfl
  · exact .inl (sysStat_keeps h')
  · refine .inl (onFile_looks h' fun idx file r' hop => ?_)
    cases hop
    rfl
  · exact .inl (sysChdir_keeps h')
  · refine .inl (onFile_looks h' fun idx file r' hop => ?_)
    cases hop
    rfl
  · exact .inl (onTty_keeps h')
  · exact .inl (onTty_keeps h')
  · unfold Caller.sysGetcwd at h'
    split at h'
    next => cases h'
    next => split_ifs at h' <;> cases h' <;> exact .inl (.refl _)
  · exact .inl (call_keeps h' nofun)
  · refine .inl (map_call_keeps h' (fun r => ?_) nofun)
    split_ifs <;> rfl
  · exact .inl (call_keeps h' nofun)

theorem dispatch_oft {num : BitVec 64} (h : c.dispatch env num args = .ok r) :
    OftKeeps c.sys.oft r.sys.oft ∨ ((num = 2#64 ∨ num = 14#64 ∨ num = 16#64) ∧
      ∃ idx file offset, Moves env c args r idx file offset) := by
  have hnum : ∀ k : ℕ, num.toNat = k → num = BitVec.ofNat 64 k := by
    rintro k rfl
    rw [BitVec.ofNat_toNat, BitVec.setWidth_eq]
  unfold Caller.dispatch at h
  split_ifs at h
  · cases hhandler : c.handler env args num.toNat with
    | none =>
      rw [hhandler] at h
      cases h
      exact .inl (.refl _)
    | some x =>
      rw [hhandler, Option.getD_some] at h
      subst h
      exact (handler_oft hhandler).imp_right
        (And.imp_left (Or.imp (hnum 2) (Or.imp (hnum 14) (hnum 16))))
  · cases h
    exact .inl (.refl _)

end Handlers

/-! ### Positions -/

/-- The offsets of open files are positions. -/
def FilesBelow (t : OpenFileTable) : Prop :=
  ∀ i file, t.get i = some file → file.serial < t.opened.length ∧ file.offset < 2 ^ 63

/-- The files of the initramfs come from an archive. -/
def Env.FromArchive (env : Env) : Prop :=
  ∀ addr data size isDir, env.kind addr = .node (.file data size isDir) →
    ∃ (ar : Archive) (kmalloc : Bool), ∃ entry ∈ ar.initramfsInit kmalloc,
      entry.data = data ∧ entry.size = size

section Positions

variable {env : Env} {c : Caller} {args : SyscallArgs} {r : Reply} {s : System}
  {t t' : OpenFileTable} {idx offset : ℕ} {file : OpenFile}

theorem Env.FromArchive.size_lt (h : env.FromArchive) {addr data size : ℕ} {isDir : Bool}
    (hkind : env.kind addr = .node (.file data size isDir)) : size < 2 ^ 63 := by
  obtain ⟨ar, kmalloc, entry, hentry, -, rfl⟩ := h addr data size isDir hkind
  obtain ⟨o, rfl⟩ := (initramfsInit_spec ar kmalloc).1 entry hentry
  exact (headerSize_lt ar o).trans (by norm_num)

theorem FilesBelow.keeps (h : FilesBelow t) (hk : OftKeeps t t') : FilesBelow t' := by
  intro i file' hget
  rcases hk.entry i file' hget with ⟨-, hlt, hzero⟩ | ⟨file, hfile, hserial, -, hoffset⟩
  · exact ⟨hlt, hzero ▸ by norm_num⟩
  · obtain ⟨hlt, hpos⟩ := h i file hfile
    exact ⟨hserial ▸ hlt.trans_le hk.opened, hoffset ▸ hpos⟩

theorem get_moveOffset (s : System) (idx offset j : ℕ) :
    (moveOffset idx offset s).oft.get j =
      if j = idx then (s.oft.get idx).map fun file : OpenFile => { file with offset := offset }
      else s.oft.get j := by
  unfold moveOffset
  rw [OpenFileTable.get_put]
  by_cases hj : j = idx
  · subst hj
    by_cases hlt : j < 64
    · rw [if_pos ⟨rfl, hlt⟩, if_pos rfl]
    · have hnone : s.oft.get j = none := by
        rw [OpenFileTable.get, dif_neg hlt]
      rw [if_neg fun h => hlt h.2, if_pos rfl, hnone, Option.map_none]
  · rw [if_neg fun h => hj h.1, if_neg hj]

theorem FilesBelow.move (h : FilesBelow s.oft) (hoffset : offset < 2 ^ 63) :
    FilesBelow (moveOffset idx offset s).oft := by
  intro j file' hget
  rw [get_moveOffset] at hget
  split_ifs at hget with hj
  · obtain ⟨file, hfile, rfl⟩ := Option.map_eq_some_iff.mp hget
    exact ⟨(h idx file hfile).1, hoffset⟩
  · exact h j file' hget

theorem readOp_lt (henv : env.FromArchive) {len : BitVec 64} {rc : ℤ} {bytes : Bytes}
    (hpos : file.offset < 2 ^ 63) (h : readOp env file len = .moved offset rc bytes) :
    offset < 2 ^ 63 := by
  unfold readOp at h
  split at h
  next => cases h
  next =>
    cases h
    exact hpos
  next =>
    cases h
    exact hpos
  next data size isDir hkind =>
    have hsize := henv.size_lt hkind
    cases h
    refine (Nat.mod_le _ _).trans_lt ?_
    omega
  next =>
    cases h
    exact hpos
  next => cases h
  next => cases h

theorem seekTarget_lt (env : Env) (file : OpenFile) (offset whence : BitVec 64) :
    seekTarget env file offset whence < 2 ^ 63 := by
  have hlt : ∀ x : BitVec 64, x.toInt < 2 ^ 63 := fun x => BitVec.toInt_lt (x := x)
  have herr : -einval < 2 ^ 63 := by decide
  unfold seekTarget
  split
  · split_ifs
    · exact hlt _
    · exact herr
  · split_ifs
    · exact hlt _
    · exact herr
  · decide
  · decide
  · dsimp only
    split_ifs
    · exact herr
    · split
      · exact hlt _
      · exact hlt _
      · exact hlt _
      · exact herr

theorem Moves.lt (h : Moves env c args r idx file offset) (henv : env.FromArchive)
    (hbelow : FilesBelow c.sys.oft) : offset < 2 ^ 63 := by
  rcases h.source with ⟨len, rc, bytes, hread⟩ | ⟨hnonneg, rfl⟩
  · exact readOp_lt henv (hbelow idx file h.entry).2 hread
  · have hlt := seekTarget_lt env file args.arg2 args.arg3
    omega

/-- **Every handler** keeps the offsets where they are positions. -/
theorem dispatch_below {num : BitVec 64} (henv : env.FromArchive) (hbelow : FilesBelow c.sys.oft)
    (h : c.dispatch env num args = .ok r) : FilesBelow r.sys.oft := by
  rcases dispatch_oft h with hkeep | ⟨-, idx, file, offset, hmove⟩
  · exact hbelow.keeps hkeep
  · rw [hmove.sys]
    exact hbelow.move (hmove.lt henv hbelow)

end Positions

/-! ### Uses of a file -/

section Uses

variable {env : Env} {c : Caller} {args : SyscallArgs} {r : Reply} {idx data size : ℕ} {isDir : Bool}
  {file : OpenFile}

theorem fdEntry_lt {fd : ℕ} {s : System} {o : Option ℕ} (h : fdEntry fd s = .ok o) : fd < 16 := by
  unfold fdEntry at h
  split at h
  next => cases h
  split_ifs at h with hlt
  exact hlt

/-- A handler on a descriptor of an open file. -/
theorem onFile_eq {fd : ℕ} {bad : ℤ} {refused : Option ℤ} {op : ℕ → OpenFile → Except Halt Reply}
    (hfd : fdEntry fd c.sys = .ok (some idx)) (hfile : c.sys.oft.get idx = some file) :
    c.onFile fd bad refused op =
      match refused with
      | some rc => .ok (c.reply rc)
      | none => op idx file := by
  unfold Caller.onFile
  rw [if_neg (not_le.mpr (fdEntry_lt hfd)), hfd]
  cases refused with
  | some rc => rfl
  | none =>
    dsimp only
    rw [hfile]

/-- `initramfs_read`. -/
theorem readFile_file {missing : ℤ} {buf : ℕ} {len : BitVec 64}
    (hkind : env.kind file.vnode.addr = .node (.file data size isDir)) (hsize : size < 2 ^ 63)
    (hpos : file.offset < 2 ^ 63) :
    c.readFile env missing buf len idx file =
      let bytes := ((contents env data size).drop file.offset).take len.toNat
      .ok ⟨moveOffset idx (file.offset + bytes.length) c.sys, c.cwd, bytes.length,
        [⟨buf, bytes⟩]⟩ := by
  have hlen : (((contents env data size).drop file.offset).take len.toNat).length =
      min len.toNat (size - file.offset) := by
    rw [List.length_take, List.length_drop, length_contents]
  have hrc : (BitVec.ofNat 64 (min len.toNat (size - file.offset))).toInt =
      (min len.toNat (size - file.offset) : ℕ) := by
    have hnat : (BitVec.ofNat 64 (min len.toNat (size - file.offset))).toNat =
        min len.toNat (size - file.offset) := by
      rw [BitVec.toNat_ofNat, Nat.mod_eq_of_lt (by omega)]
    rw [BitVec.toInt_eq_toNat_of_lt (by omega), hnat]
  have hmod : (file.offset + min len.toNat (size - file.offset)) % 2 ^ 64 =
      file.offset + min len.toNat (size - file.offset) := Nat.mod_eq_of_lt (by omega)
  unfold Caller.readFile readOp
  simp only [hkind]
  rw [hlen, take_drop_contents, hrc, hmod]
  rfl

variable (hfd : fdEntry args.arg1.toNat c.sys = .ok (some idx))
  (hfile : c.sys.oft.get idx = some file)
  (hkind : env.kind file.vnode.addr = .node (.file data size isDir)) (hsize : size < 2 ^ 63)
  (hpos : file.offset < 2 ^ 63)

/-- The file after a use. -/
def Used (idx : ℕ) (file : OpenFile) (D : Bytes) (num : BitVec 64) (args : SyscallArgs) (r : Reply) :
    Prop :=
  ∃ pos', r.sys.oft.get idx = some { file with offset := pos' } ∧
    CursorCall D num args file.offset r pos'

include hfd hfile hkind hsize hpos

theorem sysReadVfs_used (h : c.sysReadVfs env args = .ok r) :
    Used idx file (contents env data size) 14#64 args r := by
  unfold Caller.sysReadVfs at h
  rw [onFile_eq hfd hfile, Caller.emptyBuffer] at h
  by_cases hempty : args.arg2 = 0 ∨ args.arg3 = 0
  · rw [if_pos hempty] at h
    cases h
    have hneg : -einval < 0 := by decide
    refine ⟨file.offset, hfile, fun _ h₂ h₃ => absurd hempty (not_or.mpr ⟨h₂, h₃⟩),
      fun _ _ => ⟨rfl, hneg, rfl⟩, by simp, by simp⟩
  · rw [if_neg hempty, readFile_file hkind hsize hpos] at h
    cases h
    refine ⟨_, ?_, fun _ _ _ => ⟨rfl, rfl, rfl⟩, fun _ h => absurd h hempty, by simp, by simp⟩
    rw [get_moveOffset, if_pos rfl, hfile, Option.map_some]

theorem sysRead_used (h : c.sysRead env args = .ok r) :
    Used idx file (contents env data size) 2#64 args r := by
  have hlt := fdEntry_lt hfd
  unfold Caller.sysRead at h
  by_cases hempty : args.arg2 = 0 ∨ args.arg3 = 0
  · rw [if_pos (.inr hempty)] at h
    cases h
    have hneg : (-1 : ℤ) < 0 := by decide
    refine ⟨file.offset, hfile, fun _ h₂ h₃ => absurd hempty (not_or.mpr ⟨h₂, h₃⟩),
      fun _ _ => ⟨rfl, hneg, rfl⟩, by simp, by simp⟩
  · rw [if_neg (not_or.mpr ⟨not_le.mpr hlt, hempty⟩), onFile_eq hfd hfile,
      readFile_file hkind hsize hpos] at h
    cases h
    have hrc : ∀ n : ℕ, (if (n : ℤ) < 0 then -1 else (n : ℤ)) = n :=
      fun n => if_neg (Int.natCast_nonneg n).not_gt
    refine ⟨_, ?_, fun _ _ _ => ⟨rfl, hrc _, rfl⟩, fun _ h => absurd h hempty, by simp,
      by simp⟩
    rw [get_moveOffset, if_pos rfl, hfile, Option.map_some]

theorem sysLseek_used (h : c.sysLseek env args = .ok r) :
    Used idx file (contents env data size) 16#64 args r := by
  unfold Caller.sysLseek at h
  rw [onFile_eq hfd hfile] at h
  dsimp only at h
  rcases seekTarget_spec hkind hsize hpos args.arg2 args.arg3 with
    ⟨hnonneg, -, hposition⟩ | ⟨hneg, hnone⟩
  · rw [if_pos hnonneg] at h
    cases h
    refine ⟨_, ?_, by simp, by simp, fun _ _ => ⟨hposition, rfl⟩,
      fun _ hneg => absurd hnonneg (not_le.mpr hneg)⟩
    rw [get_moveOffset, if_pos rfl, hfile, Option.map_some]
  · rw [if_neg (not_le.mpr hneg)] at h
    cases h
    exact ⟨file.offset, hfile, by simp, by simp, fun _ hnonneg => absurd hnonneg (not_le.mpr hneg),
      fun _ _ => ⟨rfl, hnone⟩⟩

/-- **A use of a file of the initramfs.** -/
theorem dispatch_used {num : BitVec 64} (hnum : num = 2#64 ∨ num = 14#64 ∨ num = 16#64)
    (h : c.dispatch env num args = .ok r) : Used idx file (contents env data size) num args r := by
  rcases hnum with rfl | rfl | rfl
  · exact sysRead_used hfd hfile hkind hsize hpos h
  · exact sysReadVfs_used hfd hfile hkind hsize hpos h
  · exact sysLseek_used hfd hfile hkind hsize hpos h

end Uses

/-! ### Runs -/

/-- What happens to the kernel: a system call, with the stack and the registers of the caller and the
frames that the scheduler may select after it, or an interrupt. -/
inductive UserEvent where
  | syscall (saved : SyscallSavedState) (cwd : PathBuf) (env : Env) (num : BitVec 64)
      (args : SyscallArgs) (frames : ℕ → FrameView)
  | irq (rsp : ℕ) (input : List (BitVec 8)) (frames : ℕ → FrameView)

/-- `syscall_entry`, from the point where the handler returned. -/
def System.afterCall (frames : ℕ → FrameView) (s : System) : Except Halt System :=
  if s.shouldSchedule then
    schedulerSwitchExit (s.kernelStack - 176) frames { s with shouldSchedule := false }
  else .ok s

/-- What the kernel does then. -/
def System.userNext (s : System) : UserEvent → Except Halt System
  | .syscall saved cwd env num args frames =>
    match Caller.syscallHandler env ⟨{ s with syscallState := saved }, cwd⟩ num args with
    | .error e => .error e
    | .ok r => r.sys.afterCall frames
  | .irq rsp input frames => schedulerTick rsp input frames s

/-- One step of the kernel. -/
abbrev UserStep (s : System) (e : UserEvent) (s' : System) : Prop := s.userNext e = .ok s'

/-- The files of the initramfs that an event finds come from an archive. -/
def UserEvent.FromArchive : UserEvent → Prop
  | .syscall _ _ env _ _ _ => env.FromArchive
  | .irq .. => True

/-- A `read` or an `lseek` of the current process on the open file `idx`, which is carried out since
no signal prevents it. -/
def UserEvent.Uses (s : System) (idx : ℕ) : UserEvent → Prop
  | .syscall saved _ _ num args _ => (num = 2#64 ∨ num = 14#64 ∨ num = 16#64) ∧
      ∃ s₁, s.called saved = some s₁ ∧ fdEntry args.arg1.toNat s₁ = .ok (some idx)
  | .irq .. => False

/-- What an event does to an open file. -/
structure CursorKept (s : System) (e : UserEvent) (s' : System) (idx : ℕ) (file : OpenFile) :
    Prop where
  /-- A use of a file of the initramfs is one of an array with a cursor. -/
  used : ∀ saved cwd env num args frames data size isDir,
    e = .syscall saved cwd env num args frames → e.Uses s idx →
    env.kind file.vnode.addr = .node (.file data size isDir) →
    ∃ r pos', Caller.syscallHandler env ⟨{ s with syscallState := saved }, cwd⟩ num args = .ok r ∧
      s'.oft.get idx = some { file with offset := pos' } ∧
      CursorCall (contents env data size) num args file.offset r pos' ∧
      ∀ a ∈ readFootprint data size args.arg3.toNat file.offset, data ≤ a ∧ a < data + size
  /-- As long as the file is open, nothing else moves the cursor. -/
  unused : ¬ e.Uses s idx → ∀ file', s'.oft.get idx = some file' → file'.serial = file.serial →
    file'.vnode = file.vnode ∧ file'.offset = file.offset

section Runs

variable {s s' : System} {e : UserEvent} {es : List UserEvent} {idx : ℕ} {file : OpenFile}

theorem afterCall_oft {frames : ℕ → FrameView} (h : s.afterCall frames = .ok s') :
    s'.oft = s.oft := by
  unfold System.afterCall at h
  split_ifs at h
  · exact (schedulerSwitchExit_calm h).oft.trans rfl
  · cases h
    rfl

/-- The handler that a system call comes to, and what it leaves in the table of open files. -/
theorem syscallHandler_oft {saved : SyscallSavedState} {cwd : PathBuf} {env : Env}
    {num : BitVec 64} {args : SyscallArgs} {r : Reply}
    (h : Caller.syscallHandler env ⟨{ s with syscallState := saved }, cwd⟩ num args = .ok r) :
    (s.called saved = none ∧ r.sys.oft = s.oft) ∨
      ∃ s₁, s.called saved = some s₁ ∧ s₁.oft = s.oft ∧
        Caller.dispatch env ⟨s₁, cwd⟩ num args = .ok r := by
  unfold Caller.syscallHandler at h
  unfold System.called
  cases hcheck : checkSignalsSyscall { s with syscallState := saved } with
  | error halt => simp [hcheck] at h
  | ok x =>
    obtain ⟨s₁, res, cleared⟩ := x
    have hoft : s₁.oft = s.oft := (calm_of_checkSignals hcheck).oft.trans rfl
    cases res with
    | none =>
      simp only [hcheck] at h
      exact .inr ⟨s₁, rfl, hoft, h⟩
    | _ =>
      simp only [hcheck] at h
      cases h
      exact .inl ⟨rfl, hoft⟩

theorem userStep_below (henv : e.FromArchive) (hbelow : FilesBelow s.oft) (h : UserStep s e s') :
    FilesBelow s'.oft := by
  cases e with
  | syscall saved cwd env num args frames =>
    unfold UserStep System.userNext at h
    dsimp only at h
    split at h
    next => cases h
    next r hr =>
      rw [afterCall_oft h]
      rcases syscallHandler_oft hr with ⟨-, hoft⟩ | ⟨s₁, -, hoft, hdispatch⟩
      · rwa [hoft]
      · exact dispatch_below henv (c := ⟨s₁, cwd⟩) (hoft ▸ hbelow) hdispatch
  | irq rsp input frames =>
    rw [(schedulerTick_calm h).oft]
    exact hbelow

/-- A file that a handler does not use. -/
theorem Moves.unused {env : Env} {c : Caller} {args : SyscallArgs} {r : Reply} {i offset : ℕ}
    {f file' : OpenFile} (h : Moves env c args r i f offset)
    (hne : fdEntry args.arg1.toNat c.sys ≠ .ok (some idx)) (hfile : c.sys.oft.get idx = some file)
    (hget : r.sys.oft.get idx = some file') : file' = file := by
  have hi : idx ≠ i := by
    rintro rfl
    exact hne h.fd
  rw [h.sys, get_moveOffset, if_neg hi, hfile] at hget
  exact (Option.some.inj hget).symm

theorem OftKeeps.same {t t' : OpenFileTable} {file' : OpenFile} (h : OftKeeps t t')
    (hbelow : FilesBelow t) (hfile : t.get idx = some file) (hget : t'.get idx = some file')
    (hserial : file'.serial = file.serial) :
    file'.vnode = file.vnode ∧ file'.offset = file.offset := by
  have hlt := (hbelow idx file hfile).1
  rcases h.entry idx file' hget with ⟨hnew, -⟩ | ⟨file'', hfile'', -, hvnode, hoffset⟩
  · omega
  · rw [hfile] at hfile''
    cases hfile''
    exact ⟨hvnode.symm, hoffset.symm⟩

/-- **One event** and an open file. -/
theorem cursorKept_step (henv : e.FromArchive) (hbelow : FilesBelow s.oft) (h : UserStep s e s')
    (hfile : s.oft.get idx = some file) : CursorKept s e s' idx file := by
  cases e with
  | irq rsp input frames =>
    refine ⟨fun _ _ _ _ _ _ _ _ _ _ huses => huses.elim, fun _ file' hget _ => ?_⟩
    rw [(schedulerTick_calm h).oft, hfile] at hget
    cases hget
    exact ⟨rfl, rfl⟩
  | syscall saved cwd env num args frames =>
    unfold UserStep System.userNext at h
    dsimp only at h
    split at h
    next => cases h
    next r hr =>
      have hafter := afterCall_oft h
      constructor
      · rintro _ _ _ _ _ _ data size isDir ⟨⟩ ⟨hnum, s₁, hcalled, hfd⟩ hkind
        have hsize := henv.size_lt hkind
        rcases syscallHandler_oft hr with ⟨hnone, -⟩ | ⟨s₂, hcalled', hoft, hdispatch⟩
        · rw [hcalled] at hnone
          cases hnone
        · rw [hcalled] at hcalled'
          cases hcalled'
          obtain ⟨pos', hget, hcall⟩ := dispatch_used (c := ⟨s₁, cwd⟩) hfd
            ((congrArg (·.get idx) hoft).trans hfile) hkind hsize (hbelow idx file hfile).2 hnum
            hdispatch
          refine ⟨r, pos', hr, hafter ▸ hget, hcall, ?_⟩
          rintro a ⟨i, hi, rfl⟩
          omega
      · intro hnot file' hget hserial
        rw [hafter] at hget
        rcases syscallHandler_oft hr with ⟨-, hoft⟩ | ⟨s₁, hcalled, hoft, hdispatch⟩
        · rw [hoft, hfile] at hget
          cases hget
          exact ⟨rfl, rfl⟩
        · have hfile₁ : s₁.oft.get idx = some file := (congrArg (·.get idx) hoft).trans hfile
          rcases dispatch_oft hdispatch with hkeep | ⟨hnum, i, f, offset, hmove⟩
          · exact hkeep.same (hoft ▸ hbelow) hfile₁ hget hserial
          · have hne : fdEntry args.arg1.toNat s₁ ≠ .ok (some idx) :=
              fun hfd => hnot ⟨hnum, s₁, hcalled, hfd⟩
            rw [hmove.unused hne hfile₁ hget]
            exact ⟨rfl, rfl⟩

theorem boot_below (b : BootImage) (ttyVnode : Vnode) :
    FilesBelow (startScheduler (spawnInit b ttyVnode)).oft := by
  have hstart : ∀ s : System, (startScheduler s).oft = s.oft := by
    intro s
    unfold startScheduler
    split
    next => rfl
    next => rfl
  have hnew : FilesBelow OpenFileTable.new := by
    intro i file h
    simp [OpenFileTable.new, OpenFileTable.get] at h
  rw [hstart]
  unfold spawnInit
  cases halloc : OpenFileTable.new.oftAlloc ttyVnode 2 0o666 with
  | none => exact hnew
  | some x =>
    obtain ⟨oft, idx⟩ := x
    refine (hnew.keeps (oftAlloc_keeps halloc)).keeps ?_
    refine put_keeps rfl (fun _ => rfl) fun file' h => ?_
    obtain ⟨file, hfile, rfl⟩ := Option.map_eq_some_iff.mp h
    exact ⟨file, hfile, rfl, rfl, rfl⟩

/-- The offsets of open files are positions in every state after boot. -/
theorem run_below (b : BootImage) (ttyVnode : Vnode)
    (hrun : Run UserStep (startScheduler (spawnInit b ttyVnode)) es s)
    (henv : ∀ e ∈ es, e.FromArchive) : FilesBelow s.oft :=
  (hrun.restrict henv).invariant (P := fun t : System => FilesBelow t.oft) (boot_below b ttyVnode)
    fun _ _ _ hbelow hstep => userStep_below hstep.2 hbelow hstep.1

/-- **Files of the initramfs are arrays with a cursor**, in every state after boot and whatever happens
next. -/
theorem initramfs_cursor (b : BootImage) (ttyVnode : Vnode)
    (hrun : Run UserStep (startScheduler (spawnInit b ttyVnode)) es s)
    (henv : ∀ e' ∈ e :: es, e'.FromArchive) (hstep : UserStep s e s')
    (hfile : s.oft.get idx = some file) : CursorKept s e s' idx file :=
  cursorKept_step (henv e List.mem_cons_self)
    (run_below b ttyVnode hrun fun e' he' => henv e' (List.mem_cons_of_mem _ he')) hstep hfile

end Runs

/-- An archive with a file `a` of one byte, and the path `/a` in the memory of the caller. -/
def fileEnv : Env :=
  { bareEnv (stringAt [0x2f, 0x61]) with
    fs := (inMemory (namedFile [0x61])).fs
    kind := fun addr => .node (if addr = 0x5000 then .file 0x1200 1 false else .devTty)
    vnode := fun _ => ⟨0x5000, none, false⟩ }

/-- A system call of init. -/
def initCall (num : BitVec 64) (args : SyscallArgs) : UserEvent :=
  .syscall ⟨0, 0, 0⟩ rootCwd fileEnv num args fun _ => ⟨true, 0⟩

theorem fileEnv_fromArchive : fileEnv.FromArchive := by
  intro addr data size isDir hkind
  have htable : (inMemory (namedFile [0x61])).initramfsInit true =
      [⟨0x1000, 0x1200, 1, (namedFile [0x61]).typeflag⟩] := by decide +kernel
  refine ⟨inMemory (namedFile [0x61]), true, _, htable ▸ List.mem_cons_self, ?_⟩
  change FileKind.node (if addr = 0x5000 then .file 0x1200 1 false else .devTty) = _ at hkind
  split_ifs at hkind
  · cases hkind
    exact ⟨rfl, rfl⟩
  · cases hkind

theorem initCall_fromArchive {num : BitVec 64} {args : SyscallArgs} {es : List UserEvent}
    (h : ∀ e ∈ es, e.FromArchive) : ∀ e ∈ initCall num args :: es, e.FromArchive :=
  List.forall_mem_cons.mpr ⟨fileEnv_fromArchive, h⟩

/-- Init opens the file `a` and reads it. -/
theorem initramfs_cursor_open : ∃ s s' file,
    Run UserStep initCaller.sys [initCall 12 ⟨1, 0, 0, 0⟩] s ∧
    (∀ e ∈ [initCall 14 ⟨3, 0x2000000, 1, 0⟩, initCall 12 ⟨1, 0, 0, 0⟩], e.FromArchive) ∧
    UserStep s (initCall 14 ⟨3, 0x2000000, 1, 0⟩) s' ∧ s.oft.get 1 = some file ∧
    (initCall 14 ⟨3, 0x2000000, 1, 0⟩).Uses s 1 ∧
    CursorKept s (initCall 14 ⟨3, 0x2000000, 1, 0⟩) s' 1 file := by
  have hobs : ∃ s, initCaller.sys.userNext (initCall 12 ⟨1, 0, 0, 0⟩) = .ok s ∧
      (∃ s', s.userNext (initCall 14 ⟨3, 0x2000000, 1, 0⟩) = .ok s') ∧
      (∃ file, s.oft.get 1 = some file) ∧
      ∃ s₁, s.called ⟨0, 0, 0⟩ = some s₁ ∧ ∃ entry, fdEntry 3 s₁ = .ok entry ∧ entry = some 1 := by
    decide +kernel
  obtain ⟨s, hs, ⟨s', hs'⟩, ⟨file, hfile⟩, s₁, hs₁, _, hfd, rfl⟩ := hobs
  have hrun : Run UserStep initCaller.sys [initCall 12 ⟨1, 0, 0, 0⟩] s := .single hs
  have harchive := @initCall_fromArchive 14 ⟨3, 0x2000000, 1, 0⟩ _
    (@initCall_fromArchive 12 ⟨1, 0, 0, 0⟩ [] (List.forall_mem_nil _))
  exact ⟨s, s', file, hrun, harchive, hs', hfile, ⟨.inr (.inl rfl), s₁, hs₁, hfd⟩,
    initramfs_cursor ⟨⟨0, 0, 0x3000, 0⟩, 0, 0, 0, 0⟩ ⟨0, none, true⟩ hrun harchive hs' hfile⟩

/-- Init opens the file `a` and reads nothing: the result is an error, and not 0. -/
theorem read_nothing : ∃ s r,
    Run UserStep initCaller.sys [initCall 12 ⟨1, 0, 0, 0⟩] s ∧
    (initCall 14 ⟨3, 0x2000000, 0, 0⟩).Uses s 1 ∧
    Caller.syscallHandler fileEnv ⟨{ s with syscallState := ⟨0, 0, 0⟩ }, rootCwd⟩ 14
      ⟨3, 0x2000000, 0, 0⟩ = .ok r ∧ r.rc = -einval ∧
    ((contents fileEnv 0x1200 1).drop 0).take 0 = [] := by
  have hobs : ∃ s, initCaller.sys.userNext (initCall 12 ⟨1, 0, 0, 0⟩) = .ok s ∧
      (∃ r, Caller.syscallHandler fileEnv ⟨{ s with syscallState := ⟨0, 0, 0⟩ }, rootCwd⟩ 14
        ⟨3, 0x2000000, 0, 0⟩ = .ok r ∧ r.rc = -einval) ∧
      ∃ s₁, s.called ⟨0, 0, 0⟩ = some s₁ ∧ ∃ entry, fdEntry 3 s₁ = .ok entry ∧ entry = some 1 := by
    decide +kernel
  obtain ⟨s, hs, ⟨r, hr, hrc⟩, s₁, hs₁, _, hfd, rfl⟩ := hobs
  exact ⟨s, r, .single hs, ⟨.inr (.inl rfl), s₁, hs₁, hfd⟩, hr, hrc, rfl⟩

end Vibix.Proc
