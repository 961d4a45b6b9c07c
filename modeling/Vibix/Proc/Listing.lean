import Vibix.Proc.Chdir

/-! # Directories

`sys_getdents` asks the `readdir` operation of a directory for one entry after the other, and
`vfs_lookup` finds a name in a directory.

* **Listing.**  The loop of `sys_getdents` starts at the first entry in every call (`getdentsLoop_eq`):
  the offset of the open file is not used.  So a directory is enumerated once in the first call, and again
  in each further one (`getdents_once_iff`, `getdents_repeats`).
* **Lookup.**  The entries of `rootfs_readdir` are those of the skeleton, whereas `rootfs_lookup` also
  finds the files of the initramfs; and `d_type` is the low byte of the mode, which is zero for
  directories and devices alike.  `listing_agrees_iff` says for which names listing and lookup agree all
  the same. -/

namespace Vibix.Proc

open Vfs

/-! ### The operations -/

/-- `rootfs_readdir`. -/
def rootfsReaddir (ino index : ℕ) : Option Dirent :=
  if index = 0 then some ⟨ino, vDir, dotName⟩
  else if index = 1 then some ⟨0, vDir, dotDotName⟩
  else if ino = 0 then
    match index - 2 with
    | 0 => some ⟨1, vDir, sbinName⟩
    | 1 => some ⟨2, vDir, binName⟩
    | 2 => some ⟨3, vDir, etcName⟩
    | 3 => some ⟨4, vDir, devName⟩
    | _ => none
  else none

/-- `devfs_readdir`. -/
def devfsReaddir : ℕ → Option Dirent
  | 0 => some ⟨1, vDir, dotName⟩
  | 1 => some ⟨2, vDir, dotDotName⟩
  | 2 => some ⟨3, vChr, nullName⟩
  | 3 => some ⟨4, vChr, zeroName⟩
  | 4 => some ⟨5, vChr, ttyName⟩
  | _ => none

/-- The operation `readdir` of a vnode. -/
def readdirOp : VnodeRef → Option (ℕ → Option Dirent)
  | .devfsRoot => some devfsReaddir
  | .rootDir => some (rootfsReaddir 0)
  | .sbinDir => some (rootfsReaddir 1)
  | .binDir => some (rootfsReaddir 2)
  | .etcDir => some (rootfsReaddir 3)
  | .devDir => some (rootfsReaddir 4)
  | _ => none

/-- The loop of `sys_getdents`, from an index on. -/
def getdentsLoop (op : ℕ → Option Dirent) : ℕ → ℕ → List Dirent
  | 0, _ => []
  | count + 1, index =>
    match op index with
    | none => []
    | some d => d :: getdentsLoop op count (index + 1)

theorem rootfsReaddir_of_ne {ino : ℕ} (h : ino ≠ 0) (i : ℕ) :
    rootfsReaddir ino i = [⟨ino, vDir, dotName⟩, ⟨0, vDir, dotDotName⟩][i]? := by
  match i with
  | 0 => rfl
  | 1 => rfl
  | i + 2 => simp [rootfsReaddir, h]

/-- The entries of a directory besides `.` and `..`. -/
def children : VnodeRef → List Dirent
  | .rootDir => [⟨1, vDir, sbinName⟩, ⟨2, vDir, binName⟩, ⟨3, vDir, etcName⟩, ⟨4, vDir, devName⟩]
  | .devfsRoot => [⟨3, vChr, nullName⟩, ⟨4, vChr, zeroName⟩, ⟨5, vChr, ttyName⟩]
  | _ => []

/-- The entries of a directory are what `readdir` returns, one after the other. -/
theorem readdir_eq (v : VnodeRef) :
    ((FileKind.node v).readdir = none ∧ readdirOp v = none ∧ children v = []) ∨
      ∃ a b entries op, (FileKind.node v).readdir = some entries ∧ readdirOp v = some op ∧
        entries = ⟨a, vDir, dotName⟩ :: ⟨b, vDir, dotDotName⟩ :: children v ∧ ∀ i, op i = entries[i]? := by
  cases v with
  | rootDir =>
    refine .inr ⟨_, _, _, _, rfl, rfl, rfl, fun i => ?_⟩
    match i with
    | 0 | 1 | 2 | 3 | 4 | 5 => rfl
    | i + 6 => rfl
  | sbinDir | binDir | etcDir | devDir =>
    exact .inr ⟨_, _, _, _, rfl, rfl, rfl, rootfsReaddir_of_ne (by decide)⟩
  | devfsRoot =>
    refine .inr ⟨_, _, _, _, rfl, rfl, rfl, fun i => ?_⟩
    match i with
    | 0 | 1 | 2 | 3 | 4 => rfl
    | i + 5 => rfl
  | devNull | devZero | devTty | file => exact .inl ⟨rfl, rfl, rfl⟩

/-- **The loop of `sys_getdents`** goes over the entries from the index on. -/
theorem getdentsLoop_eq {op : ℕ → Option Dirent} {entries : List Dirent}
    (hop : ∀ i, op i = entries[i]?) (count index : ℕ) :
    getdentsLoop op count index = (entries.drop index).take count := by
  induction count generalizing index with
  | zero => rfl
  | succ count ih =>
    unfold getdentsLoop
    rw [hop index]
    by_cases hindex : index < entries.length
    · rw [List.getElem?_eq_getElem hindex, List.drop_eq_getElem_cons hindex, List.take_succ_cons]
      dsimp only
      rw [ih]
    · rw [List.getElem?_eq_none (not_lt.mp hindex), List.drop_of_length_le (not_lt.mp hindex)]
      rfl

/-! ### Enumerating -/

/-- Calls of `sys_getdents` on a descriptor, one after the other, each with a buffer and a count. -/
def Caller.getdentsCalls (env : Env) (fd : BitVec 64) :
    Caller → List (BitVec 64 × BitVec 64) → Except Halt (List Reply)
  | _, [] => .ok []
  | c, (buf, count) :: calls =>
    match c.sysGetdents env ⟨fd, buf, count, 0⟩ with
    | .error e => .error e
    | .ok r => (getdentsCalls env fd ⟨r.sys, r.cwd⟩ calls).map (r :: ·)

/-- The entries that replies have stored. -/
def writtenBy (rs : List Reply) : List Bytes := rs.flatMap fun r => r.stores.map Store.bytes

/-- **The directory is enumerated once**: what was stored so far is the beginning of the list of entries,
as long as asked for, and when all have been stored the result is 0. -/
structure EnumeratedOnce (entries : List Dirent) (counts : List ℕ) (rs : List Reply) : Prop where
  written : writtenBy rs = (entries.map Dirent.bytes).take counts.sum
  ended : ∀ i r, rs[i]? = some r → entries.length ≤ (writtenBy (rs.take i)).length → r.rc = 0

/-- An open directory behind a descriptor. -/
structure OpenDirectory (env : Env) (c : Caller) (fd : BitVec 64) (kind : FileKind) : Prop where
  fd_lt : fd.toNat < 16
  file : ∃ idx file, fdEntry fd.toNat c.sys = .ok (some idx) ∧ c.sys.oft.get idx = some file ∧
    env.kind file.vnode.addr = kind
  isDir : kind.mode &&& vDir ≠ 0

section Getdents

variable {env : Env} {c : Caller} {fd : BitVec 64} {kind : FileKind} {entries : List Dirent}
  {calls : List (BitVec 64 × BitVec 64)}

/-- The reply of one call. -/
def dirReply (c : Caller) (kind : FileKind) (buf count : BitVec 64) : Reply :=
  match kind.readdir with
  | none => c.reply (-enotty)
  | some entries =>
    { c.reply (entries.take count.toNat).length with
      stores := (entries.take count.toNat).zipIdx.map fun d =>
        ⟨buf.toNat + direntSize * d.2, d.1.bytes⟩ }

theorem sysGetdents_eq (h : OpenDirectory env c fd kind) {buf count : BitVec 64} (hbuf : buf ≠ 0)
    (hcount : count ≠ 0) :
    c.sysGetdents env ⟨fd, buf, count, 0⟩ = .ok (dirReply c kind buf count) := by
  obtain ⟨idx, file, hfd, hfile, hkind⟩ := h.file
  have hempty : Caller.emptyBuffer ⟨fd, buf, count, 0⟩ = none :=
    if_neg (not_or.mpr ⟨hbuf, hcount⟩)
  simp only [Caller.sysGetdents, Caller.onFile, if_neg (not_le.mpr h.fd_lt), hfd, hempty, hfile, hkind,
    dirReply]
  cases kind.readdir with
  | none => rfl
  | some entries => rfl

theorem dirReply_state (buf count : BitVec 64) :
    (⟨(dirReply c kind buf count).sys, (dirReply c kind buf count).cwd⟩ : Caller) = c := by
  unfold dirReply
  cases kind.readdir with
  | none => rfl
  | some entries => rfl

/-- **Every call is like the first one.** -/
theorem getdentsCalls_eq (h : OpenDirectory env c fd kind) (hcalls : ∀ x ∈ calls, x.1 ≠ 0 ∧ x.2 ≠ 0) :
    c.getdentsCalls env fd calls = .ok (calls.map fun x => dirReply c kind x.1 x.2) := by
  induction calls with
  | nil => rfl
  | cons x calls ih =>
    obtain ⟨buf, count⟩ := x
    rw [List.forall_mem_cons] at hcalls
    simp only [Caller.getdentsCalls, sysGetdents_eq h hcalls.1.1 hcalls.1.2, dirReply_state,
      ih hcalls.2]
    rfl

theorem dirReply_written (hread : kind.readdir = some entries) (buf count : BitVec 64) :
    (dirReply c kind buf count).stores.map Store.bytes =
      (entries.map Dirent.bytes).take count.toNat := by
  simp only [dirReply, hread, List.map_map, ← List.map_take]
  conv_rhs => rw [← List.zipIdx_map_fst 0 (entries.take count.toNat), List.map_map]
  rfl

/-- The first entry is no other one. -/
theorem readdir_first (hread : kind.readdir = some entries) :
    ∃ first rest, entries = first :: rest ∧ ∀ d ∈ rest, d.bytes ≠ first.bytes := by
  cases kind with
  | node v =>
    cases v with
    | rootDir | sbinDir | binDir | etcDir | devDir | devfsRoot =>
      cases hread
      exact ⟨_, _, rfl, by decide +kernel⟩
    | _ => cases hread
  | pipeReader => cases hread
  | pipeWriter => cases hread

/-- The beginning of a list once more, behind a beginning of it. -/
theorem getElem?_take_again {α : Type*} {b : α} {bs rest : List α} {n m : ℕ}
    (hn : n < (b :: bs).length) (hm : 0 < m) :
    ((b :: bs).take n ++ ((b :: bs).take m ++ rest))[n]? = some b := by
  obtain ⟨m, rfl⟩ := Nat.exists_eq_add_of_le' hm
  rw [List.getElem?_append_right (by rw [List.length_take]; omega), List.length_take,
    Nat.min_eq_left hn.le, Nat.sub_self, List.take_succ_cons]
  rfl

/-- Two calls do not enumerate a directory once. -/
theorem not_enumeratedOnce (hread : kind.readdir = some entries) {x y : BitVec 64 × BitVec 64}
    (hx : x.2 ≠ 0) (hy : y.2 ≠ 0) :
    ¬ EnumeratedOnce entries ((x :: y :: calls).map fun x => x.2.toNat)
      ((x :: y :: calls).map fun x => dirReply c kind x.1 x.2) := by
  rintro ⟨hwritten, hended⟩
  obtain ⟨first, rest, rfl, hfirst⟩ := readdir_first hread
  have hxpos : 0 < x.2.toNat := Nat.pos_of_ne_zero fun h => hx (BitVec.eq_of_toNat_eq h)
  have hypos : 0 < y.2.toNat := Nat.pos_of_ne_zero fun h => hy (BitVec.eq_of_toNat_eq h)
  by_cases hall : (first :: rest).length ≤ x.2.toNat
  · -- the second call starts again
    have hrc := hended 1 _ rfl (by simpa [writtenBy, dirReply_written hread] using hall)
    simp only [dirReply, hread, Caller.reply, List.length_take, List.length_cons] at hrc
    omega
  · -- its first entry is the first one, and not the next one
    rw [not_le] at hall
    have hget := congrArg (fun l => l[x.2.toNat]?) hwritten
    simp only [writtenBy, List.map_cons, List.flatMap_cons, dirReply_written hread, List.sum_cons]
      at hget
    rw [getElem?_take_again (by simpa using hall) hypos, List.getElem?_take_of_lt (by omega),
      ← List.map_cons, List.getElem?_map, List.getElem?_eq_getElem hall, Option.map_some,
      Option.some.injEq] at hget
    obtain ⟨k, hk⟩ := Nat.exists_eq_add_of_le' hxpos
    simp only [hk, List.getElem_cons_succ] at hget
    exact hfirst _ (List.getElem_mem _) hget.symm

/-- **A directory is enumerated once in one call**, and in no other way: exactly if there is at most one
call, and the directory has a `readdir` operation. -/
theorem getdents_once_iff (h : OpenDirectory env c fd kind)
    (hcalls : ∀ x ∈ calls, x.1 ≠ 0 ∧ x.2 ≠ 0) :
    ∃ rs, c.getdentsCalls env fd calls = .ok rs ∧
      (EnumeratedOnce (kind.readdir.getD []) (calls.map fun x => x.2.toNat) rs ↔
        calls = [] ∨ (calls.length = 1 ∧ kind.readdir ≠ none)) := by
  refine ⟨_, getdentsCalls_eq h hcalls, ?_⟩
  match calls, hcalls with
  | [], _ => exact iff_of_true ⟨by simp [writtenBy], by simp⟩ (.inl rfl)
  | [x], hcalls =>
    cases hread : kind.readdir with
    | none =>
      refine iff_of_false (fun henum => ?_) (by simp)
      have hrc := henum.ended 0 _ rfl (Nat.zero_le _)
      simp [dirReply, hread, Caller.reply, enotty] at hrc
    | some entries =>
      refine iff_of_true ⟨?_, ?_⟩ (by simp)
      · simp [writtenBy, dirReply_written hread]
      · intro i r hr hlen
        obtain ⟨first, rest, rfl, -⟩ := readdir_first hread
        match i with
        | 0 => simp [writtenBy] at hlen
        | i + 1 => simp at hr
  | x :: y :: calls, hcalls =>
    refine iff_of_false ?_ (by simp)
    cases hread : kind.readdir with
    | none =>
      intro henum
      have hrc := henum.ended 0 _ rfl (Nat.zero_le _)
      simp [dirReply, hread, Caller.reply, enotty] at hrc
    | some entries =>
      rw [List.forall_mem_cons, List.forall_mem_cons] at hcalls
      exact not_enumeratedOnce hread hcalls.1.2 hcalls.2.1.2

end Getdents

/-- The path `/` in the memory of the caller, and the vnode of the root at `0x5000`. -/
def rootEnv : Env :=
  { bareEnv (stringAt [slash]) with
    kind := fun addr => .node (if addr = 0x5000 then .rootDir else .devTty)
    vnode := fun _ => ⟨0x5000, none, false⟩ }

/-- Init opens `/`. -/
theorem open_root : ∃ r, initCaller.openPath rootEnv ⟨1, 0, 0, 0⟩ = .ok r ∧
    OpenDirectory rootEnv ⟨r.sys, r.cwd⟩ 3 (.node .rootDir) := by
  have hobs : ∃ r, initCaller.openPath rootEnv ⟨1, 0, 0, 0⟩ = .ok r ∧
      (∃ entry, fdEntry 3 r.sys = .ok entry ∧ entry = some 1) ∧
      ∃ file, r.sys.oft.get 1 = some file ∧ file.vnode.addr = 0x5000 := by
    decide +kernel
  obtain ⟨r, hr, ⟨_, hfd, rfl⟩, file, hfile, haddr⟩ := hobs
  exact ⟨r, hr, by decide, ⟨1, file, hfd, hfile, by simp [rootEnv, haddr]⟩, by decide⟩

/-- One call for two entries. -/
theorem getdents_once_iff_root : ∃ r, initCaller.openPath rootEnv ⟨1, 0, 0, 0⟩ = .ok r ∧
    ∃ rs, Caller.getdentsCalls rootEnv 3 ⟨r.sys, r.cwd⟩ [(0x2000000, 2)] = .ok rs ∧
      (EnumeratedOnce ((FileKind.node .rootDir).readdir.getD []) [2] rs ↔
        [((0x2000000 : BitVec 64), (2 : BitVec 64))] = [] ∨
          ([((0x2000000 : BitVec 64), (2 : BitVec 64))].length = 1 ∧
            (FileKind.node .rootDir).readdir ≠ none)) := by
  obtain ⟨r, hr, hopen⟩ := open_root
  exact ⟨r, hr, getdents_once_iff hopen (by simp)⟩

/-- **The second call starts again**: two calls for all six entries of `/` return six entries each. -/
theorem getdents_repeats : ∃ r rs, initCaller.openPath rootEnv ⟨1, 0, 0, 0⟩ = .ok r ∧
    Caller.getdentsCalls rootEnv 3 ⟨r.sys, r.cwd⟩ [(0x2000000, 6), (0x2000000, 6)] = .ok rs ∧
    rs.map Reply.rc = [6, 6] ∧
    ¬ EnumeratedOnce ((FileKind.node .rootDir).readdir.getD []) [6, 6] rs := by
  obtain ⟨r, hr, hopen⟩ := open_root
  refine ⟨r, _, hr, getdentsCalls_eq hopen (by simp), rfl, ?_⟩
  exact @not_enumeratedOnce _ _ _ [] rfl (0x2000000, 6) (0x2000000, 6) (by decide) (by decide)

/-! ### Looking up -/

/-- An entry of the directory with this name. -/
def Lists (dir : VnodeRef) (name : Bytes) (d : Dirent) : Prop :=
  ∃ op i, readdirOp dir = some op ∧ op i = some d ∧ d.name = name

/-- The field `d_type`. -/
def Dirent.dType (d : Dirent) : ℕ := d.mode % 256

/-- **Listing and lookup agree** on a name: it is listed exactly if it is found, and `d_type` says that
it is a directory exactly if what is found is one. -/
structure ListingAgrees (fs : FsState) (dir : VnodeRef) (name : Bytes) : Prop where
  listed : (∃ d, Lists dir name d) ↔ ∃ vn, fs.vfsLookup dir name = .ok vn
  type : ∀ d vn, Lists dir name d → fs.vfsLookup dir name = .ok vn →
    (d.dType = vDir % 256 ↔ vn.mode &&& vDir ≠ 0)

/-- A name that is listed, besides `.` and `..`. -/
def Listed (dir : VnodeRef) (name : Bytes) : Prop := name ∈ (children dir).map Dirent.name

/-- A file of the initramfs that `rootfs_lookup` finds under a name that is not listed. -/
def FoundInArchive (fs : FsState) (dir : VnodeRef) (name : Bytes) : Prop :=
  dir.fsType = .rootFs ∧ name ≠ [] ∧ ¬ Listed dir name ∧
    ∃ path data size entryType, FsState.childPath dir name = .ok path ∧
      initramfsFind fs.mem fs.entries path = some (data, size, entryType) ∧ entryType ≠ 0x35 ∧
      fs.kmalloc = true

section Lookup

variable {fs : FsState} {dir : VnodeRef} {name : Bytes} {d : Dirent}

theorem lists_iff (hdot : name ≠ dotName) (hdotdot : name ≠ dotDotName) :
    Lists dir name d ↔ d ∈ children dir ∧ d.name = name := by
  rcases readdir_eq dir with ⟨-, hop, hnil⟩ | ⟨a, b, entries, op, -, hop, rfl, hget⟩
  · simp [Lists, hop, hnil]
  · constructor
    · rintro ⟨op', i, hop', hd, rfl⟩
      rw [hop] at hop'
      cases hop'
      rw [hget] at hd
      rcases List.mem_cons.mp (List.mem_of_getElem? hd) with rfl | hd
      · exact absurd rfl hdot
      rcases List.mem_cons.mp hd with rfl | hd
      · exact absurd rfl hdotdot
      · exact ⟨hd, rfl⟩
    · rintro ⟨hd, hname⟩
      obtain ⟨i, hi⟩ := List.mem_iff_getElem?.mp hd
      exact ⟨op, i + 2, hop, (hget _).trans hi, hname⟩

theorem exists_lists (hdot : name ≠ dotName) (hdotdot : name ≠ dotDotName) :
    (∃ d, Lists dir name d) ↔ Listed dir name := by
  simp only [lists_iff hdot hdotdot, Listed, List.mem_map]

/-- A name that is not listed: listing and lookup agree if it is not found. -/
theorem agrees_of_not_listed (hdot : name ≠ dotName) (hdotdot : name ≠ dotDotName)
    (hnot : ¬ Listed dir name) :
    ListingAgrees fs dir name ↔ ¬ ∃ vn, fs.vfsLookup dir name = .ok vn := by
  rw [← exists_lists hdot hdotdot] at hnot
  exact ⟨fun h hfound => hnot (h.listed.mpr hfound),
    fun h => ⟨iff_of_false hnot h, fun d _ hd => absurd ⟨d, hd⟩ hnot⟩⟩

/-- A name that is listed and found: listing and lookup agree if they do on the type. -/
theorem agrees_of_listed (hdot : name ≠ dotName) (hdotdot : name ≠ dotDotName)
    (hlisted : Listed dir name) {vn : VnodeRef} (hvn : fs.vfsLookup dir name = .ok vn) :
    ListingAgrees fs dir name ↔ vn.mode &&& vDir ≠ 0 := by
  have htype : ∀ d, Lists dir name d → d.dType = vDir % 256 := by
    intro d hd
    have hmem := ((lists_iff hdot hdotdot).mp hd).1
    clear hd
    cases dir with
    | rootDir | devfsRoot =>
      revert d
      decide
    | _ => cases hmem
  obtain ⟨d, hd⟩ := (exists_lists hdot hdotdot).mpr hlisted
  constructor
  · exact fun h => (h.type d vn hd hvn).mp (htype d hd)
  · refine fun hmode => ⟨iff_of_true ⟨d, hd⟩ ⟨vn, hvn⟩, fun d' vn' hd' hvn' => ?_⟩
    rw [hvn] at hvn'
    cases hvn'
    exact iff_of_true (htype d' hd') hmode

/-- **`rootfs_lookup`** finds names that are not listed in the archive only. -/
theorem rootfsLookup_ok_iff (hdir : dir.fsType = .rootFs) (hne : name ≠ [])
    (hnot : ¬ Listed dir name) :
    (∃ vn, fs.rootfsLookup dir name = .ok vn) ↔ FoundInArchive fs dir name := by
  have hino : ∀ n ∈ (children .rootDir).map Dirent.name, ¬ (dir.ino = 0 ∧ name = n) := by
    rintro n hn ⟨hino, rfl⟩
    cases dir with
    | rootDir => exact hnot hn
    | sbinDir | binDir | etcDir | devDir | devNull | devZero | devTty => cases hino
    | devfsRoot | file => cases hdir
  unfold FsState.rootfsLookup
  rw [if_neg (hino _ (by simp [children])), if_neg (hino _ (by simp [children])),
    if_neg (hino _ (by simp [children])), if_neg (hino _ (by simp [children]))]
  simp only [FoundInArchive, hdir, true_and, ne_eq, hne, not_false_eq_true, hnot]
  cases hpath : FsState.childPath dir name with
  | error e => simp
  | ok path =>
    cases hfind : initramfsFind fs.mem fs.entries path with
    | none => simp [hfind]
    | some r =>
      obtain ⟨data, size, entryType⟩ := r
      by_cases htype : entryType = 53#8
      · simp [hfind, htype]
      · cases hmem : fs.kmalloc with
        | true => simp [FsState.initramfsBuildVnode, hfind, htype, hmem]
        | false => simp [FsState.initramfsBuildVnode, hfind, htype, hmem]

/-- The directories of the root file system. -/
theorem agrees_rootfs (hdir : dir.fsType = .rootFs) (hdot : name ≠ dotName)
    (hdotdot : name ≠ dotDotName) : ListingAgrees fs dir name ↔ ¬ FoundInArchive fs dir name := by
  by_cases hlisted : Listed dir name
  · refine iff_of_true ?_ fun hfound => hfound.2.2.1 hlisted
    cases dir with
    | rootDir =>
      simp only [Listed, children, List.map_cons, List.map_nil, List.mem_cons, List.not_mem_nil,
        or_false] at hlisted
      rcases hlisted with rfl | rfl | rfl | rfl
      all_goals exact (agrees_of_listed hdot hdotdot (by simp [Listed, children]) rfl).mpr (by decide)
    | sbinDir | binDir | etcDir | devDir => cases hlisted
    | _ => cases hdir
  · rw [agrees_of_not_listed hdot hdotdot hlisted, not_iff_not]
    by_cases hne : name = []
    · refine iff_of_false ?_ fun hfound => hfound.2.1 hne
      rintro ⟨vn, hvn⟩
      rw [FsState.vfsLookup, if_pos (.inl hne)] at hvn
      cases hvn
    · rw [← rootfsLookup_ok_iff hdir hne hlisted, FsState.vfsLookup, if_neg (not_or.mpr ⟨hne, hdot⟩),
        if_neg hdotdot, hdir]

/-- The directory of the devices: `d_type` takes them for directories. -/
theorem agrees_devfs (hdot : name ≠ dotName) (hdotdot : name ≠ dotDotName) :
    ListingAgrees fs .devfsRoot name ↔ ¬ Listed .devfsRoot name := by
  by_cases hlisted : Listed .devfsRoot name
  · refine iff_of_false ?_ (not_not.mpr hlisted)
    simp only [Listed, children, List.map_cons, List.map_nil, List.mem_cons, List.not_mem_nil,
      or_false] at hlisted
    rcases hlisted with rfl | rfl | rfl
    all_goals
      rw [agrees_of_listed hdot hdotdot (by simp [Listed, children]) rfl]
      decide
  · refine iff_of_true ((agrees_of_not_listed hdot hdotdot hlisted).mpr ?_) hlisted
    rintro ⟨vn, hvn⟩
    simp only [Listed, children, List.map_cons, List.map_nil, List.mem_cons, List.not_mem_nil,
      or_false, not_or] at hlisted
    unfold FsState.vfsLookup at hvn
    split_ifs at hvn
    simp [VnodeRef.fsType, FsState.devfsLookup, hlisted.1, hlisted.2.1, hlisted.2.2] at hvn

/-- **Listing and lookup agree** in a directory exactly on the names that are neither those of files of the
initramfs that are found there, nor those of devices. -/
theorem listing_agrees_iff (fs : FsState) (dir : VnodeRef) (hdir : dir.mode &&& vDir ≠ 0)
    (name : Bytes) (hdot : name ≠ dotName) (hdotdot : name ≠ dotDotName) :
    ListingAgrees fs dir name ↔
      ¬ FoundInArchive fs dir name ∧ ¬ (dir = .devfsRoot ∧ Listed .devfsRoot name) := by
  cases dir with
  | rootDir | sbinDir | binDir | etcDir | devDir =>
    rw [agrees_rootfs rfl hdot hdotdot]
    simp
  | devfsRoot =>
    rw [agrees_devfs hdot hdotdot]
    simp [FoundInArchive, VnodeRef.fsType]
  | devNull | devZero | devTty => exact absurd rfl hdir
  | file data size isDir =>
    have hnot : ¬ Listed (.file data size isDir) name := by simp [Listed, children]
    refine iff_of_true ((agrees_of_not_listed hdot hdotdot hnot).mpr ?_) ?_
    · rintro ⟨vn, hvn⟩
      unfold FsState.vfsLookup at hvn
      split_ifs at hvn
      cases hvn
    · simp [FoundInArchive, VnodeRef.fsType]

end Lookup

/-- An archive with the file `sbin/a`. -/
def sbinFs : FsState := (inMemory (namedFile (sbinName ++ [slash, 0x61]))).fs

/-- The name `bin` in the root. -/
theorem listing_agrees_iff_bin : sbinFs.vfsResolve [slash] = .ok .rootDir ∧
    (ListingAgrees sbinFs .rootDir binName ↔ ¬ FoundInArchive sbinFs .rootDir binName ∧
      ¬ (VnodeRef.rootDir = .devfsRoot ∧ Listed .devfsRoot binName)) :=
  ⟨rfl, listing_agrees_iff sbinFs .rootDir (by decide) binName (by decide) (by decide)⟩

/-- **A file that is found and not listed**: `/sbin/a` of the archive; and a device that is listed with the
`d_type` of directories. -/
theorem listing_disagrees :
    (sbinFs.vfsResolve (slash :: sbinName) = .ok .sbinDir ∧
      (∃ vn, sbinFs.vfsLookup .sbinDir [0x61] = .ok vn) ∧ (∀ d, ¬ Lists .sbinDir [0x61] d) ∧
      ¬ ListingAgrees sbinFs .sbinDir [0x61]) ∧
    sbinFs.vfsResolve (slash :: devName) = .ok .devfsRoot ∧
      ¬ ListingAgrees sbinFs .devfsRoot nullName := by
  have hsbin : ∃ vn, sbinFs.vfsResolve (slash :: sbinName) = .ok vn ∧ vn = .sbinDir := by decide +kernel
  have hdev : ∃ vn, sbinFs.vfsResolve (slash :: devName) = .ok vn ∧ vn = .devfsRoot := by decide +kernel
  have hfound : ∃ vn, sbinFs.vfsLookup .sbinDir [0x61] = .ok vn := by decide +kernel
  obtain ⟨_, hsbin, rfl⟩ := hsbin
  obtain ⟨_, hdev, rfl⟩ := hdev
  obtain ⟨vn, hvn⟩ := hfound
  have hnot : ∀ d, ¬ Lists .sbinDir [0x61] d := fun d hd =>
    List.not_mem_nil ((lists_iff (by decide) (by decide)).mp hd).1
  refine ⟨⟨hsbin, ⟨vn, hvn⟩, hnot, fun h => ?_⟩, hdev, fun h => ?_⟩
  · obtain ⟨d, hd⟩ := h.listed.mpr ⟨vn, hvn⟩
    exact hnot d hd
  · exact (agrees_devfs (by decide) (by decide)).mp h (by simp [Listed, children])

end Vibix.Proc
