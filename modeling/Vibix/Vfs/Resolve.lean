import Vibix.Vfs.Initramfs

/-! # Path resolution

`vfs_resolve` and what it calls.  A path is split into components, which are looked up one after the
other from the root on: a fixed skeleton of directories, the devices, and the files of the
initramfs.  When a lookup fails, the path up to that component is looked up in the initramfs as a
whole.

There are no directories beyond the skeleton, so the lookup of a file in any other directory fails
at the directory: `resolves_iff` says exactly which files are found. -/

namespace Vibix.Vfs

/-- `ENOENT`. -/
def enoent : ℕ := 2
/-- `ENOMEM`. -/
def enomem : ℕ := 12
/-- `EINVAL`. -/
def einval : ℕ := 22
/-- `ENAMETOOLONG`. -/
def enametoolong : ℕ := 36
/-- `PATH_MAX`. -/
def pathMax : ℕ := 256
/-- `VFS_MAX_COMPONENTS`. -/
def vfsMaxComponents : ℕ := 16

/-- The byte between components. -/
def slash : BitVec 8 := 0x2f
/-- `sbin`. -/
def sbinName : Bytes := [0x73, 0x62, 0x69, 0x6e]
/-- `bin`. -/
def binName : Bytes := [0x62, 0x69, 0x6e]
/-- `etc`. -/
def etcName : Bytes := [0x65, 0x74, 0x63]
/-- `dev`. -/
def devName : Bytes := [0x64, 0x65, 0x76]
/-- `null`. -/
def nullName : Bytes := [0x6e, 0x75, 0x6c, 0x6c]
/-- `zero`. -/
def zeroName : Bytes := [0x7a, 0x65, 0x72, 0x6f]
/-- `ttyS0`. -/
def ttyName : Bytes := [0x74, 0x74, 0x79, 0x53, 0x30]
/-- `.`. -/
def dotName : Bytes := [0x2e]
/-- `..`. -/
def dotDotName : Bytes := [0x2e, 0x2e]

/-- `FsType`. -/
inductive FsType where
  | rootFs
  | devFs
  | initramFs
deriving DecidableEq, Repr

/-- The vnodes that paths lead to: the static ones, and those built for files of the initramfs. -/
inductive VnodeRef where
  | rootDir
  | sbinDir
  | binDir
  | etcDir
  | devDir
  | devfsRoot
  | devNull
  | devZero
  | devTty
  | file (data size : ℕ) (isDir : Bool)
deriving DecidableEq, Repr

namespace VnodeRef

/-- The field `fs_type`. -/
def fsType : VnodeRef → FsType
  | rootDir | sbinDir | binDir | etcDir | devDir => .rootFs
  | devfsRoot | devNull | devZero | devTty => .devFs
  | file .. => .initramFs

/-- The field `ino`. -/
def ino : VnodeRef → ℕ
  | rootDir | devfsRoot | file .. => 0
  | sbinDir | devNull => 1
  | binDir | devZero => 2
  | etcDir | devTty => 3
  | devDir => 4

/-- The path in the field `data` of a directory of the skeleton. -/
def pathPrefix : VnodeRef → Bytes
  | sbinDir => sbinName
  | binDir => binName
  | etcDir => etcName
  | _ => []

/-- The field `data` of a file of the initramfs. -/
def data : VnodeRef → Option ℕ
  | file data .. => some data
  | _ => none

/-- The field `size`. -/
def size : VnodeRef → ℕ
  | file _ size _ => size
  | _ => 0

/-- The field `mount`. -/
def mount : VnodeRef → Option VnodeRef
  | devDir => some devfsRoot
  | _ => none

end VnodeRef

/-- What path resolution depends on: the memory with the archive, the table of the initramfs, and
whether there is memory for another vnode. -/
structure FsState where
  mem : ℕ → BitVec 8
  entries : List InitramfsEntry
  kmalloc : Bool

namespace FsState

variable (fs : FsState)

/-- `initramfs_build_vnode`. -/
def initramfsBuildVnode (path : Bytes) : Option VnodeRef :=
  match initramfsFind fs.mem fs.entries path with
  | none => none
  | some (data, size, entryType) =>
    if fs.kmalloc then some (.file data size (entryType = 0x35)) else none

/-- The path of a child of `dir`, at most `PATH_MAX` bytes long. -/
def childPath (dir : VnodeRef) (name : Bytes) : Except ℕ Bytes :=
  let path := (if dir.pathPrefix = [] then [] else dir.pathPrefix ++ [slash]) ++ name
  if pathMax < path.length then .error enametoolong else .ok path

/-- `rootfs_lookup`. -/
def rootfsLookup (dir : VnodeRef) (name : Bytes) : Except ℕ VnodeRef :=
  if dir.ino = 0 ∧ name = sbinName then .ok .sbinDir
  else if dir.ino = 0 ∧ name = binName then .ok .binDir
  else if dir.ino = 0 ∧ name = etcName then .ok .etcDir
  else if dir.ino = 0 ∧ name = devName then .ok .devDir
  else
    match childPath dir name with
    | .error e => .error e
    | .ok path =>
      match initramfsFind fs.mem fs.entries path with
      | none => .error enoent
      | some (_, _, entryType) =>
        if entryType = 0x35 then .error enoent
        else
          match fs.initramfsBuildVnode path with
          | some vn => .ok vn
          | none => .error enomem

/-- `devfs_lookup`. -/
def devfsLookup (name : Bytes) : Option VnodeRef :=
  if name = nullName then some .devNull
  else if name = zeroName then some .devZero
  else if name = ttyName then some .devTty
  else none

/-- `vfs_lookup`. -/
def vfsLookup (dir : VnodeRef) (name : Bytes) : Except ℕ VnodeRef :=
  if name = [] ∨ name = dotName then .error einval
  else if name = dotDotName then .error einval
  else
    match dir.fsType with
    | .rootFs => fs.rootfsLookup dir name
    | .devFs =>
      match devfsLookup name with
      | some vn => .ok vn
      | none => .error enoent
    | .initramFs => .error enoent

end FsState

/-- The bytes of a path from `a` up to `b`. -/
def slice (path : Bytes) (a b : ℕ) : Bytes := (path.take b).drop a

/-- The position of the first byte from `pos` on that is not a slash. -/
def skipSlashes (path : Bytes) (pos : ℕ) : ℕ :=
  pos + ((path.drop pos).takeWhile (· = slash)).length

/-- The position of the first slash from `pos` on. -/
def skipName (path : Bytes) (pos : ℕ) : ℕ :=
  pos + ((path.drop pos).takeWhile (· ≠ slash)).length

/-- Pass 1: the components from `pos` on, where `comps` are the ones before. -/
def collect (path : Bytes) : ℕ → ℕ → List (ℕ × ℕ) → Except ℕ (List (ℕ × ℕ))
  | 0, _, comps => .ok comps
  | fuel + 1, pos, comps =>
    if path.length ≤ pos then .ok comps
    else
      let cs := skipSlashes path pos
      if path.length ≤ cs then .ok comps
      else
        let pos := skipName path cs
        if comps.length < vfsMaxComponents then
          if slice path cs pos = dotDotName then collect path fuel pos comps.dropLast
          else if slice path cs pos ≠ dotName then collect path fuel pos (comps ++ [(cs, pos)])
          else collect path fuel pos comps
        else .error enametoolong

/-- Pass 2: look up the components from `current` on. -/
def FsState.resolveFrom (fs : FsState) (path : Bytes) (start : ℕ) :
    VnodeRef → List (ℕ × ℕ) → Except ℕ VnodeRef
  | current, [] => .ok current
  | current, (compStart, compEnd) :: comps =>
    match fs.vfsLookup current (slice path compStart compEnd) with
    | .ok next => fs.resolveFrom path start (next.mount.getD next) comps
    | .error e =>
      let accumulated := slice path start compEnd
      if accumulated = [] then .error e
      else
        match fs.initramfsBuildVnode accumulated with
        | some vn => .ok vn
        | none => .error e

/-- `vfs_resolve`, with the root file system mounted. -/
def FsState.vfsResolve (fs : FsState) (path : Bytes) : Except ℕ VnodeRef :=
  if path = [] ∨ path = [slash] then .ok .rootDir
  else
    let start := skipSlashes path 0
    if path.length ≤ start then .ok .rootDir
    else
      -- every round of the loop goes at least one byte ahead
      match collect path path.length start [] with
      | .error e => .error e
      | .ok comps => fs.resolveFrom path start .rootDir comps

/-! ### Pass 1 -/

/-- A component of a relative path. -/
structure ProperName (c : Bytes) : Prop where
  ne_nil : c ≠ []
  slash : slash ∉ c
  dot : c ≠ dotName
  dotDot : c ≠ dotDotName

/-- The path with the components `cs`, with a slash before each. -/
def absolute (cs : List Bytes) : Bytes := cs.flatMap (slash :: ·)

/-- The relative path with the components `cs`. -/
def joinPath : List Bytes → Bytes
  | [] => []
  | c :: cs => c ++ absolute cs

/-- The positions of components that are written from `pos` on, with a slash before each. -/
def ranges : ℕ → List Bytes → List (ℕ × ℕ)
  | _, [] => []
  | pos, c :: cs => (pos + 1, pos + 1 + c.length) :: ranges (pos + 1 + c.length) cs

section Collect

variable {path c : Bytes} {before cs : List Bytes} {fuel : ℕ} {comps : List (ℕ × ℕ)}

@[simp] theorem absolute_nil : absolute [] = [] := rfl

@[simp] theorem absolute_cons : absolute (c :: cs) = slash :: (c ++ absolute cs) := by
  simp [absolute]

theorem slash_cons_joinPath (h : cs ≠ []) : slash :: joinPath cs = absolute cs := by
  cases cs with
  | nil => exact absurd rfl h
  | cons c cs => simp [joinPath]

theorem absolute_append : absolute (before ++ cs) = absolute before ++ absolute cs := by
  simp [absolute]

theorem length_le_length_absolute : cs.length ≤ (absolute cs).length := by
  induction cs with
  | nil => simp
  | cons c cs ih =>
    simp only [absolute_cons, List.length_cons, List.length_append]
    omega

theorem joinPath_ne_nil (h : ∀ c ∈ cs, ProperName c) (hne : cs ≠ []) : joinPath cs ≠ [] := by
  cases cs with
  | nil => exact absurd rfl hne
  | cons c cs => simp [joinPath, (h c (by simp)).ne_nil]

/-- What follows a component starts with a slash. -/
theorem takeWhile_name (h : slash ∉ c) :
    (c ++ absolute cs).takeWhile (· ≠ slash) = c := by
  have hall : ∀ b ∈ c, decide (b ≠ slash) = true := by
    intro b hb
    simpa using ne_of_mem_of_not_mem hb h
  rw [List.takeWhile_append_of_pos hall]
  cases cs with
  | nil => simp
  | cons d cs => simp

theorem takeWhile_slash (h : ProperName c) :
    (slash :: (c ++ absolute cs)).takeWhile (· = slash) = [slash] := by
  obtain ⟨b, c, rfl⟩ := List.exists_cons_of_ne_nil h.ne_nil
  have hb : b ≠ slash := fun hb => h.slash (by simp [hb])
  simp [hb]

theorem drop_absolute :
    (absolute (before ++ cs)).drop (absolute before).length = absolute cs := by
  rw [absolute_append, List.drop_left]

theorem drop_absolute_succ : (absolute (before ++ c :: cs)).drop ((absolute before).length + 1) =
    c ++ absolute cs := by
  rw [← List.drop_drop, drop_absolute, absolute_cons]
  rfl

theorem skipSlashes_absolute (before : List Bytes) (h : ProperName c) :
    skipSlashes (absolute (before ++ c :: cs)) (absolute before).length =
      (absolute before).length + 1 := by
  rw [skipSlashes, drop_absolute, absolute_cons, takeWhile_slash h]
  rfl

theorem skipName_absolute (h : ProperName c) :
    skipName (absolute (before ++ c :: cs)) ((absolute before).length + 1) =
      (absolute before).length + 1 + c.length := by
  rw [skipName, drop_absolute_succ, takeWhile_name h.slash]

theorem length_absolute_snoc :
    (absolute (before ++ [c])).length = (absolute before).length + 1 + c.length := by
  simp [absolute_append]
  omega

theorem slice_name : slice (absolute (before ++ c :: cs)) ((absolute before).length + 1)
    ((absolute before).length + 1 + c.length) = c := by
  rw [slice, List.drop_take, drop_absolute_succ, Nat.add_sub_cancel_left, List.take_left]

/-- **Pass 1** finds the components where they are. -/
theorem collect_absolute (before : List Bytes) (comps : List (ℕ × ℕ)) (hcs : ∀ c ∈ cs, ProperName c)
    (hlen : comps.length + cs.length ≤ vfsMaxComponents) (hfuel : cs.length ≤ fuel) :
    collect (absolute (before ++ cs)) fuel (absolute before).length comps =
      .ok (comps ++ ranges (absolute before).length cs) := by
  induction cs generalizing before fuel comps with
  | nil =>
    cases fuel with
    | zero => simp [collect, ranges]
    | succ fuel => simp [collect, ranges]
  | cons c cs ih =>
    obtain ⟨fuel, rfl⟩ := Nat.exists_eq_succ_of_ne_zero (Nat.ne_zero_of_lt hfuel)
    rw [List.forall_mem_cons] at hcs
    rw [List.length_cons] at hlen hfuel
    obtain ⟨hc, hcs⟩ := hcs
    have hpos := List.length_pos_of_ne_nil hc.ne_nil
    have htotal : (absolute (before ++ c :: cs)).length =
        (absolute before).length + 1 + c.length + (absolute cs).length := by
      simp [absolute_append]
      omega
    have hih := @ih fuel (before ++ [c])
      (comps ++ [((absolute before).length + 1, (absolute before).length + 1 + c.length)])
      hcs (by rw [List.length_append, List.length_singleton]; omega) (by omega)
    rw [length_absolute_snoc, List.append_assoc, List.append_assoc] at hih
    rw [collect, if_neg (by omega), skipSlashes_absolute before hc]
    dsimp only
    rw [if_neg (by omega), skipName_absolute hc, slice_name, if_pos (by omega),
      if_neg hc.dotDot, if_pos hc.dot]
    exact hih

/-- Starting behind the first slash makes no difference. -/
theorem collect_one (hc : ProperName c) :
    collect (absolute (c :: cs)) (fuel + 1) 1 comps =
      collect (absolute (c :: cs)) (fuel + 1) 0 comps := by
  have hpos := List.length_pos_of_ne_nil hc.ne_nil
  have hlen : (absolute (c :: cs)).length = 1 + c.length + (absolute cs).length := by
    simp
    omega
  have hzero : skipSlashes (absolute (c :: cs)) 0 = 1 := skipSlashes_absolute [] hc
  have hone : skipSlashes (absolute (c :: cs)) 1 = 1 := by
    obtain ⟨b, c, rfl⟩ := List.exists_cons_of_ne_nil hc.ne_nil
    have hb : b ≠ slash := fun hb => hc.slash (by simp [hb])
    simp [skipSlashes, hb]
  have h₀ : ¬ (absolute (c :: cs)).length ≤ 0 := by omega
  have h₁ : ¬ (absolute (c :: cs)).length ≤ 1 := by omega
  rw [collect, collect]
  simp only [hzero, hone, h₀, h₁, if_false]

end Collect

/-! ### Pass 2 -/

/-- Pass 2 in terms of components: the lookups from `current` on, behind the components `before`. -/
def FsState.resolveNames (fs : FsState) : VnodeRef → List Bytes → List Bytes → Except ℕ VnodeRef
  | current, _, [] => .ok current
  | current, before, c :: cs =>
    match fs.vfsLookup current c with
    | .ok next => fs.resolveNames (next.mount.getD next) (before ++ [c]) cs
    | .error e =>
      match fs.initramfsBuildVnode (joinPath (before ++ [c])) with
      | some vn => .ok vn
      | none => .error e

section Resolve

variable {fs : FsState} {c : Bytes} {before cs : List Bytes} {current : VnodeRef}

theorem slice_accumulated : slice (absolute (before ++ c :: cs)) 1
    ((absolute before).length + 1 + c.length) = joinPath (before ++ [c]) := by
  have hsplit : absolute (before ++ c :: cs) = absolute (before ++ [c]) ++ absolute cs := by
    rw [← absolute_append, List.append_assoc]
    rfl
  have hne : before ++ [c] ≠ [] := by simp
  rw [slice, ← length_absolute_snoc, hsplit, List.take_left, ← slash_cons_joinPath hne]
  rfl

theorem resolveFrom_absolute (before : List Bytes) (current : VnodeRef) (hbefore : ∀ c ∈ before, ProperName c) (hcs : ∀ c ∈ cs, ProperName c) :
    fs.resolveFrom (absolute (before ++ cs)) 1 current (ranges (absolute before).length cs) =
      fs.resolveNames current before cs := by
  induction cs generalizing before current with
  | nil => rfl
  | cons c cs ih =>
    rw [List.forall_mem_cons] at hcs
    have hproper : ∀ d ∈ before ++ [c], ProperName d := by
      intro d hd
      rcases List.mem_append.mp hd with hd | hd
      · exact hbefore d hd
      · exact List.mem_singleton.mp hd ▸ hcs.1
    have hih := fun next => ih (before ++ [c]) next hproper hcs.2
    rw [length_absolute_snoc, List.append_assoc] at hih
    rw [ranges, FsState.resolveFrom, FsState.resolveNames, slice_name, slice_accumulated]
    cases hlookup : fs.vfsLookup current c with
    | ok next => exact hih _
    | error e =>
      dsimp only
      rw [if_neg (joinPath_ne_nil hproper (by simp))]

/-- **Resolution, component by component**. -/
theorem vfsResolve_joinPath (fs : FsState) (hcs : ∀ c ∈ cs, ProperName c) (hne : cs ≠ [])
    (hlen : cs.length ≤ vfsMaxComponents) :
    fs.vfsResolve (slash :: joinPath cs) = fs.resolveNames .rootDir [] cs := by
  rw [slash_cons_joinPath hne]
  obtain ⟨c, cs, rfl⟩ := List.exists_cons_of_ne_nil hne
  have hc := hcs c (by simp)
  have hpos := List.length_pos_of_ne_nil hc.ne_nil
  have htotal : (absolute (c :: cs)).length = c.length + (absolute cs).length + 1 := by simp
  have hstart : skipSlashes (absolute (c :: cs)) 0 = 1 := skipSlashes_absolute [] hc
  have hcollect := collect_absolute [] [] hcs
    (by simpa using hlen) length_le_length_absolute
  rw [FsState.vfsResolve, if_neg (by simp [hc.ne_nil]), hstart]
  dsimp only
  rw [if_neg (by omega), htotal, collect_one hc, ← htotal]
  simp only [List.nil_append, absolute_nil, List.length_nil] at hcollect
  rw [hcollect]
  exact resolveFrom_absolute [] .rootDir (by simp) hcs

end Resolve

/-! ### Files of an archive -/

/-- The directories of the root with files of the initramfs in them. -/
def skeleton : List Bytes := [sbinName, binName, etcName]

/-- Path resolution over an archive, when there is memory for vnodes. -/
def Archive.fs (ar : Archive) : FsState := ⟨ar.mem, ar.initramfsInit true, true⟩

/-- The vnode of the file at offset `off`. -/
def Archive.vnode (ar : Archive) (off : ℕ) (file : UstarFile) : VnodeRef :=
  .file (ar.data + off + 512) file.data.length (file.typeflag = 0x35)

/-- An entry that is a regular file. -/
def UstarFile.Regular (file : UstarFile) : Prop := file.typeflag = 0x30 ∨ file.typeflag = 0

theorem UstarFile.Regular.not_dir {file : UstarFile} (h : file.Regular) :
    file.typeflag ≠ 0x35 := by
  rcases h with h | h <;> rw [h] <;> decide

/-- Some file that is not a directory has the name `path`. -/
def IsFile (files : List UstarFile) (path : Bytes) : Prop :=
  ∃ file ∈ files, file.name = path ∧ file.typeflag ≠ 0x35

/-- The files that their paths lead to: those in the root and in a directory of the skeleton, and
those that seem to lie in another file of the same place. -/
def Resolvable (files : List UstarFile) : List Bytes → Prop
  | [c] => c ∉ skeleton
  | [c, _] => c ∈ skeleton ∨ IsFile files c
  | [c, d, _] => c ∈ skeleton ∧ IsFile files (joinPath [c, d])
  | _ => False

section Files

variable {ar : Archive} {file : UstarFile} {files : List UstarFile} {off off' : ℕ} {c path : Bytes}
  {before cs : List Bytes} {dir current vn : VnodeRef}

theorem le_of_mem_places {place : ℕ × UstarFile} (h : place ∈ places off files) :
    off ≤ place.1 := by
  induction files generalizing off with
  | nil => cases h
  | cons file files ih =>
    rcases List.mem_cons.mp h with rfl | h
    · exact le_rfl
    · have := ih h
      omega

/-- Different files are at different places. -/
theorem places_inj {place place' : ℕ × UstarFile} (h : place ∈ places off files)
    (h' : place' ∈ places off files) (heq : place.1 = place'.1) : place = place' := by
  induction files generalizing off with
  | nil => cases h
  | cons file files ih =>
    rcases List.mem_cons.mp h with rfl | h <;> rcases List.mem_cons.mp h' with rfl | h'
    · rfl
    · have := le_of_mem_places h'
      omega
    · have := le_of_mem_places h
      omega
    · exact ih h h'

theorem terminated_of_lt (h : file.name.length < 100) : file.Terminated := fun heq => by omega

theorem Encoded.build_some (h : Encoded ar files) (hplace : (off, file) ∈ places 0 files)
    (hlen : file.name.length < 100) :
    ar.fs.initramfsBuildVnode file.name = some (ar.vnode off file) := by
  rw [FsState.initramfsBuildVnode, Archive.fs,
    h.find_some (.inl hlen.le) hplace (terminated_of_lt hlen)]
  rfl

theorem Encoded.build_none (h : Encoded ar files) (hlen : path.length < 100)
    (hnone : ∀ file ∈ files, file.name ≠ path) : ar.fs.initramfsBuildVnode path = none := by
  rw [FsState.initramfsBuildVnode, Archive.fs,
    h.find_none (.inl hlen.le) fun file hf heq => absurd heq.symm (hnone file hf)]

/-- A vnode that is built is that of a file with the path as its name. -/
theorem Encoded.build_eq_some (h : Encoded ar files) (hlen : path.length < 100)
    (hbuild : ar.fs.initramfsBuildVnode path = some vn) :
    ∃ off file, (off, file) ∈ places 0 files ∧ file.name = path ∧ vn = ar.vnode off file := by
  by_cases hex : ∃ file ∈ files, file.name = path
  · obtain ⟨file, hf, rfl⟩ := hex
    obtain ⟨off, hplace⟩ := exists_place hf
    rw [h.build_some hplace hlen, Option.some.injEq] at hbuild
    exact ⟨off, file, hplace, rfl, hbuild.symm⟩
  · push Not at hex
    rw [h.build_none hlen hex] at hbuild
    cases hbuild

/-- The path that `rootfs_lookup` looks for. -/
def VnodeRef.child (dir : VnodeRef) (c : Bytes) : Bytes :=
  joinPath (if dir.pathPrefix = [] then [c] else [dir.pathPrefix, c])

theorem childPath_eq (hlen : (dir.child c).length < 100) :
    FsState.childPath dir c = .ok (dir.child c) := by
  have hpath : (if dir.pathPrefix = [] then [] else dir.pathPrefix ++ [slash]) ++ c =
      dir.child c := by
    rw [VnodeRef.child]
    split_ifs with hnil
    · simp [joinPath]
    · simp [joinPath]
  rw [FsState.childPath, hpath, if_neg (by simp only [pathMax]; omega)]

/-- A lookup in a directory of the root file system that is not for one of its directories. -/
theorem vfsLookup_rootFs {fs : FsState} (hc : ProperName c) (hdir : dir.fsType = .rootFs)
    (hskel : dir.ino = 0 → c ∉ devName :: skeleton) (hlen : (dir.child c).length < 100) :
    fs.vfsLookup dir c =
      match initramfsFind fs.mem fs.entries (dir.child c) with
      | none => .error enoent
      | some (_, _, entryType) =>
        if entryType = 0x35 then .error enoent
        else
          match fs.initramfsBuildVnode (dir.child c) with
          | some vn => .ok vn
          | none => .error enomem := by
  have hnot : ∀ name ∈ devName :: skeleton, ¬ (dir.ino = 0 ∧ c = name) :=
    fun name hname heq => hskel heq.1 (heq.2 ▸ hname)
  rw [FsState.vfsLookup, if_neg (by simp [hc.ne_nil, hc.dot]), if_neg hc.dotDot, hdir]
  rw [FsState.rootfsLookup, if_neg (hnot _ (by simp [skeleton])),
    if_neg (hnot _ (by simp [skeleton])), if_neg (hnot _ (by simp [skeleton])),
    if_neg (hnot _ (by simp)), childPath_eq hlen]

theorem Encoded.lookup_file (h : Encoded ar files) (hc : ProperName c)
    (hdir : dir.fsType = .rootFs) (hskel : dir.ino = 0 → c ∉ devName :: skeleton)
    (hplace : (off, file) ∈ places 0 files) (hname : file.name = dir.child c)
    (hlen : file.name.length < 100) (hreg : file.typeflag ≠ 0x35) :
    ar.fs.vfsLookup dir c = .ok (ar.vnode off file) := by
  have hfind : initramfsFind ar.fs.mem ar.fs.entries (dir.child c) =
      some (ar.data + off + 512, file.data.length, file.typeflag) := by
    rw [← hname]
    exact h.find_some (.inl hlen.le) hplace (terminated_of_lt hlen)
  rw [vfsLookup_rootFs hc hdir hskel (by rwa [← hname]), hfind, ← hname,
    h.build_some hplace hlen]
  exact if_neg hreg

theorem Encoded.lookup_other (h : Encoded ar files) (hc : ProperName c)
    (hdir : dir.fsType = .rootFs) (hskel : dir.ino = 0 → c ∉ devName :: skeleton)
    (hlen : (dir.child c).length < 100) (hnot : ¬ IsFile files (dir.child c)) :
    ar.fs.vfsLookup dir c = .error enoent := by
  rw [vfsLookup_rootFs hc hdir hskel hlen]
  by_cases hex : ∃ file ∈ files, file.name = dir.child c
  · obtain ⟨file, hf, hname⟩ := hex
    have htype : file.typeflag = 0x35 := not_not.mp fun hne => hnot ⟨file, hf, hname, hne⟩
    obtain ⟨off, hplace⟩ := exists_place hf
    have hfind : initramfsFind ar.fs.mem ar.fs.entries (dir.child c) =
        some (ar.data + off + 512, file.data.length, file.typeflag) := by
      rw [← hname] at hlen ⊢
      exact h.find_some (.inl hlen.le) hplace (terminated_of_lt hlen)
    rw [hfind]
    simp [htype]
  · push Not at hex
    have hfind : initramfsFind ar.fs.mem ar.fs.entries (dir.child c) = none :=
      h.find_none (.inl hlen.le) fun file hf heq => absurd heq.symm (hex file hf)
    rw [hfind]

/-- Files of the initramfs have nothing in them. -/
theorem vfsLookup_vnode (hc : ProperName c) :
    ar.fs.vfsLookup (ar.vnode off file) c = .error enoent := by
  rw [FsState.vfsLookup, if_neg (by simp [hc.ne_nil, hc.dot]), if_neg hc.dotDot]
  rfl

/-- A directory of the skeleton that holds files. -/
structure VnodeRef.IsDir (dir : VnodeRef) (c : Bytes) : Prop where
  fsType : dir.fsType = .rootFs
  ino : dir.ino ≠ 0
  pathPrefix : dir.pathPrefix = c
  mount : dir.mount = none
  data : dir.data = none

theorem lookup_skeleton (fs : FsState) (h : c ∈ skeleton) :
    ∃ dir, fs.vfsLookup .rootDir c = .ok dir ∧ dir.IsDir c := by
  simp only [skeleton, List.mem_cons, List.not_mem_nil, or_false] at h
  rcases h with rfl | rfl | rfl
  · exact ⟨.sbinDir, rfl, rfl, by decide, rfl, rfl, rfl⟩
  · exact ⟨.binDir, rfl, rfl, by decide, rfl, rfl, rfl⟩
  · exact ⟨.etcDir, rfl, rfl, by decide, rfl, rfl, rfl⟩

theorem VnodeRef.IsDir.child {d : Bytes} (h : dir.IsDir c) (hc : ProperName c) :
    dir.child d = joinPath [c, d] := by
  rw [VnodeRef.child, h.pathPrefix, if_neg hc.ne_nil]

/-- A component that is not found ends the resolution. -/
theorem resolveNames_error {fs : FsState} {e : ℕ} (h : fs.vfsLookup current c = .error e) :
    fs.resolveNames current before (c :: cs) =
      match fs.initramfsBuildVnode (joinPath (before ++ [c])) with
      | some vn => .ok vn
      | none => .error e := by
  rw [FsState.resolveNames, h]

theorem resolveNames_ok {fs : FsState} {next : VnodeRef} (h : fs.vfsLookup current c = .ok next)
    (hmount : next.mount = none) :
    fs.resolveNames current before (c :: cs) = fs.resolveNames next (before ++ [c]) cs := by
  rw [FsState.resolveNames, h]
  simp [hmount]

theorem length_le_joinPath : c.length ≤ (joinPath (c :: cs)).length := by
  simp [joinPath]

theorem length_joinPath_lt (before : List Bytes) (c d : Bytes) (cs : List Bytes) :
    (joinPath (before ++ [c])).length < (joinPath (before ++ c :: d :: cs)).length := by
  cases before with
  | nil => simp [joinPath]
  | cons b before => simp [joinPath, absolute_append]

/-- The last component can be found in the initramfs, by the whole path. -/
theorem Encoded.fallback (h : Encoded ar files) (hplace : (off, file) ∈ places 0 files)
    (hlen : file.name.length < 100) (hname : file.name = joinPath (before ++ [c])) {e : ℕ}
    (hlookup : ar.fs.vfsLookup current c = .error e) :
    ar.fs.resolveNames current before [c] = .ok (ar.vnode off file) := by
  rw [resolveNames_error hlookup, ← hname, h.build_some hplace hlen]

/-- A resolution that ends before the last component does not lead to the file. -/
theorem Encoded.not_stopped (h : Encoded ar files) (hplace : (off, file) ∈ places 0 files)
    (hlen : file.name.length < 100) {d : Bytes}
    (hname : file.name = joinPath (before ++ c :: d :: cs)) {e : ℕ}
    (hlookup : ar.fs.vfsLookup current c = .error e) (hdata : vn.data = some (ar.data + off + 512)) :
    ar.fs.resolveNames current before (c :: d :: cs) ≠ .ok vn := by
  intro hres
  have hlt := length_joinPath_lt before c d cs
  rw [← hname] at hlt
  rw [resolveNames_error hlookup] at hres
  cases hbuild : ar.fs.initramfsBuildVnode (joinPath (before ++ [c])) with
  | none =>
    rw [hbuild] at hres
    cases hres
  | some vn' =>
    rw [hbuild] at hres
    cases hres
    obtain ⟨off', file', hplace', hname', rfl⟩ := h.build_eq_some (by omega) hbuild
    simp only [Archive.vnode, VnodeRef.data, Option.some.injEq] at hdata
    have heq := places_inj hplace' hplace (by simpa using hdata)
    cases heq
    rw [hname'] at hlt
    exact lt_irrefl _ hlt

/-- The two outcomes of a lookup in a directory of the root file system. -/
theorem Encoded.lookup_cases (h : Encoded ar files) (hc : ProperName c)
    (hdir : dir.fsType = .rootFs) (hskel : dir.ino = 0 → c ∉ devName :: skeleton)
    (hchild : dir.child c = path) (hlen : path.length < 100) :
    (IsFile files path ∧ ∃ off file, (off, file) ∈ places 0 files ∧ file.name = path ∧
      ar.fs.vfsLookup dir c = .ok (ar.vnode off file)) ∨
    (¬ IsFile files path ∧ ar.fs.vfsLookup dir c = .error enoent) := by
  subst hchild
  by_cases hfile : IsFile files (dir.child c)
  · obtain ⟨file, hf, hname, hreg⟩ := id hfile
    obtain ⟨off, hplace⟩ := exists_place hf
    refine .inl ⟨hfile, off, file, hplace, hname, ?_⟩
    exact h.lookup_file hc hdir hskel hplace hname (by rwa [hname]) hreg
  · exact .inr ⟨hfile, h.lookup_other hc hdir hskel hlen hfile⟩

theorem Encoded.lookup_root (h : Encoded ar files) (hc : ProperName c) (hdev : c ≠ devName)
    (hskel : c ∉ skeleton) (hlen : c.length < 100) :
    (IsFile files c ∧ ∃ off file, (off, file) ∈ places 0 files ∧ file.name = c ∧
      ar.fs.vfsLookup .rootDir c = .ok (ar.vnode off file)) ∨
    (¬ IsFile files c ∧ ar.fs.vfsLookup .rootDir c = .error enoent) := by
  refine h.lookup_cases hc rfl (fun _ => ?_) ?_ hlen
  · simp [hdev, hskel]
  · simp [VnodeRef.child, VnodeRef.pathPrefix, joinPath]

theorem Encoded.lookup_dir (h : Encoded ar files) {d : Bytes} (hc : ProperName c)
    (hd : ProperName d) (hdir : dir.IsDir c) (hlen : (joinPath [c, d]).length < 100) :
    (IsFile files (joinPath [c, d]) ∧ ∃ off file, (off, file) ∈ places 0 files ∧
      file.name = joinPath [c, d] ∧ ar.fs.vfsLookup dir d = .ok (ar.vnode off file)) ∨
    (¬ IsFile files (joinPath [c, d]) ∧ ar.fs.vfsLookup dir d = .error enoent) :=
  h.lookup_cases hd hdir.fsType (fun hino => absurd hino hdir.ino) (hdir.child hc) hlen

/-- **Resolvable files are found** by their paths. -/
theorem Encoded.resolveNames_of_resolvable (h : Encoded ar files)
    (hplace : (off, file) ∈ places 0 files) (hreg : file.typeflag ≠ 0x35)
    (hlen : file.name.length < 100) (hname : file.name = joinPath cs)
    (hcs : ∀ c ∈ cs, ProperName c) (hdev : cs.head? ≠ some devName)
    (hres : Resolvable files cs) :
    ar.fs.resolveNames .rootDir [] cs = .ok (ar.vnode off file) := by
  have hself : IsFile files (joinPath cs) := ⟨file, mem_of_mem_places hplace, hname, hreg⟩
  -- the vnode that a lookup by the whole path builds is that of the file
  have hthis : ∀ {off' file'}, (off', file') ∈ places 0 files → file'.name = joinPath cs →
      ar.vnode off' file' = ar.vnode off file := by
    intro off' file' hplace' hname'
    cases h.place_inj hplace' hplace (hname'.trans hname.symm)
    rfl
  rw [hname] at hlen
  match cs, hres with
  | [c], hskel =>
    have hc := hcs c (by simp)
    have hjoin : joinPath [c] = c := by simp [joinPath]
    rw [hjoin] at hself hlen hthis
    rcases h.lookup_root hc (by simpa using hdev) hskel hlen with
      ⟨-, off', file', hplace', hname', hlookup⟩ | ⟨hnot, -⟩
    · rw [resolveNames_ok hlookup rfl, hthis hplace' hname']
      rfl
    · exact absurd hself hnot
  | [c, d], hres =>
    have hc := hcs c (by simp)
    have hd := hcs d (by simp)
    by_cases hskel : c ∈ skeleton
    · obtain ⟨dir, hlookup, hdir⟩ := lookup_skeleton ar.fs hskel
      rw [resolveNames_ok hlookup hdir.mount]
      rcases h.lookup_dir hc hd hdir hlen with
        ⟨-, off', file', hplace', hname', hlookup'⟩ | ⟨hnot, -⟩
      · rw [resolveNames_ok hlookup' rfl, hthis hplace' hname']
        rfl
      · exact absurd hself hnot
    · rcases h.lookup_root hc (by simpa using hdev) hskel
        (length_le_joinPath.trans_lt hlen) with
        ⟨-, off', file', -, -, hlookup⟩ | ⟨hnot, -⟩
      · rw [resolveNames_ok hlookup rfl]
        exact h.fallback hplace (by rwa [hname]) hname (vfsLookup_vnode hd)
      · exact absurd (hres.resolve_left hskel) hnot
  | [c, d, e], ⟨hskel, hfile⟩ =>
    have hc := hcs c (by simp)
    have hd := hcs d (by simp)
    have hlend : (joinPath ([c] ++ [d])).length < _ := length_joinPath_lt [c] d e []
    obtain ⟨dir, hlookup, hdir⟩ := lookup_skeleton ar.fs hskel
    rw [resolveNames_ok hlookup hdir.mount]
    rcases h.lookup_dir hc hd hdir (hlend.trans hlen) with
      ⟨-, off', file', hplace', hname', hlookup'⟩ | ⟨hnot, -⟩
    · rw [resolveNames_ok hlookup' rfl]
      exact h.fallback hplace (by rwa [hname]) hname (vfsLookup_vnode (hcs e (by simp)))
    · exact absurd hfile hnot

/-- **Nothing else is found**: a resolution that leads to the file is one of a resolvable file. -/
theorem Encoded.resolvable_of_resolveNames (h : Encoded ar files)
    (hplace : (off, file) ∈ places 0 files) (hlen : file.name.length < 100)
    (hname : file.name = joinPath cs) (hcs : ∀ c ∈ cs, ProperName c) (hne : cs ≠ [])
    (hdev : cs.head? ≠ some devName) (hdata : vn.data = some (ar.data + off + 512))
    (hres : ar.fs.resolveNames .rootDir [] cs = .ok vn) : Resolvable files cs := by
  match cs with
  | [c] =>
    intro hskel
    obtain ⟨dir, hlookup, hdir⟩ := lookup_skeleton ar.fs hskel
    rw [resolveNames_ok hlookup hdir.mount] at hres
    cases hres
    rw [hdir.data] at hdata
    cases hdata
  | [c, d] =>
    by_cases hskel : c ∈ skeleton
    · exact .inl hskel
    rcases h.lookup_root (hcs c (by simp)) (by simpa using hdev) hskel
      (length_le_joinPath.trans_lt (hname ▸ hlen)) with ⟨hfile, -⟩ | ⟨-, hlookup⟩
    · exact .inr hfile
    · exact absurd hres (h.not_stopped hplace hlen hname hlookup hdata)
  | c :: d :: e :: cs =>
    have hc := hcs c (by simp)
    have hd := hcs d (by simp)
    have he := hcs e (by simp)
    by_cases hskel : c ∈ skeleton
    · obtain ⟨dir, hlookup, hdir⟩ := lookup_skeleton ar.fs hskel
      rw [resolveNames_ok hlookup hdir.mount] at hres
      have hlend : (joinPath ([c] ++ [d])).length < _ := length_joinPath_lt [c] d e cs
      rcases h.lookup_dir hc hd hdir (hlend.trans (hname ▸ hlen)) with
        ⟨hfile, off', file', -, -, hlookup'⟩ | ⟨-, hlookup'⟩
      · cases cs with
        | nil => exact ⟨hskel, hfile⟩
        | cons g cs =>
          rw [resolveNames_ok hlookup' rfl] at hres
          exact absurd hres (h.not_stopped hplace hlen hname (vfsLookup_vnode he) hdata)
      · exact absurd hres (h.not_stopped hplace hlen hname hlookup' hdata)
    · rcases h.lookup_root hc (by simpa using hdev) hskel
        (length_le_joinPath.trans_lt (hname ▸ hlen)) with
        ⟨-, off', file', -, -, hlookup⟩ | ⟨-, hlookup⟩
      · rw [resolveNames_ok hlookup rfl] at hres
        exact absurd hres (h.not_stopped hplace hlen hname (vfsLookup_vnode hd) hdata)
      · exact absurd hres (h.not_stopped hplace hlen hname hlookup hdata)

end Files

/-- **Which files can be opened by their paths**: a regular file of an archive is found, exactly if
it lies in the root, in a directory of the skeleton, or seems to lie in a file that does. -/
theorem resolves_iff {ar : Archive} {files : List UstarFile} {zeros : ℕ} {file : UstarFile}
    {cs : List Bytes} (hmem : ar.HoldsBytes (ustarEncode files zeros)) (hdata : ar.data ≠ 0)
    (hcount : files.length ≤ 128) (hwf : ∀ file ∈ files, file.WellFormed)
    (hnames : (files.map UstarFile.name).Nodup) (hf : file ∈ files) (hreg : file.Regular)
    (hname : file.name = joinPath cs) (hlen : file.name.length < 100) (hne : cs ≠ [])
    (hmax : cs.length ≤ 16) (hcs : ∀ c ∈ cs, ProperName c) (hdev : cs.head? ≠ some devName) :
    (∃ off vn, (off, file) ∈ places 0 files ∧ ar.fs.vfsResolve (slash :: file.name) = .ok vn ∧
      vn.data = some (ar.data + off + 512) ∧ vn.size = file.data.length) ↔
    Resolvable files cs := by
  have henc : Encoded ar files := ⟨hmem.layout, hdata, hcount, hwf, hnames⟩
  have hresolve := vfsResolve_joinPath ar.fs hcs hne hmax
  rw [← hname] at hresolve
  constructor
  · rintro ⟨off, vn, hplace, hres, hvn, -⟩
    exact henc.resolvable_of_resolveNames hplace hlen hname hcs hne hdev hvn
      (hresolve.symm.trans hres)
  · intro hres
    obtain ⟨off, hplace⟩ := exists_place hf
    refine ⟨off, ar.vnode off file, hplace, ?_, rfl, rfl⟩
    rw [hresolve]
    exact henc.resolveNames_of_resolvable hplace hreg.not_dir hlen hname hcs hdev hres

/-- A file of one byte with the given name. -/
def namedFile (name : Bytes) : UstarFile := { sampleFile 0 with name := name }

theorem namedFile_wellFormed {name : Bytes} (hpos : name ≠ []) (hle : name.length ≤ 100)
    (hnul : ∀ b ∈ name, b ≠ 0) : (namedFile name).WellFormed :=
  ⟨hpos, hle, hnul, by simp [namedFile, sampleFile], .inl rfl⟩

instance (c : Bytes) : Decidable (ProperName c) :=
  decidable_of_iff (c ≠ [] ∧ slash ∉ c ∧ c ≠ dotName ∧ c ≠ dotDotName)
    ⟨fun ⟨h₁, h₂, h₃, h₄⟩ => ⟨h₁, h₂, h₃, h₄⟩, fun ⟨h₁, h₂, h₃, h₄⟩ => ⟨h₁, h₂, h₃, h₄⟩⟩

/-- `sbin/a`. -/
def inSbin : List Bytes := [sbinName, [0x61]]

/-- `a/a`. -/
def inOther : List Bytes := [[0x61], [0x61]]

theorem resolves_iff_sbin :
    ∃ off vn, (off, namedFile (joinPath inSbin)) ∈ places 0 [namedFile (joinPath inSbin)] ∧
      (archiveOf (ustarEncode [namedFile (joinPath inSbin)] 1)).fs.vfsResolve
        (slash :: joinPath inSbin) = .ok vn ∧ vn.size = 1 := by
  obtain ⟨off, vn, hplace, hres, -, hsize⟩ := (resolves_iff (archiveOf_holds (ustarEncode
    [namedFile (joinPath inSbin)] 1)) (by decide) (by decide)
    (by simpa using namedFile_wellFormed (by decide) (by decide) (by decide)) (by simp)
    (List.mem_singleton_self _) (.inl rfl)
    (show (namedFile (joinPath inSbin)).name = joinPath inSbin from rfl) (by decide) (by decide)
    (by decide) (by decide) (by decide)).mpr (.inl (by decide))
  exact ⟨off, vn, hplace, hres, hsize⟩

/-- A file in a directory that is not of the skeleton cannot be opened. -/
theorem resolve_misses_other :
    (namedFile (joinPath inOther)).WellFormed ∧ (∀ c ∈ inOther, ProperName c) ∧
      (archiveOf (ustarEncode [namedFile (joinPath inOther)] 1)).fs.vfsResolve
        (slash :: joinPath inOther) = .error enoent := by
  have hwf : (namedFile (joinPath inOther)).WellFormed :=
    namedFile_wellFormed (by decide) (by decide) (by decide)
  have henc : Encoded (archiveOf (ustarEncode [namedFile (joinPath inOther)] 1))
      [namedFile (joinPath inOther)] :=
    ⟨(archiveOf_holds _).layout, by decide, by decide, by simpa using hwf, by simp⟩
  refine ⟨hwf, by decide, ?_⟩
  have hnot : ¬ IsFile [namedFile (joinPath inOther)] [0x61] := by
    rintro ⟨file, hf, hname, -⟩
    rw [List.mem_singleton.mp hf] at hname
    revert hname
    decide
  rw [vfsResolve_joinPath _ (by decide) (by decide) (by decide)]
  rcases henc.lookup_root (c := [0x61]) (by decide) (by decide) (by decide) (by decide) with
    ⟨hfile, -⟩ | ⟨-, hlookup⟩
  · exact absurd hfile hnot
  · have hstop : (archiveOf (ustarEncode [namedFile (joinPath inOther)] 1)).fs.resolveNames .rootDir
        [] ([0x61] :: [[0x61]]) = _ := resolveNames_error hlookup
    refine hstop.trans ?_
    rw [henc.build_none (by decide)]
    intro file hf
    rw [List.mem_singleton.mp hf]
    decide

end Vibix.Vfs
