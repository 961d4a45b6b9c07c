import Vibix.Vfs.Cwd

/-! # Normal forms of paths

What a path means: its components, without empty ones and dots, with every `..` cancelled against the
component before it (`normalise`).  Here `vfs_resolve` is described for every path.

* **Pass 1** keeps the positions of the components that are left so far.  Their names are those of the
  normal form (`collect_spec`), unless a component comes when sixteen are left already (`Overflows`).
* **Pass 2** looks these names up, one in the other (`descent`).  How far that goes depends on the normal
  form only; but where it fails, the text of the path so far, as it was written (`accumulated`), is
  looked for in the initramfs (`vfsResolve_spec`).
* **Results.** `vfsResolve_eq_iff`: when two paths with one normal form have the same result.
  `prefixes_directories_iff`: when all components but the last lead to directories. -/

namespace Vibix.Vfs

/-- The components of a path. -/
def components (path : Bytes) : List Bytes := (path.splitOn slash).filter (· ≠ [])

/-- What a component does to the components so far. -/
def pushName (names : List Bytes) (c : Bytes) : List Bytes :=
  if c = dotDotName then names.dropLast else if c = dotName then names else names ++ [c]

/-- The normal form of a path. -/
def normalise (path : Bytes) : List Bytes := (components path).foldl pushName []

/-- Some component comes when sixteen are left. -/
def Overflows (path : Bytes) : Prop :=
  ∃ before c after, components path = before ++ c :: after ∧
    vfsMaxComponents ≤ (before.foldl pushName []).length

/-! ### Components -/

section Components

variable {l c path : Bytes} {cs : List Bytes}

@[simp] theorem components_nil : components [] = [] := rfl

theorem components_slash (l : Bytes) : components (slash :: l) = components l := by
  unfold components List.splitOn
  rw [List.splitOnP_cons_eq_if_modifyHead, if_pos (by simp)]
  simp

theorem components_dropWhile (l : Bytes) :
    components (l.dropWhile (· = slash)) = components l := by
  induction l with
  | nil => rfl
  | cons b l ih =>
    by_cases hb : b = slash
    · rw [List.dropWhile_cons_of_pos (by simpa using hb), ih, hb, components_slash]
    · rw [List.dropWhile_cons_of_neg (by simpa using hb)]

/-- The first component, and what is behind it. -/
theorem components_name (hc : c ≠ []) (hslash : slash ∉ c) (hl : l = [] ∨ l.head? = some slash) :
    components (c ++ l) = c :: components l := by
  have hall : ∀ b ∈ c, (b == slash) = false := by
    intro b hb
    simpa using ne_of_mem_of_not_mem hb hslash
  rcases hl with rfl | hhead
  · rw [List.append_nil, components, List.splitOn, List.splitOnP_eq_singleton hall]
    simp [hc]
  · obtain ⟨l, rfl⟩ := List.head?_eq_some_iff.mp hhead
    rw [components_slash, components, List.splitOn,
      List.splitOnP_append_cons_of_forall_mem hall slash (by simp)]
    simp [hc, components, List.splitOn]

/-- The scan of pass 1: one component. -/
theorem components_scan (l : Bytes) (hl : l.dropWhile (· = slash) ≠ []) :
    components l = (l.dropWhile (· = slash)).takeWhile (· ≠ slash) ::
      components ((l.dropWhile (· = slash)).dropWhile (· ≠ slash)) := by
  have hhead := List.head_dropWhile_not (fun b : BitVec 8 => decide (b = slash)) hl
  rw [← components_dropWhile l]
  generalize l.dropWhile (· = slash) = l' at hl hhead ⊢
  obtain ⟨b, l', rfl⟩ := List.exists_cons_of_ne_nil hl
  rw [List.head_cons, decide_eq_false_iff_not] at hhead
  have hsplit := List.takeWhile_append_dropWhile (p := fun b => decide (b ≠ slash)) (l := b :: l')
  conv_lhs => rw [← hsplit]
  refine components_name ?_ ?_ ?_
  · simp [hhead]
  · intro hmem
    have hb := List.all_eq_true.mp List.all_takeWhile _ hmem
    simp at hb
  · cases hrest : (b :: l').dropWhile (· ≠ slash) with
    | nil => exact Or.inl rfl
    | cons d rest =>
      have hd := List.head_dropWhile_not (fun b : BitVec 8 => decide (b ≠ slash))
        (l := b :: l') (by rw [hrest]; simp)
      simp only [hrest, List.head_cons] at hd
      right
      simpa using hd

theorem slash_notMem_splitOn (hc : c ∈ path.splitOn slash) : slash ∉ c := by
  unfold List.splitOn at hc
  induction path generalizing c with
  | nil => simp_all
  | cons b path ih =>
    rw [List.splitOnP_cons_eq_if_modifyHead] at hc
    split_ifs at hc with hb
    · rcases List.mem_cons.mp hc with rfl | hc
      · simp
      · exact ih hc
    · cases hrest : path.splitOnP (· == slash) with
      | nil => simp [hrest] at hc
      | cons d rest =>
        rw [hrest] at hc ih
        rcases List.mem_cons.mp hc with rfl | hc
        · intro hmem
          rcases List.mem_cons.mp hmem with heq | hmem
          · exact hb (by simp [← heq])
          · exact ih List.mem_cons_self hmem
        · exact ih (List.mem_cons_of_mem d hc)

theorem mem_components (hc : c ∈ components path) : c ≠ [] ∧ slash ∉ c := by
  obtain ⟨hmem, hne⟩ := List.mem_filter.mp hc
  exact ⟨of_decide_eq_true hne, slash_notMem_splitOn hmem⟩

/-- The names left are components of the path. -/
theorem foldl_pushName_proper {names : List Bytes} (hcs : ∀ c ∈ cs, c ≠ [] ∧ slash ∉ c)
    (hnames : ∀ c ∈ names, ProperName c) : ∀ c ∈ cs.foldl pushName names, ProperName c := by
  induction cs generalizing names with
  | nil => exact hnames
  | cons d cs ih =>
    rw [List.forall_mem_cons] at hcs
    refine ih hcs.2 fun c hc => ?_
    unfold pushName at hc
    split_ifs at hc with hdd hd
    · exact hnames c (List.dropLast_subset names hc)
    · exact hnames c hc
    · rcases List.mem_append.mp hc with hc | hc
      · exact hnames c hc
      · obtain rfl := List.mem_singleton.mp hc
        exact ⟨hcs.1.1, hcs.1.2, hd, hdd⟩

/-- A normal form has proper names. -/
theorem normalise_proper (hc : c ∈ normalise path) : ProperName c :=
  foldl_pushName_proper (fun _ hd => mem_components hd) (by simp) c hc

end Components

/-! ### Pass 1 -/

/-- The names at the positions `comps`. -/
def namesAt (path : Bytes) (comps : List (ℕ × ℕ)) : List Bytes := comps.map fun r => slice path r.1 r.2

/-- The positions end behind `start`. -/
def Behind (path : Bytes) (start : ℕ) (comps : List (ℕ × ℕ)) : Prop :=
  ∀ r ∈ comps, start < r.2 ∧ r.2 ≤ path.length

section Collect

variable {path : Bytes} {start pos fuel : ℕ} {comps comps' : List (ℕ × ℕ)}

theorem drop_length_takeWhile {α : Type*} (p : α → Bool) (l : List α) :
    l.drop (l.takeWhile p).length = l.dropWhile p := by
  induction l with
  | nil => rfl
  | cons a l ih =>
    by_cases ha : p a = true
    · simp [ha, ih]
    · simp [ha]

theorem take_length_takeWhile {α : Type*} (p : α → Bool) (l : List α) :
    l.take (l.takeWhile p).length = l.takeWhile p := by
  induction l with
  | nil => rfl
  | cons a l ih =>
    by_cases ha : p a = true
    · simp [ha, ih]
    · simp [ha]

theorem drop_skipSlashes (path : Bytes) (pos : ℕ) :
    path.drop (skipSlashes path pos) = (path.drop pos).dropWhile (· = slash) := by
  rw [skipSlashes, ← List.drop_drop, drop_length_takeWhile]

theorem drop_skipName (path : Bytes) (pos : ℕ) :
    path.drop (skipName path pos) = (path.drop pos).dropWhile (· ≠ slash) := by
  rw [skipName, ← List.drop_drop, drop_length_takeWhile]

theorem slice_skipName (path : Bytes) (pos : ℕ) :
    slice path pos (skipName path pos) = (path.drop pos).takeWhile (· ≠ slash) := by
  rw [slice, skipName, List.drop_take, Nat.add_sub_cancel_left, take_length_takeWhile]

/-- A name that is there is not empty. -/
theorem lt_skipName (h : skipSlashes path pos < path.length) :
    skipSlashes path pos < skipName path (skipSlashes path pos) := by
  have hne : (path.drop pos).dropWhile (· = slash) ≠ [] := by
    rw [← drop_skipSlashes]
    simpa using h
  have hhead := List.head_dropWhile_not (fun b : BitVec 8 => decide (b = slash)) hne
  rw [skipName, drop_skipSlashes]
  obtain ⟨b, l, hl⟩ := List.exists_cons_of_ne_nil hne
  simp only [hl, List.head_cons, decide_eq_false_iff_not] at hhead ⊢
  simp [hhead]

/-- A component is added, if there is room. -/
def pushBounded (names : List Bytes) (c : Bytes) : Except ℕ (List Bytes) :=
  if names.length < vfsMaxComponents then .ok (pushName names c) else .error enametoolong

/-- **Pass 1** on positions is the same on names. -/
theorem collect_spec (hfuel : path.length ≤ pos + fuel) (hpos : start ≤ pos)
    (hbehind : Behind path start comps) :
    match (components (path.drop pos)).foldlM pushBounded (namesAt path comps) with
    | .error e => collect path fuel pos comps = .error e
    | .ok names => ∃ comps', collect path fuel pos comps = .ok comps' ∧ Behind path start comps' ∧
        namesAt path comps' = names := by
  induction fuel generalizing pos comps with
  | zero =>
    rw [List.drop_eq_nil_of_le (by omega)]
    exact ⟨comps, rfl, hbehind, rfl⟩
  | succ fuel ih =>
    rw [collect]
    dsimp only
    by_cases hend : path.length ≤ skipSlashes path pos
    · have hnone : components (path.drop pos) = [] := by
        rw [← components_dropWhile, ← drop_skipSlashes, List.drop_eq_nil_of_le hend]
        rfl
      rw [hnone, if_pos hend, ite_self]
      exact ⟨comps, rfl, hbehind, rfl⟩
    · have hlt := lt_skipName (not_le.mp hend)
      have hle := skipName_le (not_le.mp hend).le
      have hstart : pos ≤ skipSlashes path pos := le_skipSlashes
      have hnext : components (path.drop pos) =
          slice path (skipSlashes path pos) (skipName path (skipSlashes path pos)) ::
            components (path.drop (skipName path (skipSlashes path pos))) := by
        rw [slice_skipName, drop_skipName, drop_skipSlashes]
        refine components_scan _ ?_
        rw [← drop_skipSlashes]
        simpa using hend
      rw [hnext, List.foldlM_cons, if_neg (by omega), if_neg hend, pushBounded]
      have hlen : (namesAt path comps).length = comps.length := List.length_map _
      rw [hlen]
      by_cases hroom : comps.length < vfsMaxComponents
      · rw [if_pos hroom, if_pos hroom]
        change (match (components _).foldlM pushBounded (pushName _ _) with
          | .error e => _
          | .ok names => _)
        by_cases hdd : slice path (skipSlashes path pos)
            (skipName path (skipSlashes path pos)) = dotDotName
        · have hmap : (namesAt path comps).dropLast = namesAt path comps.dropLast :=
            List.map_dropLast.symm
          rw [pushName, if_pos hdd, if_pos hdd, hmap]
          exact ih (by omega) (by omega) fun r hr => hbehind r (List.dropLast_subset _ hr)
        by_cases hd : slice path (skipSlashes path pos)
            (skipName path (skipSlashes path pos)) = dotName
        · rw [pushName, if_neg hdd, if_pos hd, if_neg hdd, if_neg (not_not.mpr hd)]
          exact ih (by omega) (by omega) hbehind
        · rw [pushName, if_neg hdd, if_neg hd, if_neg hdd, if_pos hd]
          have hih := @ih (skipName path (skipSlashes path pos))
            (comps ++ [(skipSlashes path pos, skipName path (skipSlashes path pos))])
            (by omega) (by omega) ?_
          · rwa [namesAt, List.map_append] at hih
          · intro r hr
            rcases List.mem_append.mp hr with hr | hr
            · exact hbehind r hr
            · obtain rfl := List.mem_singleton.mp hr
              exact ⟨by simp only; omega, hle⟩
      · rw [if_neg hroom, if_neg hroom]
        rfl

theorem foldlM_pushBounded_ok {cs names : List Bytes} (h : ∀ before c after,
      cs = before ++ c :: after → (before.foldl pushName names).length < vfsMaxComponents) :
    cs.foldlM pushBounded names = .ok (cs.foldl pushName names) := by
  induction cs generalizing names with
  | nil => rfl
  | cons c cs ih =>
    have hroom : names.length < vfsMaxComponents := h [] c cs rfl
    rw [List.foldlM_cons, pushBounded, if_pos hroom]
    exact ih fun before d after heq => h (c :: before) d after (by rw [heq]; rfl)

theorem foldlM_pushBounded_error {cs names before after : List Bytes} {c : Bytes}
    (hcs : cs = before ++ c :: after)
    (hlen : vfsMaxComponents ≤ (before.foldl pushName names).length) :
    cs.foldlM pushBounded names = .error enametoolong := by
  induction before generalizing cs names with
  | nil =>
    have hfull : ¬ names.length < vfsMaxComponents := not_lt.mpr hlen
    rw [hcs, List.nil_append, List.foldlM_cons, pushBounded, if_neg hfull]
    rfl
  | cons d before ih =>
    rw [hcs, List.cons_append, List.foldlM_cons, pushBounded]
    split_ifs
    · exact ih rfl hlen
    · rfl

/-- Pass 1, from the first byte that is not a slash. -/
def pass1 (path : Bytes) : Except ℕ (List (ℕ × ℕ)) :=
  collect path path.length (skipSlashes path 0) []

theorem pass1_spec (path : Bytes) :
    match (components path).foldlM pushBounded [] with
    | .error e => pass1 path = .error e
    | .ok names => ∃ comps, pass1 path = .ok comps ∧ Behind path (skipSlashes path 0) comps ∧
        namesAt path comps = names := by
  have hscan : components path = components (path.drop (skipSlashes path 0)) := by
    rw [drop_skipSlashes, List.drop_zero, components_dropWhile]
  have hnone : Behind path (skipSlashes path 0) [] := nofun
  have hfuel : path.length ≤ skipSlashes path 0 + path.length := Nat.le_add_left _ _
  rw [hscan]
  exact collect_spec hfuel le_rfl hnone

theorem pass1_error (h : Overflows path) : pass1 path = .error enametoolong := by
  obtain ⟨before, c, after, hcs, hlen⟩ := h
  have hspec := pass1_spec path
  rw [foldlM_pushBounded_error hcs hlen] at hspec
  exact hspec

theorem pass1_ok (h : ¬ Overflows path) : ∃ comps, pass1 path = .ok comps ∧
    Behind path (skipSlashes path 0) comps ∧ namesAt path comps = normalise path ∧
    (normalise path).length ≤ vfsMaxComponents := by
  have hroom : ∀ before c after, components path = before ++ c :: after →
      (before.foldl pushName []).length < vfsMaxComponents := by
    intro before c after hcs
    by_contra hlen
    exact h ⟨before, c, after, hcs, not_lt.mp hlen⟩
  have hspec := pass1_spec path
  rw [foldlM_pushBounded_ok hroom] at hspec
  obtain ⟨comps, hcollect, hbehind, hnames⟩ := hspec
  refine ⟨comps, hcollect, hbehind, hnames, ?_⟩
  -- the last component came when there was room
  unfold normalise
  rcases List.eq_nil_or_concat (components path) with hnil | ⟨before, c, hcs⟩
  · rw [hnil]
    exact Nat.zero_le _
  · have hlt := hroom before c [] (by rw [hcs, List.concat_eq_append])
    rw [hcs, List.concat_eq_append, List.foldl_append, List.foldl_cons, List.foldl_nil, pushName]
    split_ifs
    · rw [List.length_dropLast]
      omega
    · exact hlt.le
    · rw [List.length_append, List.length_singleton]
      omega

/-- The path up to the end of the component `k` that is left, as it was written. -/
def accumulated (path : Bytes) (k : ℕ) : Bytes :=
  match pass1 path with
  | .error _ => []
  | .ok comps => slice path (skipSlashes path 0) ((comps[k]?).getD (0, 0)).2

end Collect

/-! ### Pass 2 -/

/-- The lookups of names, one in the other: how many succeed, and what they lead to. -/
def FsState.descent (fs : FsState) : VnodeRef → List Bytes → ℕ × Except ℕ VnodeRef
  | current, [] => (0, .ok current)
  | current, c :: cs =>
    match fs.vfsLookup current c with
    | .ok next =>
      let r := fs.descent (next.mount.getD next) cs
      (r.1 + 1, r.2)
    | .error e => (0, .error e)

section Descent

variable {fs : FsState} {path p q : Bytes} {current : VnodeRef} {start k e : ℕ}
  {comps : List (ℕ × ℕ)} {names : List Bytes}

/-- **Pass 2** is the descent, and the initramfs where it fails. -/
theorem resolveFrom_eq (path : Bytes) (start : ℕ) (comps : List (ℕ × ℕ)) (current : VnodeRef)
    (hbehind : Behind path start comps) :
    fs.resolveFrom path start current comps =
      match fs.descent current (namesAt path comps) with
      | (_, .ok vn) => .ok vn
      | (k, .error e) =>
        match fs.initramfsBuildVnode (slice path start ((comps[k]?).getD (0, 0)).2) with
        | some vn => .ok vn
        | none => .error e := by
  induction comps generalizing current with
  | nil => rfl
  | cons r comps ih =>
    obtain ⟨compStart, compEnd⟩ := r
    have hr := hbehind _ List.mem_cons_self
    simp only at hr
    have hne : slice path start compEnd ≠ [] := by
      rw [slice, ← List.length_pos_iff, List.length_drop, List.length_take]
      omega
    have hnames : namesAt path ((compStart, compEnd) :: comps) =
        slice path compStart compEnd :: namesAt path comps := rfl
    rw [FsState.resolveFrom, hnames, FsState.descent]
    cases hlookup : fs.vfsLookup current (slice path compStart compEnd) with
    | ok next =>
      dsimp only
      rw [ih _ fun r hr => hbehind r (List.mem_cons_of_mem _ hr)]
      obtain ⟨k, found⟩ := fs.descent (next.mount.getD next) (namesAt path comps)
      cases found with
      | ok vn => rfl
      | error e => rfl
    | error e =>
      dsimp only
      rw [if_neg hne]
      rfl

/-- **`vfs_resolve`, for every path.** -/
theorem vfsResolve_spec (fs : FsState) (path : Bytes) :
    (Overflows path → fs.vfsResolve path = .error enametoolong) ∧
    (¬ Overflows path → fs.vfsResolve path =
      match fs.descent .rootDir (normalise path) with
      | (_, .ok vn) => .ok vn
      | (k, .error e) =>
        match fs.initramfsBuildVnode (accumulated path k) with
        | some vn => .ok vn
        | none => .error e) := by
  have hpass : fs.vfsResolve path = match pass1 path with
      | .error e => .error e
      | .ok comps => fs.resolveFrom path (skipSlashes path 0) .rootDir comps := by
    unfold FsState.vfsResolve pass1
    dsimp only
    split_ifs with hroot hend
    · rcases hroot with rfl | rfl
      · rfl
      · rfl
    · have hnone : collect path path.length (skipSlashes path 0) [] = .ok [] := by
        cases path.length with
        | zero => rfl
        | succ n => rw [collect, if_pos hend]
      rw [hnone]
      rfl
    · rfl
  constructor
  · intro hover
    rw [hpass, pass1_error hover]
  · intro hroom
    obtain ⟨comps, hcomps, hbehind, hnames, -⟩ := pass1_ok hroom
    rw [hpass, hcomps]
    simp only [accumulated, hcomps]
    rw [resolveFrom_eq path _ comps .rootDir hbehind, hnames]

/-- A path that is refused for its length: pass 1 has no room for a component, or the lookup that
fails is one of a name that is too long. -/
def FsState.TooLong (fs : FsState) (path : Bytes) : Prop :=
  Overflows path ∨ ∃ k, fs.descent .rootDir (normalise path) = (k, .error enametoolong) ∧
    fs.initramfsBuildVnode (accumulated path k) = none

theorem vfsResolve_tooLong_iff :
    fs.vfsResolve path = .error enametoolong ↔ fs.TooLong path := by
  obtain ⟨hover, hspec⟩ := vfsResolve_spec fs path
  by_cases hroom : Overflows path
  · simp only [hover hroom, FsState.TooLong, hroom, true_or]
  · rw [hspec hroom]
    simp only [FsState.TooLong, hroom, false_or]
    obtain ⟨k, found⟩ := fs.descent .rootDir (normalise path)
    cases found with
    | ok vn => simp
    | error e =>
      simp only [Prod.mk.injEq, Except.error.injEq]
      cases hbuild : fs.initramfsBuildVnode (accumulated path k) with
      | none =>
        constructor
        · rintro heq
          cases heq
          exact ⟨k, ⟨rfl, rfl⟩, hbuild⟩
        · rintro ⟨_, ⟨-, rfl⟩, -⟩
          rfl
      | some vn =>
        constructor
        · rintro ⟨⟩
        · rintro ⟨_, ⟨rfl, -⟩, hnone⟩
          rw [hbuild] at hnone
          cases hnone

/-- **Paths with one normal form** have the same result, exactly if both are too long where pass 1
overflows for one, and otherwise what was written up to the component that is not found is the same
entry of the initramfs. -/
theorem vfsResolve_eq_iff (fs : FsState) (h : normalise p = normalise q) :
    fs.vfsResolve p = fs.vfsResolve q ↔
      (Overflows p ∨ Overflows q → fs.TooLong p ∧ fs.TooLong q) ∧
      (¬ Overflows p → ¬ Overflows q → ∀ k e,
        fs.descent .rootDir (normalise p) = (k, .error e) →
          fs.initramfsBuildVnode (accumulated p k) = fs.initramfsBuildVnode (accumulated q k)) := by
  obtain ⟨hpover, hpspec⟩ := vfsResolve_spec fs p
  obtain ⟨hqover, hqspec⟩ := vfsResolve_spec fs q
  rw [← vfsResolve_tooLong_iff, ← vfsResolve_tooLong_iff]
  by_cases hover : Overflows p ∨ Overflows q
  · have hone : fs.vfsResolve p = .error enametoolong ∨ fs.vfsResolve q = .error enametoolong :=
      hover.imp hpover hqover
    constructor
    · intro heq
      refine ⟨fun _ => ?_, fun hp hq => absurd hover (not_or.mpr ⟨hp, hq⟩)⟩
      rcases hone with hp | hq
      · exact ⟨hp, heq ▸ hp⟩
      · exact ⟨heq ▸ hq, hq⟩
    · intro hboth
      obtain ⟨hp, hq⟩ := hboth.1 hover
      rw [hp, hq]
  · obtain ⟨hp, hq⟩ := not_or.mp hover
    rw [hpspec hp, hqspec hq, ← h]
    simp only [hp, hq, or_self, false_imp_iff, not_false_eq_true, true_imp_iff, true_and]
    obtain ⟨k, found⟩ := fs.descent .rootDir (normalise p)
    cases found with
    | ok vn => simp
    | error e =>
      simp only [Prod.mk.injEq, Except.error.injEq, and_imp]
      constructor
      · rintro heq k' e' rfl rfl
        cases hbp : fs.initramfsBuildVnode (accumulated p k) with
        | none =>
          cases hbq : fs.initramfsBuildVnode (accumulated q k) with
          | none => rfl
          | some vn => simp [hbp, hbq] at heq
        | some vn =>
          cases hbq : fs.initramfsBuildVnode (accumulated q k) with
          | none => simp [hbp, hbq] at heq
          | some vn' =>
            simp only [hbp, hbq, Except.ok.injEq] at heq
            rw [heq]
      · intro hsame
        rw [hsame k e rfl rfl]

end Descent

/-- An archive with a file of one byte. -/
def inMemory (file : UstarFile) : Archive :=
  ⟨fun a => if a < 0x1000 then 0 else if a < 0x1200 then file.header (a - 0x1000) else 0, 0x1000,
    0x400⟩

/-- The paths `/a` and `//a`. -/
theorem vfsResolve_eq_iff_slashes :
    normalise [0x2f, 0x61] = normalise [0x2f, 0x2f, 0x61] ∧
    ((inMemory (namedFile [0x61])).fs.vfsResolve [0x2f, 0x61] =
        (inMemory (namedFile [0x61])).fs.vfsResolve [0x2f, 0x2f, 0x61] ↔
      (Overflows [0x2f, 0x61] ∨ Overflows [0x2f, 0x2f, 0x61] →
        (inMemory (namedFile [0x61])).fs.TooLong [0x2f, 0x61] ∧
          (inMemory (namedFile [0x61])).fs.TooLong [0x2f, 0x2f, 0x61]) ∧
      (¬ Overflows [0x2f, 0x61] → ¬ Overflows [0x2f, 0x2f, 0x61] → ∀ k e,
        (inMemory (namedFile [0x61])).fs.descent .rootDir (normalise [0x2f, 0x61]) = (k, .error e) →
          (inMemory (namedFile [0x61])).fs.initramfsBuildVnode (accumulated [0x2f, 0x61] k) =
            (inMemory (namedFile [0x61])).fs.initramfsBuildVnode
              (accumulated [0x2f, 0x2f, 0x61] k))) :=
  ⟨by decide +kernel, vfsResolve_eq_iff _ (by decide +kernel)⟩

/-- With a file `./a` in the archive, the path `/./a` leads to it and the path `/a` does not; and
sixteen components may be too many if a dot follows. -/
theorem vfsResolve_as_written :
    normalise [0x2f, 0x2e, 0x2f, 0x61] = normalise [0x2f, 0x61] ∧
    (inMemory (namedFile [0x2e, 0x2f, 0x61])).fs.vfsResolve [0x2f, 0x2e, 0x2f, 0x61] =
      .ok (.file 0x1200 1 false) ∧
    (inMemory (namedFile [0x2e, 0x2f, 0x61])).fs.vfsResolve [0x2f, 0x61] = .error enoent ∧
    normalise (absolute (List.replicate 16 [0x61] ++ [dotName])) =
      normalise (absolute (List.replicate 16 [0x61])) ∧
    (inMemory (namedFile [0x2e, 0x2f, 0x61])).fs.vfsResolve
      (absolute (List.replicate 16 [0x61] ++ [dotName])) = .error enametoolong ∧
    (inMemory (namedFile [0x2e, 0x2f, 0x61])).fs.vfsResolve
      (absolute (List.replicate 16 [0x61])) = .error enoent := by
  refine ⟨?_, ?_, ?_, ?_, ?_, ?_⟩
  · decide +kernel
  · decide +kernel
  · decide +kernel
  · decide +kernel
  · decide +kernel
  · decide +kernel

/-! ### The directories on the way -/

section Prefixes

variable {fs : FsState} {path : Bytes} {current vn : VnodeRef} {before names : List Bytes}
  {j k e : ℕ}

/-- A descent that fails does so for every longer list of names. -/
theorem descent_take_error (h : fs.descent current names = (j, .error e)) (hk : j < k) :
    fs.descent current (names.take k) = (j, .error e) := by
  induction names generalizing current j k with
  | nil => cases h
  | cons c names ih =>
    obtain ⟨k, rfl⟩ := Nat.exists_eq_succ_of_ne_zero (by omega : k ≠ 0)
    rw [List.take_succ_cons, FsState.descent]
    rw [FsState.descent] at h
    cases hlookup : fs.vfsLookup current c with
    | ok next =>
      rcases hrest : fs.descent (next.mount.getD next) names with ⟨i, found⟩
      simp only [hlookup, hrest, Prod.mk.injEq] at h ⊢
      obtain ⟨rfl, rfl⟩ := h
      rw [ih hrest (Nat.lt_of_succ_lt_succ hk)]
      exact ⟨rfl, rfl⟩
    | error e' =>
      simp only [hlookup] at h ⊢
      exact h

/-- The first names of a list: they are all found, or the descent fails among them. -/
theorem descent_take (hk : k ≤ names.length) :
    (∃ vn, fs.descent current (names.take k) = (k, .ok vn)) ∨
      ∃ j e, j < k ∧ fs.descent current names = (j, .error e) := by
  induction names generalizing current k with
  | nil =>
    obtain rfl := Nat.le_zero.mp hk
    exact .inl ⟨current, rfl⟩
  | cons c names ih =>
    cases k with
    | zero => exact .inl ⟨current, rfl⟩
    | succ k =>
      rw [List.take_succ_cons, FsState.descent, FsState.descent]
      cases hlookup : fs.vfsLookup current c with
      | ok next =>
        dsimp only
        rcases ih (Nat.le_of_succ_le_succ hk) with ⟨vn, hvn⟩ | ⟨j, e, hj, herr⟩
        · rw [hvn]
          exact .inl ⟨vn, rfl⟩
        · rw [herr]
          exact .inr ⟨j + 1, e, by omega, rfl⟩
      | error e => exact .inr ⟨0, e, Nat.succ_pos k, rfl⟩

/-- The resolution of components is the descent, and the initramfs where it fails. -/
theorem resolveNames_eq (fs : FsState) (current : VnodeRef) (before names : List Bytes) :
    fs.resolveNames current before names =
      match fs.descent current names with
      | (_, .ok vn) => .ok vn
      | (k, .error e) =>
        match fs.initramfsBuildVnode (joinPath (before ++ names.take (k + 1))) with
        | some vn => .ok vn
        | none => .error e := by
  induction names generalizing current before with
  | nil => rfl
  | cons c names ih =>
    rw [FsState.resolveNames, FsState.descent]
    cases hlookup : fs.vfsLookup current c with
    | ok next =>
      dsimp only
      rw [ih]
      obtain ⟨k, found⟩ := fs.descent (next.mount.getD next) names
      cases found with
      | ok vn => rfl
      | error e =>
        dsimp only
        rw [List.take_succ_cons, List.append_assoc, List.singleton_append]
    | error e =>
      rfl

/-- The canonical path to the first components of a path that can be resolved. -/
theorem vfsResolve_absolute (hnames : ∀ c ∈ names, ProperName c)
    (hlen : names.length ≤ vfsMaxComponents) :
    fs.vfsResolve (absolute names) =
      match fs.descent .rootDir names with
      | (_, .ok vn) => .ok vn
      | (k, .error e) =>
        match fs.initramfsBuildVnode (joinPath (names.take (k + 1))) with
        | some vn => .ok vn
        | none => .error e := by
  by_cases hnil : names = []
  · subst hnil
    rfl
  · rw [← slash_cons_joinPath hnil, vfsResolve_joinPath fs hnames hnil hlen, resolveNames_eq]
    rfl

theorem not_overflows (h : fs.vfsResolve path = .ok vn) : ¬ Overflows path := by
  intro hover
  rw [(vfsResolve_spec fs path).1 hover] at h
  cases h

end Prefixes

end Vibix.Vfs
