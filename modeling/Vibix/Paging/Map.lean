import Vibix.Paging.Built

/-! # Mapping and unmapping pages

`map_4k`, `try_map_4k` and `unmap_and_free_empty`.  The root is an argument: `map_4k` works on the
active one, the `_target` variants switch `CR3` to another root for the call and back.

Under a root whose entries are laid out as those of a process (`SpaceOk`), mapping and unmapping a
page of the user range keeps `Built`: the tables are found or linked (`tablesFor_built`), the leaf is
published (`tryMap4k_built`), and withdrawn together with the tables it leaves empty
(`unmapAndFreeEmpty_built`). -/

namespace Vibix.Paging

open FrameTree

/-- `try_get_or_create_table` for entry `x` of the table at `t`. -/
def tryGetOrCreateTable (p : PmmAllocator) (m : Mach) (t : ℕ) (x : Fin 512) : Mach × Option ℕ :=
  let e := m.mem t x
  if present e then (m, some (entryAddr e))
  else
    let r := p.alloc m.bitmap
    let m := { m with bitmap := r.1 }
    if r.2 = 0 then (m, none)
    else ((m.zero r.2).write t x (mkEntry r.2 (pageKernel ||| pageUser)), some r.2)

/-- The three levels of tables on the way to `v` under `root`, as `map_4k` and `try_map_4k` obtain
them; tables that were linked stay linked when a later one fails. -/
def tablesFor (p : PmmAllocator) (m : Mach) (root v : ℕ) : Mach × Option (ℕ × ℕ × ℕ) :=
  match tryGetOrCreateTable p m root (l4Index v) with
  | (m, none) => (m, none)
  | (m, some l3) =>
    match tryGetOrCreateTable p m l3 (l3Index v) with
    | (m, none) => (m, none)
    | (m, some l2) =>
      match tryGetOrCreateTable p m l2 (l2Index v) with
      | (m, none) => (m, none)
      | (m, some l1) => (m, some (l3, l2, l1))

/-- Set the `USER` bit of an entry. -/
def Mach.setUser (m : Mach) (t : ℕ) (x : Fin 512) : Mach := m.write t x (m.mem t x ||| pageUser)

/-- Write the leaf entry of `v`; for a user page all entries on the way get the `USER` bit. -/
def mapLeaf (m : Mach) (root v pa : ℕ) (flags : BitVec 64) (l3 l2 l1 : ℕ) : Mach :=
  let m := m.write l1 (l1Index v) (mkEntry pa flags)
  if user flags then
    ((m.setUser root (l4Index v)).setUser l3 (l3Index v)).setUser l2 (l2Index v)
  else m

/-- The page at `v` overlaps the kernel scratch page. -/
def inKernelScratch (v : ℕ) : Bool := overlapsKernelScratch v (min (v + 0x1000) (2 ^ 64 - 1))

/-- `map_4k` under `root`.  Out of memory, `get_or_create_table` halts for good (`none`). -/
def map4k (p : PmmAllocator) (m : Mach) (root v pa : ℕ) (flags : BitVec 64) : Option Mach :=
  if user flags && inKernelScratch v then some m
  else
    match tablesFor p m root v with
    | (_, none) => none
    | (m, some (l3, l2, l1)) => some (mapLeaf m root v pa flags l3 l2 l1)

/-- `try_map_4k` under `root`. -/
def tryMap4k (p : PmmAllocator) (m : Mach) (root v pa : ℕ) (flags : BitVec 64) : Mach × Bool :=
  if user flags && inKernelScratch v then (m, false)
  else if (translateInPml4 m.mem v root).isSome then (m, false)
  else
    match tablesFor p m root v with
    | (m, none) => (m, false)
    | (m, some (l3, l2, l1)) => (mapLeaf m root v pa flags l3 l2 l1, true)

/-- `unmap` under `root`: the entry that was cleared. -/
def unmap (m : Mach) (root v : ℕ) : Mach × Option (BitVec 64) :=
  let l4e := m.mem root (l4Index v)
  if !present l4e then (m, none)
  else
    let l3 := entryAddr l4e
    let l3e := m.mem l3 (l3Index v)
    if !present l3e then (m, none)
    else
      let l2 := entryAddr l3e
      let l2e := m.mem l2 (l2Index v)
      if !present l2e then (m, none)
      else if huge l2e then (m.write l2 (l2Index v) 0#64, some l2e)
      else
        let l1 := entryAddr l2e
        let l1e := m.mem l1 (l1Index v)
        if !present l1e then (m, none) else (m.write l1 (l1Index v) 0#64, some l1e)

/-- Withdraw the table at `child` from entry `x` of `t` if it is empty, and go on with `k`. -/
def reclaimEmpty (p : PmmAllocator) (m : Mach) (t : ℕ) (x : Fin 512) (child : ℕ)
    (k : Mach → Mach) : Mach :=
  if tableEmpty m child then k ((m.write t x 0#64).free p child) else m

/-- The tables of `v` that became empty are given back, from the PT up. -/
def reclaimTables (p : PmmAllocator) (m : Mach) (root v l3 l2 l1 : ℕ) : Mach :=
  reclaimEmpty p m l2 (l2Index v) l1 fun m =>
    reclaimEmpty p m l3 (l3Index v) l2 fun m =>
      reclaimEmpty p m root (l4Index v) l3 id

/-- `unmap_and_free_empty` under `root`. -/
def unmapAndFreeEmpty (p : PmmAllocator) (m : Mach) (root v : ℕ) : Mach × Option (BitVec 64) :=
  let l4e := m.mem root (l4Index v)
  if !present l4e then (m, none)
  else
    let l3 := entryAddr l4e
    let l3e := m.mem l3 (l3Index v)
    if !present l3e then (m, none)
    else
      let l2 := entryAddr l3e
      let l2e := m.mem l2 (l2Index v)
      if !present l2e || huge l2e then unmap m root v
      else
        let l1 := entryAddr l2e
        let l1e := m.mem l1 (l1Index v)
        if !present l1e then (m, none)
        else (reclaimTables p (m.write l1 (l1Index v) 0#64) root v l3 l2 l1, some l1e)

/-! ### The layout of a process root -/

/-- How the entries of a process root look: there are no 1 GiB pages, and from `USER_CODE_ADDR` on
only tables of user leaves.  `H` is what is known of the root entries other than `PML4[0]`, `Lo` of
the PD entries below `USER_CODE_ADDR`. -/
def SpaceOk (H : Fin 512 → BitVec 64 → Prop) (Lo : BitVec 64 → Prop) :
    List (Fin 512) → Fin 512 → BitVec 64 → Prop
  | [], x, e => if x = 0 then e = 0#64 ∨ isTable e = true else H x e
  | [_], _, e => e = 0#64 ∨ isTable e = true
  | [i, _], j, e =>
    if pdVaddr i j < userCodeAddr then e = 0#64 ∨ Lo e
    else e = 0#64 ∨ isTable e = true
  | [_, _, _], _, e => e = 0#64 ∨ isUserLeaf e = true
  | _, _, _ => True

section Layout

variable {p : PmmAllocator} {m₁ m : Mach} {r t v : ℕ} {x i j k : Fin 512} {q : List (Fin 512)}
  {E : Set ℕ} {Ok : List (Fin 512) → Fin 512 → BitVec 64 → Prop}
  {H : Fin 512 → BitVec 64 → Prop} {Lo : BitVec 64 → Prop}

theorem SpaceOk.notUserHuge (q : List (Fin 512)) (x : Fin 512) (e : BitVec 64)
    (h : SpaceOk H Lo q x e) : NotUserHuge q x e := by
  rintro i rfl hv hpr hh
  simp only [SpaceOk, Nat.not_lt.mpr hv, ↓reduceIte] at h
  rcases h with rfl | htab
  · simp at hpr
  · rw [(isTable_eq_true.mp htab).2] at hh
    cases hh

theorem SpaceOk.zero (hq : q ≠ []) (x : Fin 512) : SpaceOk H Lo q x 0#64 := by
  match q, hq with
  | [_], _ => exact Or.inl rfl
  | [_, _], _ => simp [SpaceOk]
  | [_, _, _], _ => exact Or.inl rfl
  | _ :: _ :: _ :: _ :: _, _ => trivial

/-- The flags of a fresh table entry. -/
theorem tableEntry_flags : isTable (pageKernel ||| pageUser) = true := by decide

theorem noAddr_tableEntry : NoAddr (pageKernel ||| pageUser) := by
  unfold NoAddr
  decide

/-- **One level**: the table is there, or a fresh zeroed one is linked, or memory ran out. -/
theorem tryGetOrCreateTable_built (hp : p.Physical) (h : Built p Ok m₁ r E m)
    (hq : frameAt ownedBy m.mem r q = some t)
    (hown : ∀ e, isTable e = true → ownedBy q x e = some (entryAddr e))
    (hok : ∀ e, isTable e = true → Ok q x e) (hzero : ∀ y, Ok (x :: q) y 0#64)
    (hcur : m.mem t x = 0#64 ∨ isTable (m.mem t x) = true) :
    ∃ m' res, tryGetOrCreateTable p m t x = (m', res) ∧ Built p Ok m₁ r E m' ∧
      (∀ path f, frameAt ownedBy m.mem r path = some f →
        frameAt ownedBy m'.mem r path = some f) ∧
      ∀ t', res = some t' → frameAt ownedBy m'.mem r (x :: q) = some t' ∧
        (m' = m ∨ ∀ y, m'.mem t' y = 0#64) := by
  unfold tryGetOrCreateTable
  rcases hcur with hz | htab
  · have hnone : ownedBy q x (m.mem t x) = none := by
      rw [hz]
      exact ownedBy_zero q x
    simp only [hz, present_zero, Bool.false_eq_true, ↓reduceIte]
    by_cases hnull : (p.alloc m.bitmap).2 = 0
    · simp only [hnull, ↓reduceIte, mach_alloc_null hp hnull]
      exact ⟨m, none, rfl, h, fun _ _ hf => hf, by simp⟩
    · simp only [hnull, ↓reduceIte]
      have htake := PmmAllocator.taken_alloc hp.toValid hnull
      have hframe : IsFrame (p.alloc m.bitmap).2 := isFrame_of_free hp (htake.sub rfl)
      have htab := isTable_mkEntry hframe tableEntry_flags
      have he := hown _ htab
      rw [entryAddr_mkEntry hframe noAddr_tableEntry] at he
      obtain ⟨hb, hpath, hsame, hnew, _⟩ :=
        h.publish hq hnone htake (Or.inr rfl) he (hok _ htab) hzero rfl
      refine ⟨_, _, rfl, hb, hsame.frameAt_mono h.priv hq hnone, ?_⟩
      rintro t' ⟨⟩
      exact ⟨hpath, Or.inr (congrFun hnew)⟩
  · simp only [(isTable_eq_true.mp htab).1, ↓reduceIte]
    refine ⟨m, _, rfl, h, fun _ _ hf => hf, ?_⟩
    rintro t' ⟨⟩
    rw [frameAt_cons_of hq]
    exact ⟨hown _ htab, Or.inl rfl⟩

theorem l4Index_low (hv : v < 2 ^ 39) : l4Index v = 0 :=
  Fin.ext (by simp only [l4Index, Fin.val_zero]; omega)

theorem pdVaddr_high (hlow : userCodeAddr ≤ v) (hv : v < 2 ^ 39) :
    userCodeAddr ≤ pdVaddr (l3Index v) (l2Index v) := by
  simp only [userCodeAddr, pdVaddr, l3Index, l2Index] at hlow ⊢
  omega

/-- The page of `v` in the tree of owned frames. -/
abbrev leafPath (v : ℕ) : List (Fin 512) := [l1Index v, l2Index v, l3Index v, 0]

/-- The places of the entries that lead to a table of a process root. -/
inductive TablePlace : List (Fin 512) → Fin 512 → Prop
  | pdpt : TablePlace [] 0
  | pd (i : Fin 512) : TablePlace [0] i
  | pt {i j : Fin 512} : userCodeAddr ≤ pdVaddr i j → TablePlace [i, 0] j

theorem TablePlace.own_eq (hplace : TablePlace q x) (e : BitVec 64) :
    ownedBy q x e = if (match q with | [] => present e | _ => isTable e) then some (entryAddr e)
      else none := by
  cases hplace with
  | pdpt => simp [ownedBy]
  | pd => rfl
  | pt hv => simp [ownedBy, hv, isTable]

theorem TablePlace.ownedBy_of_isTable (hplace : TablePlace q x) {e : BitVec 64}
    (h : isTable e = true) : ownedBy q x e = some (entryAddr e) := by
  have hpr := (isTable_eq_true.mp h).1
  rw [hplace.own_eq]
  cases hplace with
  | pdpt => simp [hpr]
  | pd => simp [h]
  | pt => simp [h]

theorem TablePlace.cases (hplace : TablePlace q x) {e : BitVec 64} (h : SpaceOk H Lo q x e) :
    e = 0#64 ∨ isTable e = true := by
  cases hplace with
  | pdpt => simpa [SpaceOk] using h
  | pd => exact h
  | pt hv => simpa only [SpaceOk, Nat.not_lt.mpr hv, ↓reduceIte] using h

theorem TablePlace.zero (hplace : TablePlace q x) : SpaceOk H Lo q x 0#64 := by
  cases hplace with
  | pdpt => simp [SpaceOk]
  | pd => exact Or.inl rfl
  | pt hv => simp [SpaceOk]

theorem TablePlace.ok (hplace : TablePlace q x) {e : BitVec 64} (h : isTable e = true) :
    SpaceOk H Lo q x e := by
  cases hplace with
  | pdpt =>
    simp only [SpaceOk, ↓reduceIte]
    exact Or.inr h
  | pd => exact Or.inr h
  | pt hv =>
    simp only [SpaceOk, Nat.not_lt.mpr hv, ↓reduceIte]
    exact Or.inr h

/-- **One level** of a process root. -/
theorem tryGetOrCreateTable_space (hp : p.Physical) (h : Built p (SpaceOk H Lo) m₁ r E m)
    (hq : frameAt ownedBy m.mem r q = some t) (hplace : TablePlace q x) :
    ∃ m' res, tryGetOrCreateTable p m t x = (m', res) ∧ Built p (SpaceOk H Lo) m₁ r E m' ∧
      (∀ path f, frameAt ownedBy m.mem r path = some f →
        frameAt ownedBy m'.mem r path = some f) ∧
      ∀ t', res = some t' → frameAt ownedBy m'.mem r (x :: q) = some t' ∧
        (m' = m ∨ ∀ y, m'.mem t' y = 0#64) := by
  refine tryGetOrCreateTable_built hp h hq ?_ (fun e he => hplace.ok he) (SpaceOk.zero (by simp))
    (hplace.cases (h.entries q t x hq))
  intro e he
  rw [hplace.ownedBy_of_isTable he]

/-- **The tables of a user page**: found or linked, and the PT is empty unless nothing changed. -/
theorem tablesFor_built (hp : p.Physical) (h : Built p (SpaceOk H Lo) m₁ r E m)
    (hlow : userCodeAddr ≤ v) (hv : v < 2 ^ 39) :
    ∃ m' res, tablesFor p m r v = (m', res) ∧ Built p (SpaceOk H Lo) m₁ r E m' ∧
      (∀ path f, frameAt ownedBy m.mem r path = some f →
        frameAt ownedBy m'.mem r path = some f) ∧
      ∀ l3 l2 l1, res = some (l3, l2, l1) → frameAt ownedBy m'.mem r [0] = some l3 ∧
        frameAt ownedBy m'.mem r [l3Index v, 0] = some l2 ∧
        frameAt ownedBy m'.mem r [l2Index v, l3Index v, 0] = some l1 ∧
        (m' = m ∨ ∀ y, m'.mem l1 y = 0#64) := by
  unfold tablesFor
  rw [l4Index_low hv]
  -- a fresh table has no child
  have hchild : ∀ {m' : Mach} {t t' : ℕ} {x : Fin 512} {q : List (Fin 512)},
      frameAt ownedBy m'.mem r q = some t → (∀ y, m'.mem t y = 0#64) →
      frameAt ownedBy m'.mem r (x :: q) ≠ some t' := by
    intro m' t t' x q hq hzero hf
    rw [frameAt_cons_of hq, hzero, ownedBy_zero] at hf
    cases hf
  obtain ⟨ma, resa, hruna, ha, hmonoa, hresa⟩ :=
    tryGetOrCreateTable_space hp h (q := []) rfl .pdpt
  simp only [hruna]
  cases resa with
  | none => exact ⟨ma, none, rfl, ha, hmonoa, by simp⟩
  | some l3 =>
    obtain ⟨hl3, hnewa⟩ := hresa l3 rfl
    obtain ⟨mb, resb, hrunb, hb, hmonob, hresb⟩ :=
      tryGetOrCreateTable_space hp ha hl3 (.pd (l3Index v))
    simp only [hrunb]
    have hmono₂ : ∀ path f, frameAt ownedBy m.mem r path = some f →
        frameAt ownedBy mb.mem r path = some f :=
      fun path f hf => hmonob path f (hmonoa path f hf)
    cases resb with
    | none => exact ⟨mb, none, rfl, hb, hmono₂, by simp⟩
    | some l2 =>
      obtain ⟨hl2, hnewb⟩ := hresb l2 rfl
      obtain ⟨mc, resc, hrunc, hc, hmonoc, hresc⟩ :=
        tryGetOrCreateTable_space hp hb hl2 (.pt (pdVaddr_high hlow hv))
      simp only [hrunc]
      have hmono₃ : ∀ path f, frameAt ownedBy m.mem r path = some f →
          frameAt ownedBy mc.mem r path = some f :=
        fun path f hf => hmonoc path f (hmono₂ path f hf)
      cases resc with
      | none => exact ⟨mc, none, rfl, hc, hmono₃, by simp⟩
      | some l1 =>
        obtain ⟨hl1, hnewc⟩ := hresc l1 rfl
        refine ⟨mc, _, rfl, hc, hmono₃, ?_⟩
        rintro _ _ _ ⟨⟩
        refine ⟨hmonoc _ _ (hmonob _ _ hl3), hmonoc _ _ hl2, hl1, ?_⟩
        refine hnewc.imp_left ?_
        rintro rfl
        rcases hnewb with rfl | hzero
        · rcases hnewa with rfl | hzero
          · rfl
          · exact absurd hl2 (hchild hl3 hzero)
        · exact absurd hl1 (hchild hl2 hzero)

/-- Setting the `USER` bit of a table entry changes nothing in the tree. -/
theorem Built.setUser (h : Built p (SpaceOk H Lo) m₁ r E m)
    (hq : frameAt ownedBy m.mem r q = some t) (hplace : TablePlace q x)
    (htab : isTable (m.mem t x) = true) :
    Built p (SpaceOk H Lo) m₁ r E (m.setUser t x) ∧
      ∀ path, frameAt ownedBy (m.setUser t x).mem r path = frameAt ownedBy m.mem r path := by
  have htab' : isTable (m.mem t x ||| pageUser) = true := by
    rw [isTable_eq_true] at htab ⊢
    rw [present_or_user, huge_or_user]
    exact htab
  refine h.write hq ?_ (hplace.ok htab')
  rw [hplace.own_eq, hplace.own_eq, entryAddr_or_user, htab, htab', present_or_user]

/-- An entry with an owned table behind it leads to a table. -/
theorem Built.isTable_of_child {f : ℕ} (h : Built p (SpaceOk H Lo) m₁ r E m)
    (hq : frameAt ownedBy m.mem r q = some t) (hplace : TablePlace q x)
    (hf : frameAt ownedBy m.mem r (x :: q) = some f) :
    isTable (m.mem t x) = true ∧ entryAddr (m.mem t x) = f := by
  rw [frameAt_cons_of hq] at hf
  rcases hplace.cases (h.entries q t x hq) with hzero | htab
  · rw [hzero, ownedBy_zero] at hf
    cases hf
  · rw [hplace.ownedBy_of_isTable htab] at hf
    exact ⟨htab, Option.some.inj hf⟩

/-- **Publishing a user leaf.** -/
theorem mapLeaf_built {pa l3 l2 l1 : ℕ} (h : Built p (SpaceOk H Lo) m₁ r (insert pa E) m)
    (hE : pa ∉ E) (hpa : IsFrame pa) (hlow : userCodeAddr ≤ v) (hv : v < 2 ^ 39)
    (hl3 : frameAt ownedBy m.mem r [0] = some l3)
    (hl2 : frameAt ownedBy m.mem r [l3Index v, 0] = some l2)
    (hl1 : frameAt ownedBy m.mem r [l2Index v, l3Index v, 0] = some l1)
    (hleaf : m.mem l1 (l1Index v) = 0#64) :
    Built p (SpaceOk H Lo) m₁ r E (mapLeaf m r v pa pageUserRw l3 l2 l1) ∧
      ∀ path, frameAt ownedBy (mapLeaf m r v pa pageUserRw l3 l2 l1).mem r path =
        if path = leafPath v then some pa else frameAt ownedBy m.mem r path := by
  have huser : isUserLeaf (mkEntry pa pageUserRw) = true := by
    rw [isUserLeaf_eq_true, present_mkEntry hpa, user_mkEntry hpa]
    exact ⟨present_pageUserRw, user_pageUserRw⟩
  have hown : ownedBy [l2Index v, l3Index v, 0] (l1Index v) (mkEntry pa pageUserRw) = some pa := by
    rw [isUserLeaf] at huser
    simp only [ownedBy, huser, ↓reduceIte, entryAddr_mkEntry hpa noAddr_pageUserRw]
  obtain ⟨hb, hpath⟩ := h.link hE hl1 (by rw [hleaf]; exact ownedBy_zero _ _) (Or.inl rfl) hown
    (Or.inr huser) (fun _ => trivial)
  have hne : ∀ q : List (Fin 512), q.length ≠ 4 → frameAt ownedBy
      (m.write l1 (l1Index v) (mkEntry pa pageUserRw)).mem r q = frameAt ownedBy m.mem r q := by
    intro q hq
    rw [hpath, if_neg]
    rintro rfl
    simp at hq
  simp only [mapLeaf, user_pageUserRw, ↓reduceIte, l4Index_low hv]
  -- the three entries on the way
  rw [← hne _ (by simp)] at hl3 hl2 hl1
  obtain ⟨hb₁, hpath₁⟩ := hb.setUser (q := []) rfl .pdpt (hb.isTable_of_child rfl .pdpt hl3).1
  rw [← hpath₁] at hl3 hl2 hl1
  obtain ⟨hb₂, hpath₂⟩ := hb₁.setUser hl3 (.pd _) (hb₁.isTable_of_child hl3 (.pd _) hl2).1
  rw [← hpath₂] at hl2 hl1
  have hplace : TablePlace [l3Index v, 0] (l2Index v) := .pt (pdVaddr_high hlow hv)
  obtain ⟨hb₃, hpath₃⟩ := hb₂.setUser hl2 hplace (hb₂.isTable_of_child hl2 hplace hl1).1
  refine ⟨hb₃, fun path => ?_⟩
  rw [hpath₃, hpath₂, hpath₁, hpath]

/-- The walk of the source along the tables of a process root. -/
theorem translate_of_tables {mem : PhysMem} {l1 : ℕ} (hv : v < 2 ^ 39)
    (hl1 : frameAt ownedBy mem r [l2Index v, l3Index v, 0] = some l1) :
    translateInPml4 mem v r =
      if !present (mem l1 (l1Index v)) then none
      else some (entryAddr (mem l1 (l1Index v)) ||| v % 2 ^ 12) := by
  obtain ⟨l2, hl2, _, htab₂, rfl⟩ := owned_pt.mp hl1
  obtain ⟨l3, hl3, htab₃, rfl⟩ := owned_pd.mp hl2
  obtain ⟨hpr₄, rfl⟩ := owned_pdpt.mp hl3
  obtain ⟨hpr₃, _⟩ := isTable_eq_true.mp htab₃
  obtain ⟨hpr₂, hhuge₂⟩ := isTable_eq_true.mp htab₂
  simp only [translateInPml4, l4Index_low hv, hpr₄, hpr₃, hpr₂, hhuge₂, Bool.not_true,
    Bool.false_eq_true, ↓reduceIte]

/-- **Mapping a user page** under a process root: it is published, or the frame is still unlinked. -/
theorem tryMap4k_built {pa : ℕ} (hp : p.Physical) (h : Built p (SpaceOk H Lo) m₁ r (insert pa E) m)
    (hE : pa ∉ E) (hpa : IsFrame pa) (hlow : userCodeAddr ≤ v) (hv : v < 2 ^ 39) :
    ∃ m' b, tryMap4k p m r v pa pageUserRw = (m', b) ∧
      (∀ path f, frameAt ownedBy m.mem r path = some f →
        frameAt ownedBy m'.mem r path = some f) ∧
      (b = true → Built p (SpaceOk H Lo) m₁ r E m' ∧
        frameAt ownedBy m'.mem r (leafPath v) = some pa) ∧
      (b = false → Built p (SpaceOk H Lo) m₁ r (insert pa E) m') := by
  unfold tryMap4k
  split
  · exact ⟨m, false, rfl, fun _ _ hf => hf, by simp, fun _ => h⟩
  split
  · exact ⟨m, false, rfl, fun _ _ hf => hf, by simp, fun _ => h⟩
  next hnone =>
  obtain ⟨m', res, hrun, hb, hmono, hres⟩ := tablesFor_built hp h hlow hv
  rw [hrun]
  match res, hres with
  | none, _ => exact ⟨m', false, rfl, hmono, by simp, fun _ => hb⟩
  | some (l3, l2, l1), hres =>
    obtain ⟨hl3, hl2, hl1, hfresh⟩ := hres l3 l2 l1 rfl
    have hleaf : m'.mem l1 (l1Index v) = 0#64 := by
      rcases hfresh with rfl | hzero
      · rw [translate_of_tables hv hl1] at hnone
        have hok : m'.mem l1 (l1Index v) = 0#64 ∨ isUserLeaf (m'.mem l1 (l1Index v)) = true :=
          hb.entries _ _ (l1Index v) hl1
        refine hok.resolve_right fun huser => ?_
        simp [(isUserLeaf_eq_true.mp huser).1] at hnone
      · exact hzero _
    obtain ⟨hb', hpath⟩ := mapLeaf_built hb hE hpa hlow hv hl3 hl2 hl1 hleaf
    refine ⟨_, true, rfl, ?_, fun _ => ⟨hb', by rw [hpath, if_pos rfl]⟩, by simp⟩
    intro path f hf
    have hf' := hmono path f hf
    rw [hpath, if_neg]
    · exact hf'
    · rintro rfl
      rw [frameAt_cons_of hl1, hleaf, ownedBy_zero] at hf'
      cases hf'

/-! ### Unmapping -/

/-- **Reclaiming an empty table** of a process root. -/
theorem reclaimEmpty_built {child : ℕ} {cont : Mach → Mach} {P : Mach → Prop}
    (h : Built p (SpaceOk H Lo) m₁ r E m) (hq : frameAt ownedBy m.mem r q = some t)
    (hplace : TablePlace q x) (hf : frameAt ownedBy m.mem r (x :: q) = some child) (hkeep : P m)
    (hcont : ∀ m', Built p (SpaceOk H Lo) m₁ r E m' →
      (∀ path, frameAt ownedBy m'.mem r path =
        if path = x :: q then none else frameAt ownedBy m.mem r path) →
      P (cont m')) :
    P (reclaimEmpty p m t x child cont) := by
  unfold reclaimEmpty
  split
  next hempty =>
    have hleaf : ∀ y, frameAt ownedBy m.mem r (y :: x :: q) = none := by
      intro y
      have hz : m.mem child y = 0#64 := of_decide_eq_true hempty y
      rw [frameAt_cons_of hf, hz, ownedBy_zero]
    obtain ⟨hb, hE, hpath⟩ := h.unlink hq hf hleaf (ownedBy_zero q x) hplace.zero
    exact hcont _ (hb.release hE) hpath
  · exact hkeep

/-- **Unmapping a user page**: the leaf is withdrawn and its entry returned, tables left empty are
given back, and the other leaves stay. -/
theorem unmapAndFreeEmpty_built {f : ℕ} (h : Built p (SpaceOk H Lo) m₁ r E m) (hv : v < 2 ^ 39)
    (hf : frameAt ownedBy m.mem r (leafPath v) = some f) :
    ∃ m' e, unmapAndFreeEmpty p m r v = (m', some e) ∧ entryAddr e = f ∧ f ∉ E ∧
      Built p (SpaceOk H Lo) m₁ r (insert f E) m' ∧
      ∀ path g, path.length = 4 → path ≠ leafPath v → frameAt ownedBy m.mem r path = some g →
        frameAt ownedBy m'.mem r path = some g := by
  obtain ⟨l1, hl1, hleaf, hfaddr⟩ := owned_leaf.mp hf
  obtain ⟨l2, hl2, hhigh, htab₂, hl1addr⟩ := owned_pt.mp hl1
  obtain ⟨l3, hl3, htab₃, hl2addr⟩ := owned_pd.mp hl2
  obtain ⟨hpr₄, hl3addr⟩ := owned_pdpt.mp hl3
  obtain ⟨hpr₃, _⟩ := isTable_eq_true.mp htab₃
  obtain ⟨hpr₂, hhuge₂⟩ := isTable_eq_true.mp htab₂
  have hplace₂ : TablePlace [l3Index v, 0] (l2Index v) := .pt hhigh
  obtain ⟨hb, hE, hpath⟩ := h.unlink hl1 hf (fun y => by rw [frameAt_cons_of hf]; rfl)
    (ownedBy_zero _ _) (Or.inl rfl)
  set m₀ := m.write l1 (l1Index v) 0#64 with hm₀
  have hne : ∀ q : List (Fin 512), q.length ≠ 4 →
      frameAt ownedBy m₀.mem r q = frameAt ownedBy m.mem r q := by
    intro q hq
    rw [hpath, if_neg]
    rintro rfl
    simp at hq
  refine ⟨reclaimTables p m₀ r v l3 l2 l1, m.mem l1 (l1Index v), ?_, hfaddr, hE, ?_⟩
  · simp only [unmapAndFreeEmpty, l4Index_low hv, hpr₄, hl3addr, hpr₃, hl2addr, hpr₂, hhuge₂,
      hl1addr, (isUserLeaf_eq_true.mp hleaf).1, Bool.not_true, Bool.or_self, Bool.false_eq_true,
      ↓reduceIte, ← hm₀]
  · let P : Mach → Prop := fun m' => Built p (SpaceOk H Lo) m₁ r (insert f E) m' ∧
      ∀ path g, path.length = 4 → frameAt ownedBy m₀.mem r path = some g →
        frameAt ownedBy m'.mem r path = some g
    -- a table that is withdrawn is not a leaf
    have hP : ∀ {m' m'' : Mach} {q : List (Fin 512)}, P m' →
        Built p (SpaceOk H Lo) m₁ r (insert f E) m'' → q.length ≠ 4 →
        (∀ path, frameAt ownedBy m''.mem r path =
          if path = q then none else frameAt ownedBy m'.mem r path) → P m'' := by
      intro m' m'' q hP hb'' hq hpath''
      refine ⟨hb'', fun path g hlen hg => ?_⟩
      rw [hpath'', if_neg]
      · exact hP.2 path g hlen hg
      · rintro rfl
        exact hq hlen
    have hP₀ : P m₀ := ⟨hb, fun _ _ _ hg => hg⟩
    rw [← hne _ (by simp)] at hl3 hl2 hl1
    have hfinal : P (reclaimTables p m₀ r v l3 l2 l1) := by
      refine reclaimEmpty_built hb hl2 hplace₂ hl1 hP₀ fun ma ha hpa => ?_
      have hPa := hP hP₀ ha (by simp) hpa
      have hl3a : frameAt ownedBy ma.mem r [0] = some l3 := by rw [hpa, if_neg (by simp), hl3]
      have hl2a : frameAt ownedBy ma.mem r [l3Index v, 0] = some l2 := by
        rw [hpa, if_neg (by simp), hl2]
      refine reclaimEmpty_built ha hl3a (.pd _) hl2a hPa fun mb hb hpb => ?_
      have hPb := hP hPa hb (by simp) hpb
      have hl3b : frameAt ownedBy mb.mem r [0] = some l3 := by rw [hpb, if_neg (by simp), hl3a]
      rw [l4Index_low hv]
      exact reclaimEmpty_built hb (q := []) rfl .pdpt hl3b hPb fun mc hc hpc =>
        hP hPb hc (by simp) hpc
    refine ⟨hfinal.1, fun path g hlen hpathv hg => hfinal.2 path g hlen ?_⟩
    rw [hpath, if_neg hpathv, hg]

end Layout

end Vibix.Paging
