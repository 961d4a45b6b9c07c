import Vibix.Kmm

/-! # The heap representation

`HeapInv s L` relates a heap state to the tiling it stores, and the two operations are shown to
be the obvious edits of the tiling:

* `takeBlock_inv`: `kmalloc` replaces a free cell by a live one, followed by a free cell when
  it split;
* `free_inv`: `kfree` makes a live cell free and merges it with the free neighbours it
  has.

Headers are read and written through `header`; two headers of distinct cells are `Apart`, so an
update of one never shows in another (`header_setSize_apart` and its like). -/

namespace Vibix

namespace Kmm

/-! ### Headers -/

/-- A block header as a value. -/
@[ext] structure Header where
  magic : BitVec 32
  size : ℕ
  next : ℕ

/-- The header stored at `b`. -/
def header (s : Kmm) (b : ℕ) : Header := ⟨s.magic b, s.size b, s.next b⟩

/-- The header words at `a` and `b` do not overlap. -/
def Apart (a b : ℕ) : Prop := a % 8 = 0 ∧ b % 8 = 0 ∧ (a + 24 ≤ b ∨ b + 24 ≤ a)

theorem Apart.symm {a b : ℕ} (h : Apart a b) : Apart b a := ⟨h.2.1, h.1, h.2.2.symm⟩

variable {s : Kmm} {a b k j v t n prev curr block fuel : ℕ}

theorem field_setField_self (s : Kmm) (b k j : ℕ) (v : BitVec 64) :
    (s.setField b k v).field b j = if k = j then v else s.field b j := by
  have hword : (b + 8 * k) / 8 = (b + 8 * j) / 8 ↔ k = j := by omega
  simp only [field, setField, PhysMem.readWord_writeWord, hword]

theorem field_setField_apart (h : Apart a b) (hk : k < 3) (hj : j < 3) (v : BitVec 64) :
    (s.setField b k v).field a j = s.field a j := by
  obtain ⟨ha, hb, hab⟩ := h
  simp only [field, setField, PhysMem.readWord_writeWord]
  rw [if_neg (by omega)]

@[simp] theorem header_setMagic_self (s : Kmm) (b : ℕ) :
    (s.setMagic b).header b = { s.header b with magic := kmmMagic } := by
  ext1
  · simp only [header, magic, setMagic, field_setField_self, ↓reduceIte]
    exact BitVec.setWidth_append_eq_right
  · simp [header, size, setMagic, field_setField_self]
  · simp [header, next, setMagic, field_setField_self]

@[simp] theorem header_setSize_self (s : Kmm) (b v : ℕ) :
    (s.setSize b v).header b = { s.header b with size := v % 2 ^ 64 } := by
  simp [header, magic, size, next, setSize, field_setField_self]

@[simp] theorem header_setNext_self (s : Kmm) (b v : ℕ) :
    (s.setNext b v).header b = { s.header b with next := v % 2 ^ 64 } := by
  simp [header, magic, size, next, setNext, field_setField_self]

theorem header_setMagic_apart (h : Apart a b) : (s.setMagic b).header a = s.header a := by
  simp [header, magic, size, next, setMagic, field_setField_apart h]

theorem header_setSize_apart (h : Apart a b) : (s.setSize b v).header a = s.header a := by
  simp [header, magic, size, next, setSize, field_setField_apart h]

theorem header_setNext_apart (h : Apart a b) : (s.setNext b v).header a = s.header a := by
  simp [header, magic, size, next, setNext, field_setField_apart h]

@[simp] theorem header_freeList (s : Kmm) (b v : ℕ) :
    ({ s with freeList := v } : Kmm).header b = s.header b := rfl

theorem size_eq_header (s : Kmm) (b : ℕ) : s.size b = (s.header b).size := rfl

theorem next_eq_header (s : Kmm) (b : ℕ) : s.next b = (s.header b).next := rfl

theorem magic_eq_header (s : Kmm) (b : ℕ) : s.magic b = (s.header b).magic := rfl

/-! ### Pointers -/

/-- A pointer value as an option: null is `none`. -/
def toPtr (p : ℕ) : Option ℕ := if p = 0 then none else some p

/-- The address behind a pointer, `0` for null. -/
def ofPtr (p : Option ℕ) : ℕ := p.getD 0

@[simp] theorem toPtr_eq_none {p : ℕ} : toPtr p = none ↔ p = 0 := by simp [toPtr]

@[simp] theorem toPtr_eq_some {p : ℕ} : toPtr p = some a ↔ p = a ∧ a ≠ 0 := by
  unfold toPtr
  split_ifs with hp
  · simp [hp]
    omega
  · simp
    omega

@[simp] theorem ofPtr_some : ofPtr (some a) = a := rfl

@[simp] theorem ofPtr_none : ofPtr none = 0 := rfl

/-- The link function of the heap. -/
def nextPtr (s : Kmm) (b : ℕ) : Option ℕ := toPtr (s.next b)

/-- The first-fit walk along a chain finds the first block that is large enough. -/
theorem findFit_spec (s : Kmm) (n : ℕ) : ∀ (M : List ℕ) (fuel prev : ℕ) {curr : ℕ},
    Chain s.nextPtr (toPtr curr) M → M.length < fuel →
    (∃ q, s.findFit n fuel prev curr = some (q, 0) ∧ ∀ b ∈ M, s.size b < n) ∨
    ∃ X b Y, M = X ++ b :: Y ∧ n ≤ s.size b ∧
      s.findFit n fuel prev curr = some (ofPtr (lastOr (some prev) X), b)
  | [], fuel, prev, curr, hchain, hfuel => by
      obtain ⟨fuel, rfl⟩ := Nat.exists_eq_succ_of_ne_zero (Nat.ne_of_gt hfuel)
      have hcurr : curr = 0 := toPtr_eq_none.mp hchain
      left
      exact ⟨prev, by simp [findFit, hcurr], by simp⟩
  | b :: M, fuel, prev, curr, ⟨hb, hchain⟩, hfuel => by
      obtain ⟨fuel, rfl⟩ := Nat.exists_eq_succ_of_ne_zero (Nat.ne_of_gt (Nat.zero_lt_of_lt hfuel))
      obtain ⟨rfl, hne⟩ := toPtr_eq_some.mp hb
      by_cases hfit : n ≤ s.size curr
      · right
        exact ⟨[], curr, M, rfl, hfit, by simp [findFit, hne, hfit]⟩
      · have hstep : s.findFit n (fuel + 1) prev curr = s.findFit n fuel curr (s.next curr) := by
          simp [findFit, hne, hfit]
        have hlen : M.length < fuel := by
          simp only [List.length_cons] at hfuel
          omega
        rw [hstep]
        rcases findFit_spec s n M fuel curr hchain hlen with
          ⟨q, hq, hsmall⟩ | ⟨X, c, Y, rfl, hc, hfind⟩
        · left
          refine ⟨q, hq, ?_⟩
          intro d hd
          rcases List.mem_cons.mp hd with rfl | hd
          · omega
          · exact hsmall d hd
        · right
          exact ⟨curr :: X, c, Y, rfl, hc, hfind⟩

/-- The insertion walk along a chain stops at the first block not below `block`. -/
theorem findSpot_spec (s : Kmm) (block : ℕ) : ∀ (X : List ℕ) (fuel prev : ℕ) {Y : List ℕ} {curr : ℕ},
    Chain s.nextPtr (toPtr curr) (X ++ Y) → X.length < fuel →
    (∀ x ∈ X, x < block) → (∀ y ∈ Y, block ≤ y) →
    s.findSpot block fuel prev curr = some (ofPtr (lastOr (some prev) X), ofPtr Y.head?)
  | [], fuel, prev, Y, curr, hchain, hfuel, _, hY => by
      obtain ⟨fuel, rfl⟩ := Nat.exists_eq_succ_of_ne_zero (Nat.ne_of_gt hfuel)
      cases Y with
      | nil =>
        have hcurr : curr = 0 := toPtr_eq_none.mp hchain
        simp [findSpot, hcurr]
      | cons y Y =>
        obtain ⟨rfl, hne⟩ := toPtr_eq_some.mp hchain.1
        have hge := hY curr List.mem_cons_self
        simp [findSpot, hge]
  | x :: X, fuel, prev, Y, curr, ⟨hx, hchain⟩, hfuel, hX, hY => by
      obtain ⟨fuel, rfl⟩ := Nat.exists_eq_succ_of_ne_zero (Nat.ne_of_gt (Nat.zero_lt_of_lt hfuel))
      obtain ⟨rfl, hne⟩ := toPtr_eq_some.mp hx
      have hlt : curr < block := hX curr List.mem_cons_self
      have hlen : X.length < fuel := by
        simp only [List.length_cons] at hfuel
        omega
      have hrec := findSpot_spec s block X fuel curr hchain hlen
        (fun x hx => hX x (List.mem_cons_of_mem _ hx)) hY
      simpa [findSpot, hne, hlt] using hrec

/-! ### What the updates do to the headers -/

theorem size_lt (s : Kmm) (b : ℕ) : s.size b < 2 ^ 64 := BitVec.isLt _

theorem next_lt (s : Kmm) (b : ℕ) : s.next b < 2 ^ 64 := BitVec.isLt _

@[simp] theorem setMagic_freeList (s : Kmm) (b : ℕ) : (s.setMagic b).freeList = s.freeList := rfl
@[simp] theorem setSize_freeList (s : Kmm) (b v : ℕ) : (s.setSize b v).freeList = s.freeList := rfl
@[simp] theorem setNext_freeList (s : Kmm) (b v : ℕ) : (s.setNext b v).freeList = s.freeList := rfl

/-- The heap bounds. -/
def bounds (s : Kmm) : ℕ × ℕ := (s.heapLow, s.heapHigh)

@[simp] theorem setMagic_bounds (s : Kmm) (b : ℕ) : (s.setMagic b).bounds = s.bounds := rfl
@[simp] theorem setSize_bounds (s : Kmm) (b v : ℕ) : (s.setSize b v).bounds = s.bounds := rfl
@[simp] theorem setNext_bounds (s : Kmm) (b v : ℕ) : (s.setNext b v).bounds = s.bounds := rfl

@[simp] theorem setLink_bounds (s : Kmm) (prev t : ℕ) : (s.setLink prev t).bounds = s.bounds := by
  unfold setLink
  split_ifs
  · rfl
  · rfl

theorem setLink_freeList (s : Kmm) (prev t : ℕ) :
    (s.setLink prev t).freeList = if prev = 0 then t else s.freeList := by
  unfold setLink
  split_ifs
  · rfl
  · rfl

/-- Linking only changes the `next` field of the predecessor. -/
theorem setLink_header (h : prev = 0 ∨ a = prev ∨ Apart a prev) :
    (s.setLink prev t).header a =
      if prev ≠ 0 ∧ a = prev then { s.header a with next := t % 2 ^ 64 } else s.header a := by
  unfold setLink
  by_cases hp : prev = 0
  · simp [hp]
  · rcases h.resolve_left hp with rfl | hapart
    · simp [hp]
    · have hne : a ≠ prev := by
        rintro rfl
        have := hapart.2.2
        omega
      simp [hp, hne, header_setNext_apart hapart]

/-- The headers after a split. -/
theorem splitBlock_header (hcurr : curr % 8 = 0) (hn : n % 8 = 0) (hmin : 24 ≤ n)
    (hlt : curr + n < 2 ^ 64)
    (hprev : prev = 0 ∨ (Apart prev curr ∧ Apart prev (curr + n))) :
    ((s.splitBlock n prev curr).setMagic curr).header curr = ⟨kmmMagic, n, curr + n⟩ ∧
    ((s.splitBlock n prev curr).setMagic curr).header (curr + n) =
      ⟨kmmMagic, s.size curr - n, s.next curr⟩ ∧
    ∀ a, Apart a curr → Apart a (curr + n) → (prev = 0 ∨ a = prev ∨ Apart a prev) →
      ((s.splitBlock n prev curr).setMagic curr).header a =
        if prev ≠ 0 ∧ a = prev then { s.header a with next := curr + n } else s.header a := by
  have hapart : Apart (curr + n) curr := ⟨by omega, hcurr, by omega⟩
  have hmod : (curr + n) % 2 ^ 64 = curr + n := Nat.mod_eq_of_lt hlt
  have hnmod : n % 2 ^ 64 = n := Nat.mod_eq_of_lt (by omega)
  have hrem : (s.size curr - n) % 2 ^ 64 = s.size curr - n :=
    Nat.mod_eq_of_lt (by have := s.size_lt curr; omega)
  have hnext : s.next curr % 2 ^ 64 = s.next curr := Nat.mod_eq_of_lt (s.next_lt curr)
  have hcn : curr ≠ prev ∨ prev = 0 := by
    rcases hprev with h | h
    · exact Or.inr h
    · left
      rintro rfl
      have := h.1.2.2
      omega
  have hfn : curr + n ≠ prev ∨ prev = 0 := by
    rcases hprev with h | h
    · exact Or.inr h
    · left
      rintro rfl
      have := h.2.2.2
      omega
  simp only [splitBlock, hmod]
  refine ⟨?_, ?_, ?_⟩
  · rw [header_setMagic_self, setLink_header (hprev.imp id fun h => Or.inr h.1.symm),
      if_neg (by tauto), header_setNext_self, header_setNext_apart hapart.symm,
      header_setSize_apart hapart.symm, header_setMagic_apart hapart.symm, header_setSize_self]
    simp only [hnmod, hmod]
  · rw [header_setMagic_apart hapart, setLink_header (hprev.imp id fun h => Or.inr h.2.symm),
      if_neg (by tauto), header_setNext_apart hapart, header_setNext_self, header_setSize_self,
      header_setMagic_self, next_eq_header, header_setSize_apart hapart.symm,
      header_setMagic_apart hapart.symm, header_setSize_self]
    simp only [hrem, ← next_eq_header, hnext]
  · intro a hac han hap
    rw [header_setMagic_apart hac, setLink_header hap, header_setNext_apart hac,
      header_setNext_apart han, header_setSize_apart han, header_setMagic_apart han,
      header_setSize_apart hac, hmod]

/-! ### The tiling a heap stores -/

/-- A heap block: free, or live with the size requested for it. -/
abbrev Block := Cell (Option ℕ)

/-- The starts of the free blocks, in order. -/
def freeStarts (L : List Block) : List ℕ := (L.filter fun c => c.tag.isNone).map Cell.start

@[simp] theorem freeStarts_nil : freeStarts [] = [] := rfl

@[simp] theorem freeStarts_append (L M : List Block) :
    freeStarts (L ++ M) = freeStarts L ++ freeStarts M := by
  simp [freeStarts]

theorem freeStarts_cons_free {c : Block} (h : c.tag = none) (L : List Block) :
    freeStarts (c :: L) = c.start :: freeStarts L := by
  simp [freeStarts, h]

theorem freeStarts_cons_live {c : Block} {m : ℕ} (h : c.tag = some m) (L : List Block) :
    freeStarts (c :: L) = freeStarts L := by
  simp [freeStarts, h]

theorem mem_freeStarts {L : List Block} :
    a ∈ freeStarts L ↔ ∃ c ∈ L, c.tag = none ∧ c.start = a := by
  simp [freeStarts, and_assoc]

/-- The live blocks as the clients see them: payload pointer and size requested. -/
def liveBlocks (L : List Block) : List (ℕ × ℕ) :=
  L.filterMap fun c => c.tag.map fun m => (c.start + 24, m)

@[simp] theorem liveBlocks_nil : liveBlocks [] = [] := rfl

@[simp] theorem liveBlocks_append (L M : List Block) :
    liveBlocks (L ++ M) = liveBlocks L ++ liveBlocks M := by
  simp [liveBlocks]

theorem liveBlocks_cons_free {c : Block} (h : c.tag = none) (L : List Block) :
    liveBlocks (c :: L) = liveBlocks L := by
  simp [liveBlocks, h]

theorem liveBlocks_cons_live {c : Block} {m : ℕ} (h : c.tag = some m) (L : List Block) :
    liveBlocks (c :: L) = (c.start + 24, m) :: liveBlocks L := by
  simp [liveBlocks, h]

theorem mem_liveBlocks {L : List Block} {ptr m : ℕ} :
    (ptr, m) ∈ liveBlocks L ↔ ∃ c ∈ L, c.tag = some m ∧ c.start + 24 = ptr := by
  simp [liveBlocks, and_comm]

/-- The live blocks. -/
def liveCells (L : List Block) : List Block := L.filter fun c => c.tag.isSome

@[simp] theorem liveCells_nil : liveCells [] = [] := rfl

@[simp] theorem liveCells_append (L M : List Block) :
    liveCells (L ++ M) = liveCells L ++ liveCells M := by
  simp [liveCells]

theorem liveCells_cons_free {c : Block} (h : c.tag = none) (L : List Block) :
    liveCells (c :: L) = liveCells L := by
  simp [liveCells, h]

theorem liveCells_cons_live {c : Block} {m : ℕ} (h : c.tag = some m) (L : List Block) :
    liveCells (c :: L) = c :: liveCells L := by
  simp [liveCells, h]

theorem mem_liveCells {L : List Block} {c : Block} :
    c ∈ liveCells L ↔ c ∈ L ∧ ∃ m, c.tag = some m := by
  simp [liveCells, Option.isSome_iff_exists]

/-- What the clients see is what is live. -/
theorem liveBlocks_liveCells (L : List Block) : liveBlocks (liveCells L) = liveBlocks L := by
  induction L with
  | nil => rfl
  | cons c L ih =>
    cases htag : c.tag with
    | none => rw [liveCells_cons_free htag, liveBlocks_cons_free htag, ih]
    | some m =>
      rw [liveCells_cons_live htag, liveBlocks_cons_live htag, liveBlocks_cons_live htag, ih]

theorem liveBlocks_perm {L M : List Block} (h : (liveCells L).Perm (liveCells M)) :
    (liveBlocks L).Perm (liveBlocks M) := by
  rw [← liveBlocks_liveCells L, ← liveBlocks_liveCells M]
  exact h.filterMap _

/-- What every block satisfies by itself. -/
structure BlockOk (c : Block) : Prop where
  pos : 0 < c.start
  start_mod : c.start % 8 = 0
  size_mod : c.size % 8 = 0
  size_le : 24 ≤ c.size
  payload : ∀ m, c.tag = some m → m + 24 ≤ c.size

/-- The heap is tiled by `L` and every block of `L` has its header in memory. -/
structure Stored (s : Kmm) (L : List Block) : Prop where
  tiles : Tiles s.heapLow s.heapHigh L
  high : s.heapHigh < 2 ^ 64
  ok : ∀ c ∈ L, BlockOk c
  size : ∀ c ∈ L, s.size c.start = c.size
  magic : ∀ c ∈ L, s.magic c.start = kmmMagic

/-- Two neighbours are not both free. -/
def NotBothFree (c d : Block) : Prop := ¬ (c.tag = none ∧ d.tag = none)

/-- **The heap invariant.** -/
structure HeapInv (s : Kmm) (L : List Block) : Prop extends Stored s L where
  chain : Chain s.nextPtr (toPtr s.freeList) (freeStarts L)
  coalesced : L.IsChain NotBothFree

section Stored

variable {L A B seg mid : List Block} {c d : Block} {s' : Kmm} {lo hi : ℕ}

/-- Headers of distinct blocks do not overlap. -/
theorem Stored.apart (h : Stored s L) (hc : c ∈ L) (hd : d ∈ L) (hne : c ≠ d) :
    Apart c.start d.start := by
  have hok := h.ok c hc
  have hok' := h.ok d hd
  have hcs := hok.size_le
  have hds := hok'.size_le
  refine ⟨hok.start_mod, hok'.start_mod, ?_⟩
  rcases h.tiles.apart hc hd hne with hle | hle
  · simp only [Cell.stop] at hle
    omega
  · simp only [Cell.stop] at hle
    omega

theorem Stored.stop_lt (h : Stored s L) (hc : c ∈ L) : c.stop < 2 ^ 64 := by
  have := (h.tiles.bounds hc).2
  have := h.high
  omega

/-- **Editing a tiling**: a segment is replaced by another tiling of the same interval, whose
headers are in memory; the blocks around it keep size and magic. -/
theorem Stored.edit (h : Stored s (A ++ seg ++ B)) (hb : s'.bounds = s.bounds)
    (hseg : Tiles lo hi seg) (hmid : Tiles lo hi mid) (hne : seg ≠ [])
    (hok : ∀ c ∈ mid, BlockOk c)
    (hmem : ∀ c ∈ mid, s'.size c.start = c.size ∧ s'.magic c.start = kmmMagic)
    (hkeep : ∀ c, c ∈ A ∨ c ∈ B →
      s'.size c.start = s.size c.start ∧ s'.magic c.start = s.magic c.start) :
    Stored s' (A ++ mid ++ B) := by
  have hlow : s'.heapLow = s.heapLow := congrArg Prod.fst hb
  have hhigh : s'.heapHigh = s.heapHigh := congrArg Prod.snd hb
  have htiles : Tiles s'.heapLow s'.heapHigh (A ++ mid ++ B) := by
    rw [hlow, hhigh, List.append_assoc, tiles_append]
    obtain ⟨x, hA, hrest⟩ := tiles_append.mp (List.append_assoc A seg B ▸ h.tiles)
    obtain ⟨y, hsegxy, hB⟩ := tiles_append.mp hrest
    obtain ⟨rfl, rfl⟩ := hseg.unique hsegxy hne
    exact ⟨lo, hA, tiles_append.mpr ⟨hi, hmid, hB⟩⟩
  have hold : ∀ c, c ∈ A ∨ c ∈ B → c ∈ A ++ seg ++ B := by
    intro c hc
    rcases hc with hc | hc
    · simp [hc]
    · simp [hc]
  have hsplit : ∀ c ∈ A ++ mid ++ B, (c ∈ A ∨ c ∈ B) ∨ c ∈ mid := by
    intro c hc
    simp only [List.mem_append] at hc
    tauto
  refine ⟨htiles, hhigh ▸ h.high, ?_, ?_, ?_⟩
  · intro c hc
    rcases hsplit c hc with hc | hc
    · exact h.ok c (hold c hc)
    · exact hok c hc
  · intro c hc
    rcases hsplit c hc with hc | hc
    · rw [(hkeep c hc).1, h.size c (hold c hc)]
    · exact (hmem c hc).1
  · intro c hc
    rcases hsplit c hc with hc | hc
    · rw [(hkeep c hc).2, h.magic c (hold c hc)]
    · exact (hmem c hc).2

/-- The predecessor found by a walk past the free blocks of `A`: null if there is none, else the
last of them. -/
theorem lastFree_cases (A : List Block) :
    (freeStarts A = [] ∧ ofPtr (lastOr (some 0) (freeStarts A)) = 0) ∨
    ∃ X, ∃ d ∈ A, d.tag = none ∧ freeStarts A = X ++ [d.start] ∧
      ofPtr (lastOr (some 0) (freeStarts A)) = d.start := by
  rcases lastOr_cases (d := some 0) (freeStarts A) with ⟨hnil, hlast⟩ | ⟨X, a, hX, hlast⟩
  · left
    exact ⟨hnil, by rw [hlast]; rfl⟩
  · right
    obtain ⟨d, hd, htag, rfl⟩ := mem_freeStarts.mp (show a ∈ freeStarts A by rw [hX]; simp)
    exact ⟨X, d, hd, htag, hX, by rw [hlast]; rfl⟩

/-- Relinking the free list behind the free blocks of `A`. -/
theorem chain_relink {M N : List ℕ} (hpos : ∀ c ∈ A, 0 < c.start)
    (hchain : Chain s.nextPtr (toPtr s.freeList) (freeStarts A ++ M))
    (hprev : prev = ofPtr (lastOr (some 0) (freeStarts A)))
    (hkeep : ∀ a ∈ freeStarts A, a ≠ prev → s'.next a = s.next a)
    (hlast : prev ≠ 0 → s'.next prev = t)
    (hhead : s'.freeList = if prev = 0 then t else s.freeList)
    (hN : Chain s'.nextPtr (toPtr t) N) :
    Chain s'.nextPtr (toPtr s'.freeList) (freeStarts A ++ N) := by
  rcases lastFree_cases A with ⟨hnil, h0⟩ | ⟨X, d, hd, _, hX, hd'⟩
  · rw [hprev, h0, if_pos rfl] at hhead
    rw [hnil, hhead]
    exact hN
  · have hdpos := hpos d hd
    have hprev' : prev = d.start := hprev.trans hd'
    have hlastOr : lastOr none (freeStarts A) = some d.start := by
      rw [hX]
      exact lastOr_concat X none
    rw [if_neg (by omega)] at hhead
    refine Chain.relink hchain ?_ ?_ ?_ ?_ hN
    · intro a ha hne
      rw [hlastOr] at hne
      have hap : a ≠ prev := by
        rintro rfl
        exact hne (by rw [hprev'])
      rw [nextPtr, nextPtr, hkeep a ha hap]
    · intro a ha
      rw [hlastOr] at ha
      have had : d.start = a := Option.some.inj ha
      rw [nextPtr, ← had, ← hprev', hlast (by omega)]
    · intro hnil
      rw [hX] at hnil
      simp at hnil
    · intro _
      rw [hhead]

/-- The blocks around a segment are blocks of the heap outside the segment. -/
theorem Stored.around (h : Stored s (A ++ seg ++ B)) (hseg : Tiles lo hi seg) (hne : seg ≠ []) :
    (∀ d ∈ A, d ∈ A ++ seg ++ B ∧ d.stop ≤ lo) ∧ ∀ d ∈ B, d ∈ A ++ seg ++ B ∧ hi ≤ d.start := by
  obtain ⟨x, hA, hrest⟩ := tiles_append.mp (List.append_assoc A seg B ▸ h.tiles)
  obtain ⟨y, hsegxy, hB⟩ := tiles_append.mp hrest
  obtain ⟨rfl, rfl⟩ := hseg.unique hsegxy hne
  exact ⟨fun d hd => ⟨by simp [hd], (hA.bounds hd).2⟩, fun d hd => ⟨by simp [hd], (hB.bounds hd).1⟩⟩

/-- A header inside the interval of a segment is apart from the headers of the blocks around. -/
theorem Stored.apart_segment (h : Stored s (A ++ seg ++ B)) (hseg : Tiles lo hi seg)
    (hne : seg ≠ []) (hd : d ∈ A ∨ d ∈ B) (ha : a % 8 = 0) (hlo : lo ≤ a) (hhi : a + 24 ≤ hi) :
    Apart d.start a := by
  obtain ⟨hA, hB⟩ := h.around hseg hne
  rcases hd with hd | hd
  · obtain ⟨hmem, hle⟩ := hA d hd
    have hok := h.ok d hmem
    have hmin := hok.size_le
    simp only [Cell.stop] at hle
    exact ⟨hok.start_mod, ha, by omega⟩
  · obtain ⟨hmem, hle⟩ := hB d hd
    exact ⟨(h.ok d hmem).start_mod, ha, by omega⟩

/-- The predecessor of an edit point is null or the header of a block before it. -/
theorem Stored.prev_apart (h : Stored s (A ++ seg ++ B)) (hseg : Tiles lo hi seg)
    (hne : seg ≠ []) (hprev : prev = ofPtr (lastOr (some 0) (freeStarts A)))
    (ha : a % 8 = 0) (hlo : lo ≤ a) (hhi : a + 24 ≤ hi) : prev = 0 ∨ Apart prev a := by
  rcases lastFree_cases A with ⟨_, h0⟩ | ⟨_, e, he, _, _, he'⟩
  · exact Or.inl (hprev.trans h0)
  · right
    rw [hprev, he']
    exact h.apart_segment hseg hne (Or.inl he) ha hlo hhi

/-- The blocks around an edit point, seen from the predecessor. -/
theorem Stored.prev_near (h : Stored s (A ++ seg ++ B))
    (hprev : prev = ofPtr (lastOr (some 0) (freeStarts A))) (hd : d ∈ A ∨ d ∈ B) :
    prev = 0 ∨ d.start = prev ∨ Apart d.start prev := by
  rcases lastFree_cases A with ⟨_, h0⟩ | ⟨_, e, he, _, _, he'⟩
  · exact Or.inl (hprev.trans h0)
  · right
    rw [hprev, he']
    by_cases hde : d = e
    · exact Or.inl (by rw [hde])
    · have hdL : d ∈ A ++ seg ++ B := by
        rcases hd with hd | hd
        · simp [hd]
        · simp [hd]
      exact Or.inr (h.apart hdL (by simp [he]) hde)

/-- **Replacing a segment** of the heap and of its free list.  The new segment's headers are in
memory, the blocks around keep their headers except that the free block before the segment (or
the list head) now points to `t`, and from `t` the free blocks of the new segment lead to the
free blocks behind it. -/
theorem Stored.replace {M : List ℕ} {q : Option ℕ} (h : Stored s (A ++ seg ++ B))
    (hchain : Chain s.nextPtr (toPtr s.freeList) (freeStarts A ++ M))
    (hback : Chain s.nextPtr q (freeStarts B))
    (hprev : prev = ofPtr (lastOr (some 0) (freeStarts A)))
    (hb : s'.bounds = s.bounds) (hseg : Tiles lo hi seg) (hmid : Tiles lo hi mid)
    (hne : seg ≠ []) (hok : ∀ c ∈ mid, BlockOk c)
    (hmem : ∀ c ∈ mid, s'.size c.start = c.size ∧ s'.magic c.start = kmmMagic)
    (hother : ∀ d, d ∈ A ∨ d ∈ B → s'.header d.start =
      if prev ≠ 0 ∧ d.start = prev then { s.header d.start with next := t }
      else s.header d.start)
    (hhead : s'.freeList = if prev = 0 then t else s.freeList)
    (hlink : Chain s'.nextPtr q (freeStarts B) →
      Chain s'.nextPtr (toPtr t) (freeStarts mid ++ freeStarts B))
    (hco : (A ++ mid ++ B).IsChain NotBothFree) : HeapInv s' (A ++ mid ++ B) := by
  obtain ⟨hA, hB⟩ := h.around hseg hne
  have hlt := hseg.lt hne
  refine ⟨?_, ?_, hco⟩
  · refine h.edit hb hseg hmid hne hok hmem ?_
    intro d hd
    simp only [size_eq_header, magic_eq_header, hother d hd]
    split_ifs
    · exact ⟨rfl, rfl⟩
    · exact ⟨rfl, rfl⟩
  · simp only [freeStarts_append, List.append_assoc]
    refine chain_relink (fun d hd => (h.ok d (hA d hd).1).pos) hchain hprev ?_ ?_ hhead
      (hlink (hback.congr ?_))
    · intro a ha hap
      obtain ⟨d, hd, _, rfl⟩ := mem_freeStarts.mp ha
      rw [next_eq_header, hother d (Or.inl hd), if_neg (by tauto)]
      rfl
    · intro hp
      rcases lastFree_cases A with ⟨_, h0⟩ | ⟨_, e, he, _, _, he'⟩
      · exact absurd (hprev.trans h0) hp
      · have hpe : prev = e.start := hprev.trans he'
        rw [next_eq_header, hpe, hother e (Or.inl he), if_pos ⟨hp, hpe.symm⟩]
    · intro a ha
      obtain ⟨d, hd, _, rfl⟩ := mem_freeStarts.mp ha
      have hdp : ¬ (prev ≠ 0 ∧ d.start = prev) := by
        rintro ⟨hp, hdp⟩
        rcases lastFree_cases A with ⟨_, h0⟩ | ⟨_, e, he, _, _, he'⟩
        · exact hp (hprev.trans h0)
        · have h1 := (hA e he).2
          have h2 := (hB d hd).2
          simp only [Cell.stop] at h1
          omega
      rw [nextPtr, nextPtr, next_eq_header, hother d (Or.inr hd), if_neg hdp]
      rfl

end Stored

/-! ### Allocation -/

/-- What becomes of the free block `c` when `n` bytes of it are taken for a request of `m`. -/
def allocated (n m : ℕ) (c : Block) : List Block :=
  if minBlockSize ≤ c.size - n then [⟨c.start, n, some m⟩, ⟨c.start + n, c.size - n, none⟩]
  else [⟨c.start, c.size, some m⟩]

section Take

variable {A B : List Block} {c : Block} {m : ℕ}

theorem notBothFree_live {c d : Block} (h : c.tag = some m) : NotBothFree c d ∧ NotBothFree d c := by
  simp [NotBothFree, h]

/-- The neighbours of a free block are live. -/
theorem coalesced_around (hc : c.tag = none) (h : (A ++ c :: B).IsChain NotBothFree) :
    (∀ d ∈ B.head?, d.tag ≠ none) ∧ (∀ d ∈ A.getLast?, d.tag ≠ none) ∧
      A.IsChain NotBothFree ∧ B.IsChain NotBothFree := by
  rw [List.isChain_append, List.isChain_cons] at h
  obtain ⟨hA, ⟨hhead, hB⟩, hjoin⟩ := h
  refine ⟨?_, ?_, hA, hB⟩
  · intro d hd hnone
    exact hhead d hd ⟨hc, hnone⟩
  · intro d hd hnone
    exact hjoin d hd c rfl ⟨hnone, hc⟩

theorem takeBlock_whole (h : HeapInv s (A ++ c :: B)) (hfree : c.tag = none)
    (hfit : n ≤ c.size) (hreq : m + 24 ≤ n)
    (hprev : prev = ofPtr (lastOr (some 0) (freeStarts A))) :
    HeapInv ((s.setLink prev (s.next c.start)).setMagic c.start)
      (A ++ [⟨c.start, c.size, some m⟩] ++ B) := by
  have hst : Stored s (A ++ [c] ++ B) := by simpa using h.toStored
  have hcL : c ∈ A ++ c :: B := by simp
  have hok := h.ok c hcL
  have hpos := h.tiles.pos hcL
  have hseg : Tiles c.start c.stop [c] := ⟨rfl, hpos, rfl⟩
  have hin : c.start + 24 ≤ c.stop := by
    have := hok.size_le
    simp only [Cell.stop]
    omega
  have hpc := hst.prev_apart hseg (by simp) hprev hok.start_mod le_rfl hin
  have hchain := h.chain
  rw [freeStarts_append, freeStarts_cons_free hfree] at hchain
  have hself : ((s.setLink prev (s.next c.start)).setMagic c.start).header c.start =
      { s.header c.start with magic := kmmMagic } := by
    rw [header_setMagic_self, setLink_header (hpc.imp id fun h => Or.inr h.symm), if_neg]
    rintro ⟨hp, hcp⟩
    have := (hpc.resolve_left hp).2.2
    omega
  refine hst.replace (t := s.next c.start) hchain (q := toPtr (s.next c.start)) hchain.after hprev
    (by simp) hseg ⟨rfl, hpos, rfl⟩ (by simp) ?_ ?_ ?_ (setLink_freeList s prev _) ?_ ?_
  · simp only [List.mem_singleton, forall_eq]
    refine ⟨hok.pos, hok.start_mod, hok.size_mod, hok.size_le, ?_⟩
    intro m' hm'
    have : m = m' := Option.some.inj hm'
    simp only
    omega
  · simp only [List.mem_singleton, forall_eq, size_eq_header, magic_eq_header, hself]
    exact ⟨h.size c hcL, trivial⟩
  · intro d hd
    have hap := hst.apart_segment hseg (by simp) hd hok.start_mod le_rfl hin
    rw [header_setMagic_apart hap, setLink_header (hst.prev_near hprev hd),
      Nat.mod_eq_of_lt (s.next_lt _)]
  · intro hq
    rw [freeStarts_cons_live rfl]
    exact hq
  · obtain ⟨_, _, hA, hB⟩ := coalesced_around hfree h.coalesced
    rw [List.append_assoc, List.isChain_append, List.singleton_append, List.isChain_cons]
    refine ⟨hA, ⟨fun d _ => (notBothFree_live rfl).1, hB⟩, ?_⟩
    intro d _ e he
    obtain rfl : _ = e := Option.some.inj he
    exact (notBothFree_live rfl).2

theorem splitBlock_freeList (s : Kmm) (n prev curr : ℕ) :
    (s.splitBlock n prev curr).freeList =
      if prev = 0 then (curr + n) % 2 ^ 64 else s.freeList := by
  simp [splitBlock, setLink_freeList]

@[simp] theorem splitBlock_bounds (s : Kmm) (n prev curr : ℕ) :
    (s.splitBlock n prev curr).bounds = s.bounds := by
  simp [splitBlock]

theorem takeBlock_split (h : HeapInv s (A ++ c :: B)) (hfree : c.tag = none)
    (hn : n % 8 = 0) (hmin : 24 ≤ n) (hrem : 24 ≤ c.size - n) (hreq : m + 24 ≤ n)
    (hprev : prev = ofPtr (lastOr (some 0) (freeStarts A))) :
    HeapInv ((s.splitBlock n prev c.start).setMagic c.start)
      (A ++ [⟨c.start, n, some m⟩, ⟨c.start + n, c.size - n, none⟩] ++ B) := by
  have hst : Stored s (A ++ [c] ++ B) := by simpa using h.toStored
  have hcL : c ∈ A ++ c :: B := by simp
  have hok := h.ok c hcL
  have hpos := h.tiles.pos hcL
  have hsize := h.size c hcL
  have hstop := h.stop_lt hcL
  have hseg : Tiles c.start c.stop [c] := ⟨rfl, hpos, rfl⟩
  have hcmod := hok.start_mod
  have hsmod := hok.size_mod
  simp only [Cell.stop] at hstop hseg
  have hlt : c.start + n < 2 ^ 64 := by omega
  have hpc := hst.prev_apart hseg (by simp) hprev hcmod le_rfl (by omega)
  have hpn := hst.prev_apart hseg (by simp) hprev (a := c.start + n) (by omega) (by omega)
    (by omega)
  have hpair : prev = 0 ∨ (Apart prev c.start ∧ Apart prev (c.start + n)) := by
    by_cases hp : prev = 0
    · exact Or.inl hp
    · exact Or.inr ⟨hpc.resolve_left hp, hpn.resolve_left hp⟩
  obtain ⟨hself, hnew, hrest⟩ := splitBlock_header (s := s) hcmod hn hmin hlt hpair
  have hchain := h.chain
  rw [freeStarts_append, freeStarts_cons_free hfree] at hchain
  refine hst.replace (t := c.start + n) hchain (q := toPtr (s.next c.start)) hchain.after hprev
    (by simp) hseg ?_ (by simp) ?_ ?_ ?_ ?_ ?_ ?_
  · have hpos₁ : 0 < n := by omega
    have hpos₂ : 0 < c.size - n := by omega
    refine ⟨rfl, hpos₁, rfl, hpos₂, ?_⟩
    simp only [Cell.stop, tiles_nil]
    omega
  · simp only [List.mem_cons, List.not_mem_nil, or_false, forall_eq_or_imp, forall_eq]
    have hstart : 0 < c.start + n := by omega
    have hstart_mod : (c.start + n) % 8 = 0 := by omega
    have hrem_mod : (c.size - n) % 8 = 0 := by omega
    refine ⟨⟨hok.pos, hcmod, hn, hmin, ?_⟩, ⟨hstart, hstart_mod, hrem_mod, hrem, by simp⟩⟩
    intro m' hm'
    have : m = m' := Option.some.inj hm'
    simp only
    omega
  · simp only [List.mem_cons, List.not_mem_nil, or_false, forall_eq_or_imp, forall_eq,
      size_eq_header, magic_eq_header, hself, hnew, and_true, true_and]
    rw [← size_eq_header, hsize]
  · intro d hd
    exact hrest d.start (hst.apart_segment hseg (by simp) hd hcmod le_rfl (by omega))
      (hst.apart_segment hseg (by simp) hd (by omega) (by omega) (by omega))
      (hst.prev_near hprev hd)
  · rw [setMagic_freeList, splitBlock_freeList, Nat.mod_eq_of_lt hlt]
  · intro hq
    rw [freeStarts_cons_live rfl, freeStarts_cons_free rfl]
    refine ⟨by simp; omega, ?_⟩
    rw [nextPtr, next_eq_header, hnew]
    exact hq
  · obtain ⟨hhead, _, hA, hB⟩ := coalesced_around hfree h.coalesced
    rw [List.append_assoc, List.isChain_append, List.cons_append, List.isChain_cons,
      List.singleton_append, List.isChain_cons]
    refine ⟨hA, ⟨fun d _ => (notBothFree_live rfl).1, ?_, hB⟩, ?_⟩
    · intro d hd hboth
      exact hhead d hd hboth.2
    · intro d _ e he
      obtain rfl : _ = e := Option.some.inj he
      exact (notBothFree_live rfl).2

/-- **Allocation edits the tiling**: the free block found becomes a live block of the size
requested, with the remainder as a free block behind it if it was split. -/
theorem takeBlock_inv (h : HeapInv s (A ++ c :: B)) (hfree : c.tag = none)
    (hn : n % 8 = 0) (hmin : 24 ≤ n) (hfit : n ≤ c.size) (hreq : m + 24 ≤ n)
    (hprev : prev = ofPtr (lastOr (some 0) (freeStarts A))) :
    HeapInv (s.takeBlock n prev c.start) (A ++ allocated n m c ++ B) := by
  have hsize := h.size c (by simp)
  unfold takeBlock allocated
  rw [hsize]
  split_ifs with hsplit
  · have hrem : 24 ≤ c.size - n := le_trans (by norm_num [minBlockSize]) hsplit
    exact takeBlock_split h hfree hn hmin hrem hreq hprev
  · exact takeBlock_whole h hfree hfit hreq hprev

/-- A first-fit hit is a free block of the tiling, with its predecessor in the free list. -/
theorem exists_free_block {X Y : List ℕ} : ∀ {L : List Block}, freeStarts L = X ++ b :: Y →
    ∃ A c B, L = A ++ c :: B ∧ c.tag = none ∧ c.start = b ∧ freeStarts A = X
  | L, hL => by
      induction L generalizing X with
      | nil => simp at hL
      | cons d L ih =>
        cases htag : d.tag with
        | some m =>
          rw [freeStarts_cons_live htag] at hL
          obtain ⟨A, c, B, rfl, hc, hb, hA⟩ := ih hL
          exact ⟨d :: A, c, B, rfl, hc, hb, by rw [freeStarts_cons_live htag, hA]⟩
        | none =>
          rw [freeStarts_cons_free htag] at hL
          cases X with
          | nil =>
            obtain ⟨hd, _⟩ := List.cons.inj hL
            exact ⟨[], d, L, rfl, htag, hd, rfl⟩
          | cons x X =>
            obtain ⟨hd, hrest⟩ := List.cons.inj hL
            obtain ⟨A, c, B, rfl, hc, hb, hA⟩ := ih hrest
            exact ⟨d :: A, c, B, rfl, hc, hb, by rw [freeStarts_cons_free htag, hA, hd]⟩

end Take

/-! ### Freeing -/

section Free

variable {A B : List Block} {c d : Block} {m : ℕ}

/-- Joining with the next block only changes the header of `block`. -/
theorem joinNext_header_apart (h : Apart a block) :
    (s.joinNext block curr).header a = s.header a := by
  unfold joinNext
  split_ifs
  · rw [header_setNext_apart h, header_setSize_apart h]
  · exact header_setNext_apart h

@[simp] theorem joinNext_freeList (s : Kmm) (block curr : ℕ) :
    (s.joinNext block curr).freeList = s.freeList := by
  unfold joinNext
  split_ifs
  · rfl
  · rfl

@[simp] theorem joinNext_bounds (s : Kmm) (block curr : ℕ) :
    (s.joinNext block curr).bounds = s.bounds := by
  unfold joinNext
  split_ifs
  · rfl
  · rfl

/-- The state between the two joins of `kfree`: the block `c` is stored between `A` and `B`, its
link leads to the free blocks of `B`, and it only has to be linked behind the free blocks
of `A`. -/
structure Pending (s : Kmm) (A : List Block) (c : Block) (B : List Block) : Prop
    extends Stored s (A ++ [c] ++ B) where
  front : ∃ M, Chain s.nextPtr (toPtr s.freeList) (freeStarts A ++ M)
  back : Chain s.nextPtr (s.nextPtr c.start) (freeStarts B)
  coalescedA : A.IsChain NotBothFree
  coalescedB : B.IsChain NotBothFree
  headB : ∀ d ∈ B.head?, d.tag ≠ none

/-- The chain through the free blocks survives an update of a live block's header. -/
theorem chain_joinNext (curr : ℕ) (h : HeapInv s (A ++ c :: B)) (hc : c.tag = some m) :
    Chain (s.joinNext c.start curr).nextPtr (toPtr s.freeList) (freeStarts A ++ freeStarts B) := by
  have hchain := h.chain
  rw [freeStarts_append, freeStarts_cons_live hc] at hchain
  refine hchain.congr ?_
  intro a ha
  obtain ⟨d, hd, htag, rfl⟩ := mem_freeStarts.mp (freeStarts_append A B ▸ ha)
  have hne : d ≠ c := by
    rintro rfl
    simp [hc] at htag
  have hdL : d ∈ A ++ c :: B := by
    simp only [List.mem_append, List.mem_cons] at hd ⊢
    tauto
  rw [nextPtr, nextPtr, next_eq_header, joinNext_header_apart (h.apart hdL (by simp) hne)]
  rfl

theorem isChain_of_append {L M : List Block} (h : (L ++ M).IsChain NotBothFree) :
    L.IsChain NotBothFree ∧ M.IsChain NotBothFree := by
  rw [List.isChain_append] at h
  exact ⟨h.1, h.2.1⟩

/-- Joining with a free successor. -/
theorem joinNext_merge (h : HeapInv s (A ++ c :: d :: B)) (hc : c.tag = some m)
    (hd : d.tag = none) :
    Pending (s.joinNext c.start d.start) A ⟨c.start, c.size + d.size, some m⟩ B := by
  have hcL : c ∈ A ++ c :: d :: B := by simp
  have hdL : d ∈ A ++ c :: d :: B := by simp
  have hokc := h.ok c hcL
  have hokd := h.ok d hdL
  obtain ⟨_, hposc, hdB⟩ := h.tiles.split
  obtain ⟨hdstart, hposd, hB⟩ := hdB
  have hst : Stored s (A ++ [c, d] ++ B) := by simpa using h.toStored
  have hseg : Tiles c.start d.stop [c, d] := ⟨rfl, hposc, hdstart, hposd, rfl⟩
  have hstop := h.stop_lt hdL
  have hne : d ≠ c := by
    rintro rfl
    simp [hc] at hd
  have hap : Apart d.start c.start := h.apart hdL hcL hne
  simp only [Cell.stop] at hdstart hstop
  have hjoin : d.start ≠ 0 ∧ s.stop c.start = d.start := by
    have hmod : (c.start + c.size) % 2 ^ 64 = c.start + c.size := Nat.mod_eq_of_lt (by omega)
    have := hokd.pos
    rw [stop, h.size c hcL, hmod]
    exact ⟨by omega, hdstart.symm⟩
  have hself : (s.joinNext c.start d.start).header c.start =
      ⟨kmmMagic, c.size + d.size, s.next d.start⟩ := by
    simp only [joinNext, if_pos hjoin]
    rw [header_setNext_self, header_setSize_self, next_eq_header, header_setSize_apart hap,
      ← next_eq_header, Nat.mod_eq_of_lt (s.next_lt _), h.size c hcL, h.size d hdL,
      Nat.mod_eq_of_lt (show c.size + d.size < 2 ^ 64 by omega)]
    simp only [← magic_eq_header, h.magic c hcL]
  have hchain := chain_joinNext d.start h hc
  refine ⟨?_, ⟨freeStarts (d :: B), by rw [joinNext_freeList]; exact hchain⟩, ?_, ?_, ?_, ?_⟩
  · refine hst.edit (by simp) hseg ?_ (by simp) ?_ ?_ ?_
    · have hpos : 0 < c.size + d.size := by omega
      refine ⟨rfl, hpos, ?_⟩
      simp only [Cell.stop, tiles_nil]
      omega
    · simp only [List.mem_singleton, forall_eq]
      have hmod : (c.size + d.size) % 8 = 0 := by
        have := hokc.size_mod
        have := hokd.size_mod
        omega
      have hle : 24 ≤ c.size + d.size := by
        have := hokc.size_le
        omega
      refine ⟨hokc.pos, hokc.start_mod, hmod, hle, ?_⟩
      intro m' hm'
      have := hokc.payload m' (hc.trans hm')
      simp only
      omega
    · simp only [List.mem_singleton, forall_eq, size_eq_header, magic_eq_header, hself, and_self]
    · intro e he
      have hmin := hokc.size_le
      have hape := hst.apart_segment hseg (by simp) he hokc.start_mod le_rfl
        (by simp only [Cell.stop]; omega)
      simp only [size_eq_header, magic_eq_header, joinNext_header_apart hape, and_self]
  · rw [freeStarts_cons_free hd] at hchain
    have hafter := hchain.after
    have hnext : (s.joinNext c.start d.start).nextPtr d.start = toPtr (s.next d.start) := by
      rw [nextPtr, next_eq_header, joinNext_header_apart hap]
      rfl
    have hnextc : (s.joinNext c.start d.start).nextPtr c.start = toPtr (s.next d.start) := by
      rw [nextPtr, next_eq_header, hself]
    rw [hnext] at hafter
    simp only [hnextc]
    exact hafter
  · exact (isChain_of_append h.coalesced).1
  · exact (isChain_of_append (L := A ++ [c, d]) (by simpa using h.coalesced)).2
  · exact (coalesced_around (A := A ++ [c]) hd (by simpa using h.coalesced)).1

/-- Linking before the next free block when the neighbour is not free. -/
theorem joinNext_link (h : HeapInv s (A ++ c :: B)) (hc : c.tag = some m)
    (hB : ∀ d ∈ B.head?, d.tag ≠ none) :
    Pending (s.joinNext c.start (ofPtr (freeStarts B).head?)) A c B := by
  have hcL : c ∈ A ++ c :: B := by simp
  have hokc := h.ok c hcL
  have hst : Stored s (A ++ [c] ++ B) := by simpa using h.toStored
  obtain ⟨_, hposc, htB⟩ := h.tiles.split
  have hseg : Tiles c.start c.stop [c] := ⟨rfl, hposc, rfl⟩
  have hstop := h.stop_lt hcL
  simp only [Cell.stop] at hstop
  -- the next free block, if any, lies behind a live neighbour, so it is not adjacent
  have hfar : ∀ y, (freeStarts B).head? = some y → c.stop < y := by
    intro y hy
    cases B with
    | nil => simp at hy
    | cons d B =>
      obtain ⟨hd, hposd, htB'⟩ := htB
      cases htag : d.tag with
      | none => exact absurd htag (hB d rfl)
      | some m' =>
        rw [freeStarts_cons_live htag] at hy
        obtain ⟨e, he, _, rfl⟩ := mem_freeStarts.mp (List.mem_of_mem_head? hy)
        have := (htB'.bounds he).1
        simp only [Cell.stop] at this hd ⊢
        omega
  have hnot : ¬ (ofPtr (freeStarts B).head? ≠ 0 ∧
      s.stop c.start = ofPtr (freeStarts B).head?) := by
    rintro ⟨hne, heq⟩
    cases hhead : (freeStarts B).head? with
    | none => exact hne (by rw [hhead]; rfl)
    | some y =>
      have hy := hfar y hhead
      rw [hhead, ofPtr_some, stop, h.size c hcL, Nat.mod_eq_of_lt hstop] at heq
      simp only [Cell.stop] at hy
      omega
  have hlt : ofPtr (freeStarts B).head? < 2 ^ 64 := by
    cases hhead : (freeStarts B).head? with
    | none => simp
    | some y =>
      obtain ⟨e, he, _, rfl⟩ := mem_freeStarts.mp (List.mem_of_mem_head? hhead)
      have := h.stop_lt (c := e) (by simp [he])
      simp only [Cell.stop] at this
      simp only [ofPtr_some]
      omega
  have hself : (s.joinNext c.start (ofPtr (freeStarts B).head?)).header c.start =
      ⟨kmmMagic, c.size, ofPtr (freeStarts B).head?⟩ := by
    rw [joinNext, if_neg hnot, header_setNext_self, Nat.mod_eq_of_lt hlt]
    simp only [← magic_eq_header, ← size_eq_header, h.magic c hcL, h.size c hcL]
  have hchain := chain_joinNext (ofPtr (freeStarts B).head?) h hc
  refine ⟨?_, ⟨freeStarts B, by rw [joinNext_freeList]; exact hchain⟩, ?_, ?_, ?_, hB⟩
  · refine hst.edit (by simp) hseg hseg (by simp) ?_ ?_ ?_
    · simp only [List.mem_singleton, forall_eq]
      exact hokc
    · simp only [List.mem_singleton, forall_eq, size_eq_header, magic_eq_header, hself, and_self]
    · intro e he
      have hmin := hokc.size_le
      have hape := hst.apart_segment hseg (by simp) he hokc.start_mod le_rfl
        (by simp only [Cell.stop]; omega)
      simp only [size_eq_header, magic_eq_header, joinNext_header_apart hape, and_self]
  · have hnextc : (s.joinNext c.start (ofPtr (freeStarts B).head?)).nextPtr c.start =
        (freeStarts B).head? := by
      rw [nextPtr, next_eq_header, hself]
      cases hhead : (freeStarts B).head? with
      | none => simp
      | some y =>
        have hy := hfar y hhead
        simp
        omega
    rw [hnextc]
    obtain ⟨q, hq⟩ := hchain.drop
    cases hB' : freeStarts B with
    | nil => simp
    | cons y Y =>
      rw [hB'] at hq
      exact ⟨rfl, hq.2⟩
  · exact (isChain_of_append h.coalesced).1
  · exact (isChain_of_append (L := A ++ [c]) (by simpa using h.coalesced)).2

/-- The link that leads to a node of the free list. -/
theorem chain_link_at {M : List ℕ} (hpos : ∀ c ∈ A, 0 < c.start)
    (h : Chain s.nextPtr (toPtr s.freeList) (freeStarts A ++ b :: M))
    (hprev : prev = ofPtr (lastOr (some 0) (freeStarts A))) :
    if prev = 0 then s.freeList = b else s.next prev = b := by
  rcases lastFree_cases A with ⟨hnil, h0⟩ | ⟨X, d, hd, _, hX, hd'⟩
  · rw [hnil, List.nil_append] at h
    rw [hprev, h0, if_pos rfl]
    exact (toPtr_eq_some.mp h.1).1
  · have := hpos d hd
    rw [hprev, hd', if_neg (by omega)]
    rw [hX, List.append_assoc, List.singleton_append] at h
    exact (toPtr_eq_some.mp h.after.1).1

/-- Joining with a free predecessor. -/
theorem joinPrev_merge {e : Block} (h : Pending s (A ++ [e]) c B) (he : e.tag = none) :
    HeapInv (s.joinPrev e.start c.start)
      (A ++ [⟨e.start, e.size + c.size, none⟩] ++ B) := by
  have hst : Stored s (A ++ [e, c] ++ B) := by simpa using h.toStored
  have heL : e ∈ A ++ [e, c] ++ B := by simp
  have hcL : c ∈ A ++ [e, c] ++ B := by simp
  have hoke := hst.ok e heL
  have hokc := hst.ok c hcL
  obtain ⟨_, hpose, hrest⟩ := (show Tiles _ _ (A ++ e :: ([c] ++ B)) by
    simpa using hst.tiles).split
  obtain ⟨hcstart, hposc, htB⟩ := hrest
  have hseg : Tiles e.start c.stop [e, c] := ⟨rfl, hpose, hcstart, hposc, rfl⟩
  have hstop := hst.stop_lt hcL
  simp only [Cell.stop] at hcstart hstop
  have hne : c ≠ e := by
    rintro rfl
    omega
  have hap : Apart c.start e.start := hst.apart hcL heL hne
  have hjoin : e.start ≠ 0 ∧ s.stop e.start = c.start := by
    have := hoke.pos
    rw [stop, hst.size e heL, Nat.mod_eq_of_lt (by omega)]
    exact ⟨by omega, hcstart.symm⟩
  have hself : (s.joinPrev e.start c.start).header e.start =
      ⟨kmmMagic, e.size + c.size, s.next c.start⟩ := by
    simp only [joinPrev, if_pos hjoin]
    rw [header_setNext_self, header_setSize_self, next_eq_header, header_setSize_apart hap,
      ← next_eq_header, Nat.mod_eq_of_lt (s.next_lt _), hst.size c hcL, hst.size e heL,
      Nat.mod_eq_of_lt (show e.size + c.size < 2 ^ 64 by omega)]
    simp only [← magic_eq_header, hst.magic e heL]
  have hother : ∀ a, Apart a e.start → (s.joinPrev e.start c.start).header a = s.header a := by
    intro a ha
    simp only [joinPrev, if_pos hjoin]
    rw [header_setNext_apart ha, header_setSize_apart ha]
  have hlist : (s.joinPrev e.start c.start).freeList = s.freeList := by
    simp only [joinPrev, if_pos hjoin]
    rfl
  have hbounds : (s.joinPrev e.start c.start).bounds = s.bounds := by
    simp only [joinPrev, if_pos hjoin]
    rfl
  obtain ⟨M, hfront⟩ := h.front
  have hfront' : Chain s.nextPtr (toPtr s.freeList) (freeStarts A ++ e.start :: M) := by
    rw [freeStarts_append, freeStarts_cons_free he, freeStarts_nil] at hfront
    simpa using hfront
  have hposA : ∀ d ∈ A, 0 < d.start := fun d hd => (hst.ok d (by simp [hd])).pos
  have hlinkAt := chain_link_at hposA hfront' rfl
  have hmin := hoke.size_le
  refine hst.replace (t := e.start) hfront' h.back rfl hbounds hseg ?_ (by simp) ?_ ?_ ?_ ?_ ?_ ?_
  · have hpos : 0 < e.size + c.size := by omega
    refine ⟨rfl, hpos, ?_⟩
    simp only [Cell.stop, tiles_nil]
    omega
  · simp only [List.mem_singleton, forall_eq]
    have hmod : (e.size + c.size) % 8 = 0 := by
      have := hokc.size_mod
      have := hoke.size_mod
      omega
    have hle : 24 ≤ e.size + c.size := by omega
    exact ⟨hoke.pos, hoke.start_mod, hmod, hle, by simp⟩
  · simp only [List.mem_singleton, forall_eq, size_eq_header, magic_eq_header, hself, and_self]
  · intro d hd
    have hapd := hst.apart_segment hseg (by simp) hd hoke.start_mod le_rfl
      (by simp only [Cell.stop]; omega)
    rw [hother _ hapd]
    split_ifs with hp
    · rw [if_neg hp.1, ← hp.2] at hlinkAt
      rw [← hlinkAt]
      rfl
    · rfl
  · rw [hlist]
    split_ifs with hp
    · rw [if_pos hp] at hlinkAt
      exact hlinkAt
    · rfl
  · intro hq
    rw [freeStarts_cons_free rfl]
    refine ⟨by simp; have := hoke.pos; omega, ?_⟩
    rw [nextPtr, next_eq_header, hself]
    exact hq
  · obtain ⟨_, hlast, hA, _⟩ := coalesced_around (B := []) he h.coalescedA
    rw [List.append_assoc, List.isChain_append, List.singleton_append, List.isChain_cons]
    refine ⟨hA, ⟨fun d hd hboth => h.headB d hd hboth.2, h.coalescedB⟩, ?_⟩
    intro d hd _ _ hboth
    exact hlast d hd hboth.1

/-- Linking behind the previous free block when the neighbour is not free. -/
theorem joinPrev_link (h : Pending s A c B) (hA : ∀ d ∈ A.getLast?, d.tag ≠ none)
    (hprev : prev = ofPtr (lastOr (some 0) (freeStarts A))) :
    HeapInv (s.joinPrev prev c.start) (A ++ [⟨c.start, c.size, none⟩] ++ B) := by
  have hst := h.toStored
  have hcL : c ∈ A ++ [c] ++ B := by simp
  have hokc := hst.ok c hcL
  obtain ⟨htA, hposc, _⟩ := (show Tiles _ _ (A ++ c :: B) by simpa using hst.tiles).split
  have hseg : Tiles c.start c.stop [c] := ⟨rfl, hposc, rfl⟩
  have hmin := hokc.size_le
  have hpc := hst.prev_apart hseg (by simp) hprev hokc.start_mod le_rfl
    (by simp only [Cell.stop]; omega)
  have hnot : ¬ (prev ≠ 0 ∧ s.stop prev = c.start) := by
    rintro ⟨hp, heq⟩
    rcases lastFree_cases A with ⟨_, h0⟩ | ⟨_, e, he, htag, _, he'⟩
    · exact hp (hprev.trans h0)
    · rcases List.eq_nil_or_concat A with rfl | ⟨A', l, rfl⟩
      · simp at he
      · rw [List.concat_eq_append] at he htA hA
        have hl : l.tag ≠ none := hA l (by simp)
        obtain ⟨htA', hposl, hlstop⟩ := (show Tiles _ _ (A' ++ l :: []) from htA).split
        have heA' : e ∈ A' := by
          rcases List.mem_append.mp he with he | he
          · exact he
          · rw [List.mem_singleton] at he
            rw [he] at htag
            exact absurd htag hl
        have hbound := (htA'.bounds heA').2
        have heL : e ∈ A'.concat l ++ [c] ++ B := by simp [heA']
        have hestop := hst.stop_lt heL
        simp only [Cell.stop] at hestop
        rw [hprev, he', stop, hst.size e heL, Nat.mod_eq_of_lt hestop] at heq
        simp only [Cell.stop, tiles_nil] at hbound hlstop
        omega
  have hlink : s.joinPrev prev c.start = s.setLink prev c.start := by
    rw [joinPrev, if_neg hnot]
  have hstop := hst.stop_lt hcL
  have hmod : c.start % 2 ^ 64 = c.start := by
    simp only [Cell.stop] at hstop
    exact Nat.mod_eq_of_lt (by omega)
  have hself : (s.setLink prev c.start).header c.start = s.header c.start := by
    rw [setLink_header (hpc.imp id fun h => Or.inr h.symm), if_neg]
    rintro ⟨hp, hcp⟩
    have := (hpc.resolve_left hp).2.2
    omega
  obtain ⟨M, hfront⟩ := h.front
  rw [hlink]
  refine hst.replace (t := c.start) hfront h.back hprev (by simp) hseg ⟨rfl, hposc, rfl⟩ (by simp)
    ?_ ?_ ?_ (setLink_freeList s prev c.start) ?_ ?_
  · simp only [List.mem_singleton, forall_eq]
    exact ⟨hokc.pos, hokc.start_mod, hokc.size_mod, hokc.size_le, by simp⟩
  · simp only [List.mem_singleton, forall_eq, size_eq_header, magic_eq_header, hself]
    exact ⟨hst.size c hcL, hst.magic c hcL⟩
  · intro d hd
    rw [setLink_header (hst.prev_near hprev hd), hmod]
  · intro hq
    rw [freeStarts_cons_free rfl]
    refine ⟨by simp; have := hokc.pos; omega, ?_⟩
    rw [nextPtr, next_eq_header, hself]
    exact hq
  · rw [List.append_assoc, List.isChain_append, List.singleton_append, List.isChain_cons]
    refine ⟨h.coalescedA, ⟨fun d hd hboth => h.headB d hd hboth.2, h.coalescedB⟩, ?_⟩
    intro d hd _ _ hboth
    exact hA d hd hboth.1

/-- The second join, whatever the predecessor is. -/
theorem joinPrev_inv (h : Pending s A c B)
    (hprev : prev = ofPtr (lastOr (some 0) (freeStarts A))) :
    ∃ A' f, HeapInv (s.joinPrev prev c.start) (A' ++ [f] ++ B) ∧ f.tag = none ∧
      liveCells A' = liveCells A := by
  by_cases hlast : ∃ A' e, A = A' ++ [e] ∧ e.tag = none
  · obtain ⟨A', e, rfl, he⟩ := hlast
    have hpe : prev = e.start := by
      rw [hprev, freeStarts_append, freeStarts_cons_free he, freeStarts_nil, lastOr_concat]
      rfl
    rw [hpe]
    exact ⟨A', _, joinPrev_merge h he, rfl, by simp [liveCells_cons_free he]⟩
  · refine ⟨A, _, joinPrev_link h ?_ hprev, rfl, rfl⟩
    intro d hd hnone
    obtain ⟨A', hA'⟩ := List.getLast?_eq_some_iff.mp hd
    exact hlast ⟨A', d, hA', hnone⟩

/-- The first join, whatever the successor is. -/
theorem joinNext_inv (h : HeapInv s (A ++ c :: B)) (hc : c.tag = some m) :
    ∃ c' B', c'.start = c.start ∧
      Pending (s.joinNext c.start (ofPtr (freeStarts B).head?)) A c' B' ∧
      liveCells B' = liveCells B := by
  by_cases hhead : ∃ d B', B = d :: B' ∧ d.tag = none
  · obtain ⟨d, B', rfl, hd⟩ := hhead
    rw [freeStarts_cons_free hd]
    exact ⟨⟨c.start, c.size + d.size, some m⟩, B', rfl, joinNext_merge h hc hd,
      by rw [liveCells_cons_free hd]⟩
  · refine ⟨c, B, rfl, joinNext_link h hc ?_, rfl⟩
    intro d hd hnone
    cases B with
    | nil => simp at hd
    | cons e B' =>
      obtain rfl : e = d := Option.some.inj hd
      exact hhead ⟨e, B', rfl, hnone⟩

end Free

/-! ### The two calls -/

/-- The block size of a request, up to the sizes at which it wraps. -/
theorem needed_eq {m : ℕ} (h : m ≤ 2 ^ 64 - 32) : needed m = 24 + (m + 7) / 8 * 8 := by
  have hround : (m + 8 - 1) % 2 ^ 64 = m + 7 := Nat.mod_eq_of_lt (by omega)
  simp only [needed, headerSize, kmallocAlign, hround]
  exact Nat.mod_eq_of_lt (by omega)

theorem freeStarts_length_le (L : List Block) : (freeStarts L).length ≤ L.length := by
  simp only [freeStarts, List.length_map]
  exact List.length_filter_le _ _

theorem allocated_live {n m : ℕ} (c : Block) :
    liveBlocks (allocated n m c) = [(c.start + 24, m)] := by
  unfold allocated
  split_ifs
  · rw [liveBlocks_cons_live rfl, liveBlocks_cons_free rfl, liveBlocks_nil]
  · rw [liveBlocks_cons_live rfl, liveBlocks_nil]

theorem allocated_cells {n m : ℕ} (c : Block) :
    liveCells (allocated n m c) =
      [⟨c.start, if minBlockSize ≤ c.size - n then n else c.size, some m⟩] := by
  unfold allocated
  split_ifs
  · rw [liveCells_cons_live rfl, liveCells_cons_free rfl, liveCells_nil]
  · rw [liveCells_cons_live rfl, liveCells_nil]

/-- The walk of `kmalloc`: no free block has the size that is needed, or the first one that has is
taken. -/
theorem kmalloc_cases {L : List Block} {m : ℕ} (h : HeapInv s L) (hm0 : m ≠ 0)
    (hfuel : L.length < fuel) :
    (kmalloc fuel s m = some (s, 0) ∧ ∀ c ∈ L, c.tag = none → c.size < needed m) ∨
    ∃ A c B, L = A ++ c :: B ∧ c.tag = none ∧ needed m ≤ c.size ∧
      kmalloc fuel s m =
        some (s.takeBlock (needed m) (ofPtr (lastOr (some 0) (freeStarts A))) c.start,
          c.start + 24) := by
  have hlen := freeStarts_length_le L
  unfold kmalloc
  rw [if_neg hm0]
  rcases findFit_spec s (needed m) (freeStarts L) fuel 0 h.chain (by omega) with
    ⟨q, hq, hsmall⟩ | ⟨X, b, Y, hXY, hfit, hfind⟩
  · left
    rw [hq]
    refine ⟨rfl, fun c hc hfree => ?_⟩
    have hlt := hsmall c.start (mem_freeStarts.mpr ⟨c, hc, hfree, rfl⟩)
    rwa [h.size c hc] at hlt
  · right
    obtain ⟨A, c, B, rfl, hc, rfl, hA⟩ := exists_free_block hXY
    have hcL : c ∈ A ++ c :: B := by simp
    have hpos := (h.ok c hcL).pos
    have hstop := h.stop_lt hcL
    have hmin := (h.ok c hcL).size_le
    rw [h.size c hcL] at hfit
    have hptr : (c.start + headerSize) % 2 ^ 64 = c.start + 24 := by
      simp only [Cell.stop] at hstop
      exact Nat.mod_eq_of_lt (by simp only [headerSize]; omega)
    refine ⟨A, c, B, rfl, hc, hfit, ?_⟩
    rw [hfind, hA]
    simp only [hptr]
    rw [if_neg (by omega)]

/-- **`kmalloc` on the tiling**: nothing happens, or a free block is taken. -/
theorem kmalloc_tiling {L : List Block} {m : ℕ} (h : HeapInv s L) (hm : m ≤ 2 ^ 64 - 32)
    (hfuel : L.length < fuel) :
    kmalloc fuel s m = some (s, 0) ∨
    ∃ A c B s', L = A ++ c :: B ∧ c.tag = none ∧ kmalloc fuel s m = some (s', c.start + 24) ∧
      HeapInv s' (A ++ allocated (needed m) m c ++ B) := by
  by_cases hm0 : m = 0
  · left
    rw [kmalloc, if_pos hm0]
  · rcases kmalloc_cases h hm0 hfuel with ⟨hnull, -⟩ | ⟨A, c, B, rfl, hc, hfit, hsome⟩
    · exact Or.inl hnull
    · have hneed := needed_eq hm
      exact Or.inr ⟨A, c, B, _, rfl, hc, hsome,
        takeBlock_inv h hc (by omega) (by omega) hfit (by omega) rfl⟩

/-- **`kmalloc`** returns, and either changes nothing and returns null, or turns free space into
one live block whose payload has the size requested. -/
theorem kmalloc_inv {L : List Block} {m : ℕ} (h : HeapInv s L) (hm : m ≤ 2 ^ 63)
    (hfuel : L.length < fuel) :
    kmalloc fuel s m = some (s, 0) ∨
    ∃ s' ptr L', kmalloc fuel s m = some (s', ptr) ∧ ptr ≠ 0 ∧ HeapInv s' L' ∧
      (liveBlocks L').Perm ((ptr, m) :: liveBlocks L) := by
  rcases kmalloc_tiling h (show m ≤ 2 ^ 64 - 32 by omega) hfuel with hnull | ⟨A, c, B, s', rfl, hc, hsome, hinv⟩
  · exact Or.inl hnull
  · refine Or.inr ⟨s', c.start + 24, _, hsome, by omega, hinv, ?_⟩
    rw [liveBlocks_append, liveBlocks_append, allocated_live, liveBlocks_append,
      liveBlocks_cons_free hc]
    simp only [List.append_assoc, List.singleton_append]
    exact List.perm_middle

/-- The block of a live pointer. -/
theorem HeapInv.block_of_ptr {L : List Block} {c : Block} (h : HeapInv s L) (hc : c ∈ L) :
    (c.start + 24 + 2 ^ 64 - headerSize) % 2 ^ 64 = c.start := by
  have hmin := (h.ok c hc).size_le
  have hstop := h.stop_lt hc
  simp only [Cell.stop] at hstop
  rw [headerSize, Nat.add_right_comm, Nat.add_sub_cancel, Nat.add_mod_right]
  exact Nat.mod_eq_of_lt (by omega)

/-- The place of a live block in the free list. -/
theorem HeapInv.findSpot_live {A B : List Block} {c : Block} {m : ℕ} (h : HeapInv s (A ++ c :: B))
    (hc : c.tag = some m) (hfuel : (A ++ c :: B).length < fuel) :
    s.findSpot c.start fuel 0 s.freeList =
      some (ofPtr (lastOr (some 0) (freeStarts A)), ofPtr (freeStarts B).head?) := by
  obtain ⟨htA, hposc, htB⟩ := h.tiles.split
  have hchain := h.chain
  rw [freeStarts_append, freeStarts_cons_live hc] at hchain
  have hlen := freeStarts_length_le A
  refine findSpot_spec s c.start (freeStarts A) fuel 0 hchain ?_ ?_ ?_
  · simp only [List.length_append, List.length_cons] at hfuel
    omega
  · intro x hx
    obtain ⟨d, hd, _, rfl⟩ := mem_freeStarts.mp hx
    have := (htA.bounds hd).2
    have := (h.ok d (by simp [hd])).size_le
    simp only [Cell.stop] at *
    omega
  · intro y hy
    obtain ⟨d, hd, _, rfl⟩ := mem_freeStarts.mp hy
    have := (htB.bounds hd).1
    simp only [Cell.stop] at *
    omega

/-- **`kfree` on the tiling**: the block of a live pointer is no longer live. -/
theorem kfree_tiling {L : List Block} {c : Block} {m : ℕ} (h : HeapInv s L) (hcL : c ∈ L)
    (hc : c.tag = some m) (hfuel : L.length < fuel) :
    ∃ s' L', kfree fuel s (c.start + 24) = some s' ∧ HeapInv s' L' ∧
      (liveCells L).Perm (c :: liveCells L') := by
  have hpos := (h.ok c hcL).pos
  have hblock := h.block_of_ptr hcL
  obtain ⟨A, B, rfl⟩ := List.append_of_mem hcL
  have hspot := h.findSpot_live hc hfuel
  obtain ⟨c', B', hc', hpending, hlB⟩ := joinNext_inv h hc
  obtain ⟨A', f, hinv, hf, hlA⟩ := joinPrev_inv hpending rfl
  rw [hc'] at hinv
  refine ⟨_, _, ?_, hinv, ?_⟩
  · simp only [kfree, hblock, hspot]
    rw [if_neg (by omega), if_neg (by simp [h.magic c hcL])]
  · rw [liveCells_append, liveCells_cons_live hc, liveCells_append, liveCells_append,
      liveCells_cons_free hf, liveCells_nil, hlA, hlB, List.append_nil]
    exact List.perm_middle

/-- **`kfree`** of a live pointer returns, and the live blocks are those before without it. -/
theorem kfree_inv {L : List Block} {ptr m : ℕ} (h : HeapInv s L)
    (hlive : (ptr, m) ∈ liveBlocks L) (hfuel : L.length < fuel) :
    ∃ s' L', kfree fuel s ptr = some s' ∧ HeapInv s' L' ∧
      (liveBlocks L).Perm ((ptr, m) :: liveBlocks L') := by
  obtain ⟨c, hcL, hc, rfl⟩ := mem_liveBlocks.mp hlive
  obtain ⟨s', L', hfree, hinv, hperm⟩ := kfree_tiling h hcL hc hfuel
  refine ⟨s', L', hfree, hinv, ?_⟩
  rw [← liveBlocks_cons_live hc]
  refine liveBlocks_perm ?_
  rwa [liveCells_cons_live hc]

end Kmm

end Vibix
