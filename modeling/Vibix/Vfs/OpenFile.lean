import Mathlib.Logic.Relation
import Vibix.Lib.RefCount

/-! # The open file table

`vfs/open_file.rs`: the table of open file descriptions and the operations `oft_alloc`,
`oft_get`, `oft_incref` and `oft_decref`.

Besides the entries, the table of the model keeps a history that the kernel does not have: every
open file gets a serial number, `opened` is the list of all vnodes ever opened, and `closed` lists
the serial numbers of the files whose vnode's close operation was run.  `Consistent` says that the
counts of the table balance the references to it (in the sense of `RefCount.Balanced`), and that
the history is right: a file is in the table, or its close operation has run, and never twice.

What the kernel does to the table comes down to a few moves of references between the table, kernel
code and the descriptors of processes (`Move`), which keep this (`Moves.consistent`). -/

namespace Vibix.Vfs

open RefCount Relation

/-- A vnode: its address, its contents if it has any, and whether it has a close operation. -/
structure Vnode where
  addr : ℕ
  data : Option (List (BitVec 8))
  closes : Bool
deriving DecidableEq

/-- `OpenFile`.  Entries are made by `oft_alloc` only, so there always is a vnode. -/
structure OpenFile where
  vnode : Vnode
  offset : ℕ
  flags : ℕ
  mode : ℕ
  refcount : ℕ
  /-- The number of files opened before. -/
  serial : ℕ
deriving DecidableEq

/-- `OPEN_FILE_TABLE`, with its history. -/
structure OpenFileTable where
  entries : Fin 64 → Option OpenFile
  opened : List Vnode
  closed : List ℕ

/-- `OpenFileTable::new`. -/
def OpenFileTable.new : OpenFileTable := ⟨fun _ => none, [], []⟩

namespace OpenFileTable

variable (t : OpenFileTable)

/-- `oft_get`. -/
def get (i : ℕ) : Option OpenFile := if h : i < 64 then t.entries ⟨i, h⟩ else none

/-- Overwrite entry `i`. -/
def put (i : ℕ) (o : Option OpenFile) : OpenFileTable :=
  { t with entries := fun j => if j.val = i then o else t.entries j }

/-- `oft_alloc`: the first free entry, or none when the table is full (`ENFILE`). -/
def oftAlloc (vnode : Vnode) (flags mode : ℕ) : Option (OpenFileTable × ℕ) :=
  match (List.finRange 64).find? fun i => (t.entries i).isNone with
  | none => none
  | some i =>
    some ({ t.put i (some ⟨vnode, 0, flags, mode, 1, t.opened.length⟩) with
      opened := t.opened ++ [vnode] }, i)

/-- `oft_decref`: the last reference runs the close operation of the vnode and frees the entry. -/
def oftDecref (i : ℕ) : OpenFileTable :=
  match t.get i with
  | none => t
  | some file =>
    if file.refcount - 1 = 0 then
      { t.put i none with
        closed := if file.vnode.closes then t.closed ++ [file.serial] else t.closed }
    else t.put i (some { file with refcount := file.refcount - 1 })

/-- `oft_incref`: the count saturates. -/
def oftIncref (i : ℕ) : OpenFileTable :=
  match t.get i with
  | none => t
  | some file => t.put i (some { file with refcount := min (file.refcount + 1) (2 ^ 32 - 1) })

/-- The count of an entry. -/
def count (i : ℕ) : Option ℕ := (t.get i).map OpenFile.refcount

variable {t} {i j : ℕ} {o : Option OpenFile} {file : OpenFile}

theorem get_lt (h : t.get i = some file) : i < 64 := by
  unfold get at h
  split at h
  next hi => exact hi
  next => cases h

theorem get_put : (t.put i o).get j = if j = i ∧ i < 64 then o else t.get j := by
  unfold get put
  by_cases hj : j < 64
  · by_cases hji : j = i
    · subst hji
      simp [hj]
    · simp [hj, hji]
  · have hji : ¬ (j = i ∧ i < 64) := by omega
    simp [hj, hji]

theorem get_put_same (hi : i < 64) : (t.put i o).get i = o := by rw [get_put, if_pos ⟨rfl, hi⟩]

theorem get_put_ne (h : j ≠ i) : (t.put i o).get j = t.get j := by
  rw [get_put, if_neg fun hc => h hc.1]

/-- What `oft_alloc` does. -/
theorem oftAlloc_eq_some {vnode : Vnode} {flags mode : ℕ} {t' : OpenFileTable}
    (h : t.oftAlloc vnode flags mode = some (t', i)) :
    t.get i = none ∧ t'.get i = some ⟨vnode, 0, flags, mode, 1, t.opened.length⟩ ∧
      (∀ j, j ≠ i → t'.get j = t.get j) ∧ t'.opened = t.opened ++ [vnode] ∧
      t'.closed = t.closed := by
  unfold oftAlloc at h
  split at h
  next => cases h
  next k hk =>
    obtain ⟨rfl, rfl⟩ := Prod.mk.inj (Option.some.inj h)
    have hfree : (t.entries k).isNone = true := List.find?_some (p := fun i => (t.entries i).isNone) hk
    refine ⟨?_, ?_, fun j hj => get_put_ne hj, rfl, rfl⟩
    · simpa [get, k.isLt] using hfree
    · exact get_put_same k.isLt

/-! ### History -/

/-- The history of a table: every opened file is in it once or closed, and closed at most once. -/
structure History (t : OpenFileTable) : Prop where
  vnode : ∀ i file, t.get i = some file → t.opened[file.serial]? = some file.vnode
  inj : ∀ i j file file', t.get i = some file → t.get j = some file' →
    file.serial = file'.serial → i = j
  live : ∀ i file, t.get i = some file → file.serial ∉ t.closed
  nodup : t.closed.Nodup
  closed_lt : ∀ n ∈ t.closed, n < t.opened.length
  all : ∀ n v, t.opened[n]? = some v → v.closes = true →
    n ∈ t.closed ∨ ∃ i file, t.get i = some file ∧ file.serial = n

theorem History.new : OpenFileTable.new.History := by
  have hget : ∀ i, OpenFileTable.new.get i = none := by
    intro i
    simp [OpenFileTable.new, get]
  refine ⟨?_, ?_, ?_, List.nodup_nil, ?_, ?_⟩
  · intro i file h
    rw [hget] at h
    cases h
  · intro i j file file' h
    rw [hget] at h
    cases h
  · intro i file h
    rw [hget] at h
    cases h
  · intro n hn
    cases hn
  · intro n v h
    simp [OpenFileTable.new] at h

/-- The history does not see the counts. -/
theorem History.congr {t' : OpenFileTable} (h : t.History)
    (hget : ∀ i, (t'.get i).map (fun file => (file.serial, file.vnode)) =
      (t.get i).map fun file => (file.serial, file.vnode))
    (hopened : t'.opened = t.opened) (hclosed : t'.closed = t.closed) : t'.History := by
  have hback : ∀ i file', t'.get i = some file' →
      ∃ file, t.get i = some file ∧ file.serial = file'.serial ∧ file.vnode = file'.vnode := by
    intro i file' hf
    have hi := hget i
    rw [hf, Option.map_some, eq_comm, Option.map_eq_some_iff] at hi
    obtain ⟨file, hfile, heq⟩ := hi
    exact ⟨file, hfile, (Prod.mk.inj heq).1, (Prod.mk.inj heq).2⟩
  refine ⟨?_, ?_, ?_, by rw [hclosed]; exact h.nodup, ?_, ?_⟩
  · intro i file' hf
    obtain ⟨file, hfile, hs, hv⟩ := hback i file' hf
    rw [hopened, ← hs, ← hv]
    exact h.vnode i file hfile
  · intro i j f f' hf hf' hs
    obtain ⟨g, hg, hgs, -⟩ := hback i f hf
    obtain ⟨g', hg', hgs', -⟩ := hback j f' hf'
    exact h.inj i j g g' hg hg' (by rw [hgs, hgs', hs])
  · intro i file' hf
    obtain ⟨file, hfile, hs, -⟩ := hback i file' hf
    rw [hclosed, ← hs]
    exact h.live i file hfile
  · rw [hclosed, hopened]
    exact h.closed_lt
  · rw [hclosed, hopened]
    intro n v hn hv
    refine (h.all n v hn hv).imp id ?_
    rintro ⟨i, file, hfile, hs⟩
    have hi := hget i
    rw [hfile, Option.map_some, Option.map_eq_some_iff] at hi
    obtain ⟨file', hfile', heq⟩ := hi
    exact ⟨i, file', hfile', (Prod.mk.inj heq).1.trans hs⟩

theorem put_none (hi : t.get i = none) : t.put i none = t := by
  have hentries : (t.put i none).entries = t.entries := by
    funext j
    simp only [put]
    split
    next hj =>
      subst hj
      rw [get, dif_pos j.isLt] at hi
      exact hi.symm
    next => rfl
  cases t
  simpa [put] using hentries

/-- Counting up or down keeps the history. -/
theorem History.recount (h : t.History) (hi : t.get i = some file) (n : ℕ) :
    (t.put i (some { file with refcount := n })).History := by
  refine h.congr (fun j => ?_) rfl rfl
  by_cases hj : j = i
  · subst hj
    rw [get_put_same (get_lt hi), hi]
    rfl
  · rw [get_put_ne hj]

theorem History.alloc {vnode : Vnode} {flags mode : ℕ} {t' : OpenFileTable} (h : t.History)
    (halloc : t.oftAlloc vnode flags mode = some (t', i)) : t'.History := by
  obtain ⟨hfree, hnew, hother, hopened, hclosed⟩ := oftAlloc_eq_some halloc
  have hcases : ∀ j file', t'.get j = some file' →
      j = i ∧ file'.serial = t.opened.length ∧ file'.vnode = vnode ∨
        j ≠ i ∧ t.get j = some file' := by
    intro j file' hf
    by_cases hj : j = i
    · subst hj
      rw [hnew] at hf
      cases hf
      exact Or.inl ⟨rfl, rfl, rfl⟩
    · rw [hother j hj] at hf
      exact Or.inr ⟨hj, hf⟩
  have hlt : ∀ j file', t.get j = some file' → file'.serial < t.opened.length := by
    intro j file' hf
    exact (List.getElem?_eq_some_iff.mp (h.vnode j file' hf)).1
  refine ⟨?_, ?_, ?_, by rw [hclosed]; exact h.nodup, ?_, ?_⟩
  · intro j file' hf
    rw [hopened]
    rcases hcases j file' hf with ⟨-, hs, hv⟩ | ⟨-, hold⟩
    · rw [hs, hv]
      simp
    · rw [List.getElem?_append_left (hlt j file' hold)]
      exact h.vnode j file' hold
  · intro j k f f' hf hf' hs
    rcases hcases j f hf with ⟨rfl, hj, -⟩ | ⟨-, hold⟩
    · rcases hcases k f' hf' with ⟨rfl, -, -⟩ | ⟨-, hold'⟩
      · rfl
      · have := hlt k f' hold'
        omega
    · rcases hcases k f' hf' with ⟨rfl, hk, -⟩ | ⟨-, hold'⟩
      · have := hlt j f hold
        omega
      · exact h.inj j k f f' hold hold' hs
  · intro j file' hf hin
    rw [hclosed] at hin
    rcases hcases j file' hf with ⟨-, hs, -⟩ | ⟨-, hold⟩
    · have := h.closed_lt _ hin
      omega
    · exact h.live j file' hold hin
  · intro n hn
    rw [hclosed] at hn
    rw [hopened, List.length_append]
    have := h.closed_lt n hn
    omega
  · intro n v hn hv
    rw [hopened] at hn
    rw [hclosed]
    by_cases hlen : n < t.opened.length
    · rw [List.getElem?_append_left hlen] at hn
      refine (h.all n v hn hv).imp id ?_
      rintro ⟨j, file, hfile, hs⟩
      refine ⟨j, file, ?_, hs⟩
      rw [hother j, hfile]
      rintro rfl
      rw [hfree] at hfile
      cases hfile
    · have hle := (List.getElem?_eq_some_iff.mp hn).1
      rw [List.length_append, List.length_singleton] at hle
      exact Or.inr ⟨i, _, hnew, by simp only; omega⟩

/-- The entry is freed after its close operation, if it has one. -/
theorem History.free {closed : List ℕ} (h : t.History) (hi : t.get i = some file)
    (hclosed : closed = if file.vnode.closes then t.closed ++ [file.serial] else t.closed) :
    History { t.put i none with closed := closed } := by
  have hget : ∀ j, ({ t.put i none with closed := closed } : OpenFileTable).get j =
      if j = i ∧ i < 64 then none else t.get j := fun j => get_put
  have hsome : ∀ j file', ({ t.put i none with closed := closed } : OpenFileTable).get j =
      some file' → j ≠ i ∧ t.get j = some file' := by
    intro j file' hf
    rw [hget] at hf
    split_ifs at hf with hc
    exact ⟨fun hj => hc ⟨hj, get_lt hi⟩, hf⟩
  have hmem : ∀ n, n ∈ closed ↔ n ∈ t.closed ∨ file.vnode.closes = true ∧ n = file.serial := by
    intro n
    rw [hclosed]
    split_ifs with hc <;> simp [hc]
  refine ⟨?_, ?_, ?_, ?_, ?_, ?_⟩
  · intro j file' hf
    exact h.vnode j file' (hsome j file' hf).2
  · intro j k f f' hf hf' hs
    exact h.inj j k f f' (hsome j f hf).2 (hsome k f' hf').2 hs
  · intro j file' hf hin
    obtain ⟨hj, hold⟩ := hsome j file' hf
    rcases (hmem _).mp hin with hin | ⟨-, hs⟩
    · exact h.live j file' hold hin
    · exact hj (h.inj j i file' file hold hi hs)
  · change closed.Nodup
    rw [hclosed]
    split_ifs
    · refine List.nodup_append.mpr ⟨h.nodup, List.nodup_singleton _, ?_⟩
      intro n hn k hk
      rw [List.mem_singleton] at hk
      rintro rfl
      exact h.live i file hi (hk ▸ hn)
    · exact h.nodup
  · intro n hn
    rcases (hmem n).mp hn with hn | ⟨-, rfl⟩
    · exact h.closed_lt n hn
    · exact (List.getElem?_eq_some_iff.mp (h.vnode i file hi)).1
  · intro n v hn hv
    rcases h.all n v hn hv with hin | ⟨j, file', hfile', hs⟩
    · exact Or.inl ((hmem n).mpr (Or.inl hin))
    · by_cases hj : j = i
      · subst hj
        obtain rfl : file = file' := Option.some.inj (hi.symm.trans hfile')
        have hvn := h.vnode j file hi
        rw [hs] at hvn
        obtain rfl := Option.some.inj (hn.symm.trans hvn)
        exact Or.inl ((hmem n).mpr (Or.inr ⟨hv, hs.symm⟩))
      · refine Or.inr ⟨j, file', ?_, hs⟩
        rw [hget, if_neg fun hc => hj hc.1, hfile']

/-! ### References -/

/-- The descriptors of all processes: 64 slots of 16 descriptors. -/
abbrev Descriptors := Fin 64 → Fin 16 → Option ℕ

/-- The counts balance the descriptors and the references `pending` held by kernel code, and the
history is right. -/
structure Consistent (t : OpenFileTable) (refs : Descriptors) (pending : List ℕ) : Prop where
  balanced : Balanced t.count refs pending
  history : t.History

namespace Consistent

variable {refs refs' : Descriptors} {pending pending' L : List ℕ}

theorem count_eq (hi : t.get i = some file) : t.count i = some file.refcount := by
  rw [count, hi]
  rfl

/-- A referenced entry is there. -/
theorem get_of_pos (h : t.Consistent refs pending) (hpos : 0 < inRows refs i + pending.count i) :
    ∃ file, t.get i = some file ∧ file.refcount = inRows refs i + pending.count i := by
  have hsome := h.balanced.isSome_iff.mpr hpos
  rw [count, Option.isSome_map] at hsome
  obtain ⟨file, hfile⟩ := Option.isSome_iff_exists.mp hsome
  exact ⟨file, hfile, h.balanced.eq_of_some (count_eq hfile)⟩

theorem get_of_mem (h : t.Consistent refs pending) (hi : i ∈ pending) :
    ∃ file, t.get i = some file ∧ file.refcount = inRows refs i + pending.count i :=
  h.get_of_pos (Nat.add_pos_right _ (List.count_pos_iff.mpr hi))

theorem get_of_held (h : t.Consistent refs pending) {a : Fin 64} {b : Fin 16}
    (hi : refs a b = some i) :
    ∃ file, t.get i = some file ∧ file.refcount = inRows refs i + pending.count i :=
  h.get_of_pos (Nat.add_pos_left (inRows_pos_iff.mpr ⟨a, b, hi⟩) _)

/-- **`oft_alloc`** leaves the caller with the first reference. -/
theorem alloc {vnode : Vnode} {flags mode : ℕ} {t' : OpenFileTable}
    (h : t.Consistent refs pending) (halloc : t.oftAlloc vnode flags mode = some (t', i)) :
    t'.Consistent refs (i :: pending) := by
  obtain ⟨hfree, hnew, hother, -, -⟩ := oftAlloc_eq_some halloc
  refine ⟨h.balanced.create ?_ (count_eq hnew) fun j hj => ?_, h.history.alloc halloc⟩
  · rw [count, hfree]
    rfl
  · rw [count, count, hother j hj]

/-- **`oft_incref`** of an entry that is there. -/
theorem incref (h : t.Consistent refs pending) (hi : t.get i = some file)
    (hlen : pending.length ≤ 1024) : (t.oftIncref i).Consistent refs (i :: pending) := by
  have hcount := h.balanced.eq_of_some (count_eq hi)
  have hle : file.refcount ≤ 2048 := by
    have h₁ := inRows_le_card refs i
    have h₂ := List.count_le_length (a := i) (l := pending)
    simp only [Fintype.card_fin] at h₁
    omega
  have hmin : min (file.refcount + 1) (2 ^ 32 - 1) = file.refcount + 1 := by omega
  simp only [oftIncref, hi, hmin]
  refine ⟨h.balanced.acquire (count_eq hi) (count_eq (get_put_same (get_lt hi))) fun j hj => ?_,
    h.history.recount hi _⟩
  rw [count, count, get_put_ne hj]

/-- An entry may change in its offset, flags and mode. -/
theorem replace {file' : OpenFile} (h : t.Consistent refs pending) (hi : t.get i = some file)
    (hcount : file'.refcount = file.refcount) (hserial : file'.serial = file.serial)
    (hvnode : file'.vnode = file.vnode) : (t.put i (some file')).Consistent refs pending := by
  have hget : ∀ j, (t.put i (some file')).get j = if j = i then some file' else t.get j := by
    intro j
    rw [get_put]
    simp [get_lt hi]
  refine ⟨?_, h.history.congr (fun j => ?_) rfl rfl⟩
  · have hsame : (t.put i (some file')).count = t.count := by
      funext j
      rw [count, count, hget]
      split
      next hj =>
        subst hj
        rw [hi, Option.map_some, Option.map_some, hcount]
      next => rfl
    rw [hsame]
    exact h.balanced
  · rw [hget]
    split
    next hj =>
      subst hj
      rw [hi, Option.map_some, Option.map_some, hserial, hvnode]
    next => rfl

/-- **`oft_decref`** gives up a reference. -/
theorem decref (h : t.Consistent refs (i :: pending)) : (t.oftDecref i).Consistent refs pending := by
  obtain ⟨file, hi, -⟩ := h.get_of_mem List.mem_cons_self
  have hother : ∀ {o : Option OpenFile} (j : ℕ), j ≠ i → ((t.put i o).get j).map OpenFile.refcount =
      t.count j := by
    intro o j hj
    rw [count, get_put_ne hj]
  simp only [oftDecref, hi]
  split
  next hlast =>
    refine ⟨h.balanced.release (fun n hn => ?_) fun j hj => hother j hj, h.history.free hi rfl⟩
    have hn' : file.refcount = n + 1 := Option.some.inj ((count_eq hi).symm.trans hn)
    obtain rfl : n = 0 := by omega
    exact congrArg (Option.map OpenFile.refcount) (get_put_same (get_lt hi))
  next hmore =>
    refine ⟨h.balanced.release (fun n hn => ?_) fun j hj => hother j hj, h.history.recount hi _⟩
    have hn' : file.refcount = n + 1 := Option.some.inj ((count_eq hi).symm.trans hn)
    rw [count_eq (get_put_same (get_lt hi)), counted, if_neg (by omega), hn']
    rfl

/-- **References move between a row of descriptors and kernel code.** -/
theorem replaceRow (h : t.Consistent refs pending) (a : Fin 64) (row : Fin 16 → Option ℕ)
    (hrow : ∀ i, inRow row i + pending'.count i = inRow (refs a) i + pending.count i) :
    t.Consistent (Function.update refs a row) pending' :=
  ⟨h.balanced.replaceRow a row hrow, h.history⟩

end Consistent

/-! ### Moves -/

/-- The table, the descriptors of all processes, and the references held by kernel code. -/
abbrev References := OpenFileTable × Descriptors × List ℕ

/-- One move of references.  Only vnodes in `V` are opened. -/
inductive Move (V : Set Vnode) : References → References → Prop
  | alloc {t t' : OpenFileTable} {refs : Descriptors} {L : List ℕ} {v : Vnode} {flags mode i : ℕ}
      (vnode : v ∈ V) (new : t.oftAlloc v flags mode = some (t', i)) :
      Move V (t, refs, L) (t', refs, i :: L)
  | incref {t : OpenFileTable} {refs : Descriptors} {L : List ℕ} {a : Fin 64} {b : Fin 16} {i : ℕ}
      (held : refs a b = some i) (few : L.length ≤ 1024) :
      Move V (t, refs, L) (t.oftIncref i, refs, i :: L)
  | decref {t : OpenFileTable} {refs : Descriptors} {L : List ℕ} {i : ℕ} :
      Move V (t, refs, i :: L) (t.oftDecref i, refs, L)
  | row {t : OpenFileTable} {refs : Descriptors} {L L' : List ℕ} (a : Fin 64)
      (row : Fin 16 → Option ℕ)
      (same : ∀ i, inRow row i + L'.count i = inRow (refs a) i + L.count i) :
      Move V (t, refs, L) (t, Function.update refs a row, L')

/-- Any number of moves. -/
abbrev Moves (V : Set Vnode) : References → References → Prop := ReflTransGen (Move V)

section Moves

variable {V : Set Vnode} {t' : OpenFileTable} {refs refs' : Descriptors} {L L' P : List ℕ}

theorem Move.perm (h : L.Perm L') : Move V (t, refs, L) (t, refs, L') := by
  have hrow : Move V (t, refs, L) (t, Function.update refs 0 (refs 0), L') :=
    .row 0 (refs 0) fun i => congrArg (inRow (refs 0) i + ·) (h.symm.count_eq i)
  rwa [Function.update_eq_self] at hrow

/-- Several references are given up. -/
theorem Moves.decrefs (t : OpenFileTable) (L : List ℕ) :
    Moves V (t, refs, L ++ P) (L.foldl oftDecref t, refs, P) := by
  induction L generalizing t with
  | nil => exact .refl
  | cons i L ih => exact .head .decref (ih _)

/-- Another reference to each of several entries. -/
theorem Moves.increfs (t : OpenFileTable) (hL : ∀ i ∈ L, ∃ a b, refs a b = some i)
    (hlen : L.length + P.length ≤ 1024) :
    Moves V (t, refs, P) (L.foldl oftIncref t, refs, L.reverse ++ P) := by
  induction L generalizing t P with
  | nil => exact .refl
  | cons i L ih =>
    rw [List.length_cons] at hlen
    rw [List.forall_mem_cons] at hL
    obtain ⟨⟨a, b, hi⟩, hL⟩ := hL
    rw [List.reverse_cons, List.append_assoc, List.singleton_append]
    exact .head (.incref hi (by omega)) (ih _ hL (by rw [List.length_cons]; omega))

/-- **Moves keep the balance.** -/
theorem Moves.consistent {x y : References} (h : Moves V x y) (hc : x.1.Consistent x.2.1 x.2.2) :
    y.1.Consistent y.2.1 y.2.2 := by
  induction h with
  | refl => exact hc
  | tail _ hlast ih =>
    cases hlast with
    | alloc _ new => exact Consistent.alloc ih new
    | incref held few =>
      obtain ⟨file, hfile, -⟩ := ih.get_of_held held
      exact Consistent.incref ih hfile few
    | decref => exact Consistent.decref ih
    | row a row same => exact Consistent.replaceRow ih a row same

end Moves

end OpenFileTable

end Vibix.Vfs
