import Vibix.Elf.Format
import Vibix.Lib.Digits
import Vibix.Lib.IntervalSet

/-! # Scheduler evidence

`scheduler_evidence.rs` has its own parser for ELF images: `executable_intervals` collects the address
ranges of the executable segments in an array of at most 64 intervals, merging those that overlap or
touch.

* `insertInterval_spec`: one insertion keeps the array separated and adds exactly the new range;
* `executableIntervals_ok`: what is returned is exactly the union of the executable segments;
* `executableIntervals_of_validate`: on an image that the loader accepts the only possible error is
  that the array is full. -/

namespace Vibix.Elf

open HalfOpen

/-- `MAX_EXEC_INTERVALS`. -/
def maxExecIntervals : ℕ := 64

/-- `ExecInterval`. -/
abbrev ExecInterval := HalfOpen ℕ

/-- `EMPTY_INTERVAL`. -/
def emptyInterval : ExecInterval := ⟨0, 0⟩

/-- `IntervalError`. -/
inductive IntervalError where
  | malformed
  | capacity
deriving DecidableEq, Repr

/-- The array of intervals and the number of entries in use. -/
structure ExecIntervals where
  cells : ℕ → ExecInterval
  count : ℕ

/-- The checked read of `n` bytes. -/
def readChecked (n : ℕ) (data : Image) (off : ℕ) : Option ℕ :=
  match checkedAdd off n with
  | none => none
  | some stop => if stop ≤ data.length then some (readLe data off n) else none

/-- `read_u16`. -/
def readU16 : Image → ℕ → Option ℕ := readChecked 2
/-- `read_u32`. -/
def readU32 : Image → ℕ → Option ℕ := readChecked 4
/-- `read_u64`. -/
def readU64 : Image → ℕ → Option ℕ := readChecked 8

/-- `ok_or(IntervalError::Malformed)`. -/
def orMalformed {α : Type} : Option α → Except IntervalError α
  | some a => .ok a
  | none => .error .malformed

section

variable (cells : ℕ → ExecInterval)

/-- The loop that skips the intervals below `lo`, at most `n` of them from `first` on. -/
def skipBelow (lo : ℕ) : ℕ → ℕ → ℕ
  | 0, first => first
  | n + 1, first => if (cells first).hi < lo then skipBelow lo n (first + 1) else first

/-- The loop that merges the intervals from `last` on into `x`, at most `n` of them. -/
def mergeFrom : ℕ → ℕ → ExecInterval → ℕ × ExecInterval
  | 0, last, x => (last, x)
  | n + 1, last, x =>
    if (cells last).lo ≤ x.hi then mergeFrom n (last + 1) (x.hull (cells last)) else (last, x)

/-- The entries from `first` up to `count` are moved up by one. -/
def shiftUp (first count : ℕ) : ℕ → ExecInterval :=
  (List.range' first (count - first)).reverse.foldl
    (fun cells i => Function.update cells (i + 1) (cells i)) cells

/-- The entries from `last` up to `count` are moved down by `removed`. -/
def shiftDown (last count removed : ℕ) : ℕ → ExecInterval :=
  (List.range' last (count - last)).foldl
    (fun cells i => Function.update cells (i - removed) (cells i)) cells

end

/-- The insertion of one interval. -/
def insertInterval (t : ExecIntervals) (x : ExecInterval) : Except IntervalError ExecIntervals :=
  let first := skipBelow t.cells x.lo t.count 0
  let r := mergeFrom t.cells (t.count - first) first x
  if first = r.1 then
    if t.count = maxExecIntervals then .error .capacity
    else .ok ⟨Function.update (shiftUp t.cells first t.count) first r.2, t.count + 1⟩
  else
    let removed := r.1 - first - 1
    .ok ⟨shiftDown (Function.update t.cells first r.2) r.1 t.count removed, t.count - removed⟩

/-- One round of the loop over the program headers. -/
def addHeader (data : Image) (phoff phentsize : ℕ) (t : ExecIntervals) (index : ℕ) :
    Except IntervalError ExecIntervals := do
  let step ← orMalformed (checkedMul index phentsize)
  let offset ← orMalformed (checkedAdd phoff step)
  let pType ← orMalformed (readU32 data offset)
  let pFlags ← orMalformed ((checkedAdd offset 4).bind (readU32 data))
  if pType ≠ ptLoad ∨ pFlags &&& pfX = 0 then pure t
  else
    let vaddr ← orMalformed ((checkedAdd offset 16).bind (readU64 data))
    let memsz ← orMalformed ((checkedAdd offset 40).bind (readU64 data))
    let stop ← orMalformed (checkedAdd vaddr memsz)
    if memsz = 0 ∨ stop ≤ vaddr then pure t else insertInterval t ⟨vaddr, stop⟩

/-- `executable_intervals`. -/
def executableIntervals (data : Image) : Except IntervalError ExecIntervals :=
  if data.length < 64 ∨ data.take 4 ≠ elfMagic ∨ data[4]? ≠ some 2 then .error .malformed
  else do
    let phoff ← orMalformed (readU64 data 32)
    let phentsize ← orMalformed (readU16 data 54)
    let phnum ← orMalformed (readU16 data 56)
    if phentsize < 56 then .error .malformed
    else
      let t ← (List.range phnum).foldlM (addHeader data phoff phentsize) ⟨fun _ => emptyInterval, 0⟩
      if t.count = 0 then .error .malformed else pure t

/-! ### The loops of an insertion -/

section Loops

variable {cells : ℕ → ExecInterval} {lo n first last count removed k : ℕ} {x : ExecInterval}

theorem skipBelow_spec (cells : ℕ → ExecInterval) (lo n first : ℕ) :
    first ≤ skipBelow cells lo n first ∧ skipBelow cells lo n first ≤ first + n ∧
    (∀ i, first ≤ i → i < skipBelow cells lo n first → (cells i).hi < lo) ∧
    (skipBelow cells lo n first < first + n → lo ≤ (cells (skipBelow cells lo n first)).hi) := by
  induction n generalizing first with
  | zero => simp [skipBelow]; omega
  | succ n ih =>
    rw [skipBelow]
    split_ifs with hlt
    · obtain ⟨hle, hbound, hbelow, hstop⟩ := ih (first + 1)
      refine ⟨by omega, by omega, fun i hi hlt' => ?_, fun h => hstop (by omega)⟩
      rcases hi.eq_or_lt with rfl | hi
      · exact hlt
      · exact hbelow i hi hlt'
    · exact ⟨le_rfl, by omega, fun i h h' => absurd h (by omega), fun _ => not_lt.mp hlt⟩

/-- What the merging loop has collected: the union of `x` and the intervals it went over. -/
structure Merged (cells : ℕ → ExecInterval) (first : ℕ) (x : ExecInterval) (n : ℕ)
    (r : ℕ × ExecInterval) : Prop where
  le : first ≤ r.1
  bound : r.1 ≤ n
  nonempty : r.2.lo < r.2.hi
  lo_cases : r.2.lo = x.lo ∨ ∃ i, first ≤ i ∧ i < r.1 ∧ r.2.lo = (cells i).lo
  has : ∀ a, r.2.Has a ↔ x.Has a ∨ ∃ i, first ≤ i ∧ i < r.1 ∧ (cells i).Has a
  stop : r.1 < n → r.2.hi < (cells r.1).lo

/-- **The merging loop**, from an interval that reaches up to the first one it may go over. -/
theorem mergeFrom_merged (hcount : last + n = count) (hx : x.lo < x.hi)
    (hreach : ∀ i, last ≤ i → i < count → x.lo ≤ (cells i).hi) :
    Merged cells last x count (mergeFrom cells n last x) := by
  induction n generalizing last x with
  | zero =>
    refine ⟨le_rfl, by simp [mergeFrom]; omega, hx, .inl rfl, fun a => ?_, ?_⟩
    · refine ⟨.inl, ?_⟩
      rintro (ha | ⟨i, hi, hlt, -⟩)
      · exact ha
      · exact absurd hlt (not_lt.mpr hi)
    · simp only [mergeFrom]
      omega
  | succ n ih =>
    rw [mergeFrom]
    split_ifs with hle
    · have hhull : ∀ a, (x.hull (cells last)).Has a ↔ x.Has a ∨ (cells last).Has a :=
        fun a => has_hull (hreach last le_rfl (by omega)) hle
      have hlo : (x.hull (cells last)).lo ≤ x.lo := min_le_left _ _
      have hhi : x.hi ≤ (x.hull (cells last)).hi := le_max_left _ _
      have h := @ih (last + 1) (x.hull (cells last)) (by omega) (by omega)
        fun i hi hlt => hlo.trans (hreach i (by omega) hlt)
      have hstep := h.le
      refine ⟨by omega, h.bound, h.nonempty, ?_, fun a => ?_, h.stop⟩
      · rcases h.lo_cases with heq | ⟨i, hi, hlt, heq⟩
        · rcases min_choice x.lo (cells last).lo with hmin | hmin
          · exact .inl (heq.trans hmin)
          · exact .inr ⟨last, le_rfl, by omega, heq.trans hmin⟩
        · exact .inr ⟨i, by omega, hlt, heq⟩
      · rw [h.has a, hhull a]
        constructor
        · rintro ((ha | ha) | ⟨i, hi, hlt, ha⟩)
          · exact .inl ha
          · exact .inr ⟨last, le_rfl, by omega, ha⟩
          · exact .inr ⟨i, by omega, hlt, ha⟩
        · rintro (ha | ⟨i, hi, hlt, ha⟩)
          · exact .inl (.inl ha)
          · rcases hi.eq_or_lt with rfl | hi
            · exact .inl (.inr ha)
            · exact .inr ⟨i, hi, hlt, ha⟩
    · refine ⟨le_rfl, by omega, hx, .inl rfl, fun a => ⟨.inl, ?_⟩, fun _ => not_le.mp hle⟩
      rintro (ha | ⟨i, hi, hlt, -⟩)
      · exact ha
      · exact absurd hlt (not_lt.mpr hi)

theorem shiftUp_apply (hle : first ≤ count) :
    shiftUp cells first count k = if first < k ∧ k ≤ count then cells (k - 1) else cells k := by
  -- the entries are moved from the top; what is left are the first `d` of them
  suffices h : ∀ d (cells : ℕ → ExecInterval), ((List.range' first d).reverse.foldl
      (fun cells i => Function.update cells (i + 1) (cells i)) cells) k =
      if first < k ∧ k ≤ first + d then cells (k - 1) else cells k by
    rw [shiftUp, h, Nat.add_sub_cancel' hle]
  intro d
  induction d with
  | zero =>
    intro cells
    rw [if_neg (by omega)]
    rfl
  | succ d ih =>
    intro cells
    rw [List.range'_concat, List.reverse_append, List.reverse_singleton, List.singleton_append,
      List.foldl_cons, ih]
    simp only [Function.update_apply, Nat.one_mul]
    by_cases hk : k = first + d + 1
    · subst hk
      rw [if_neg (by omega), if_pos rfl, if_pos (by omega), Nat.add_sub_cancel]
    · by_cases hlt : first < k ∧ k ≤ first + d
      · rw [if_pos hlt, if_neg (by omega), if_pos (by omega)]
      · rw [if_neg hlt, if_neg hk, if_neg (by omega)]

theorem shiftDown_apply (hle : last ≤ count) (hremoved : removed ≤ last) :
    shiftDown cells last count removed k =
      if last - removed ≤ k ∧ k < count - removed then cells (k + removed) else cells k := by
  suffices h : ∀ d, ((List.range' last d).foldl
      (fun cells i => Function.update cells (i - removed) (cells i)) cells) k =
      if last - removed ≤ k ∧ k < last + d - removed then cells (k + removed) else cells k by
    rw [shiftDown, h, Nat.add_sub_cancel' hle]
  intro d
  induction d generalizing k with
  | zero =>
    rw [if_neg (by omega)]
    rfl
  | succ d ih =>
    rw [List.range'_concat, List.foldl_append, List.foldl_cons, List.foldl_nil,
      Function.update_apply, ih, ih, Nat.one_mul]
    by_cases hk : k = last + d - removed
    · rw [if_pos hk, if_neg (by omega), if_pos (by omega)]
      congr 1
      omega
    · rw [if_neg hk]
      by_cases hlt : last - removed ≤ k ∧ k < last + d - removed
      · rw [if_pos hlt, if_pos (by omega)]
      · rw [if_neg hlt, if_neg (by omega)]

end Loops

/-! ### One insertion -/

section Insert

variable {t t' : ExecIntervals} {x : ExecInterval} {e : IntervalError}

/-- A well-formed array: separated, within its size, and all bounds are 64-bit numbers. -/
structure ExecIntervals.WellFormed (t : ExecIntervals) : Prop where
  separated : Separated t.cells t.count
  count_le : t.count ≤ maxExecIntervals
  hi_lt : ∀ i < t.count, (t.cells i).hi < 2 ^ 64

/-- The result of an insertion as one replacement in the array. -/
theorem insertInterval_cases (hs : Separated t.cells t.count) (hx : x.lo < x.hi) :
    ∃ first r, Merged t.cells first x t.count r ∧ (∀ i < first, (t.cells i).hi < x.lo) ∧
      (insertInterval t x = .error .capacity ∧ t.count = maxExecIntervals ∨
        ∃ t', insertInterval t x = .ok t' ∧ (first = r.1 → t.count ≠ maxExecIntervals) ∧
          t'.count = t.count + 1 - (r.1 - first) ∧
          ∀ k < t'.count, t'.cells k = splice t.cells first r.1 r.2 k) := by
  obtain ⟨-, hbound, hbelow, hstop⟩ := skipBelow_spec t.cells x.lo t.count 0
  rw [Nat.zero_add] at hbound hstop
  unfold insertInterval
  dsimp only
  generalize skipBelow t.cells x.lo t.count 0 = first at *
  have hm : Merged t.cells first x t.count (mergeFrom t.cells (t.count - first) first x) := by
    refine mergeFrom_merged (by omega) hx fun i hi hlt => ?_
    exact (hstop (by omega)).trans (hs.hi_le hi hlt)
  generalize mergeFrom t.cells (t.count - first) first x = r at *
  have hle := hm.le
  have hr := hm.bound
  refine ⟨first, r, hm, fun i hi => hbelow i (Nat.zero_le i) hi, ?_⟩
  by_cases heq : first = r.1
  · rw [if_pos heq]
    by_cases hfull : t.count = maxExecIntervals
    · rw [if_pos hfull]
      exact .inl ⟨rfl, hfull⟩
    · rw [if_neg hfull]
      refine .inr ⟨_, rfl, fun _ => hfull, ?_, fun k hk => ?_⟩
      · dsimp only
        omega
      · dsimp only at hk ⊢
        rw [Function.update_apply, shiftUp_apply (by omega)]
        rcases lt_trichotomy k first with hlt | rfl | hlt
        · rw [splice_before hlt, if_neg (by omega), if_neg (by omega)]
        · rw [splice_at, if_pos rfl]
        · rw [splice_after hlt, if_neg (by omega), if_pos (by omega)]
          congr 1
          omega
  · rw [if_neg heq]
    refine .inr ⟨_, rfl, fun h => absurd h heq, ?_, fun k hk => ?_⟩
    · dsimp only
      omega
    · dsimp only at hk ⊢
      rw [shiftDown_apply hr (by omega), Function.update_apply, Function.update_apply]
      rcases lt_trichotomy k first with hlt | rfl | hlt
      · rw [splice_before hlt, if_neg (by omega), if_neg (by omega)]
      · rw [splice_at, if_neg (by omega), if_pos rfl]
      · rw [splice_after hlt, if_pos (by omega), if_neg (by omega)]
        congr 1
        omega

/-- **One insertion**: it adds the elements of `x`, or the array is full. -/
theorem insertInterval_spec (hw : t.WellFormed) (hx : x.lo < x.hi) (hhi : x.hi < 2 ^ 64) :
    (insertInterval t x = .error .capacity) ∨
      ∃ t', insertInterval t x = .ok t' ∧ t'.WellFormed ∧ 0 < t'.count ∧
        ∀ a, Covers t'.cells t'.count a ↔ x.Has a ∨ Covers t.cells t.count a := by
  obtain ⟨first, r, hm, hbelow, ⟨herr, -⟩ | ⟨t', hok, hfull, hcount, hcells⟩⟩ :=
    insertInterval_cases hw.separated hx
  · exact .inl herr
  have hle := hm.le
  have hr := hm.bound
  have hcovers : ∀ a, Covers t'.cells t'.count a ↔ x.Has a ∨ Covers t.cells t.count a := by
    intro a
    rw [covers_congr hcells, hcount, covers_splice hle hr, hm.has, or_assoc]
    refine or_congr_right ⟨?_, ?_⟩
    · rintro (⟨i, -, hi, ha⟩ | ⟨i, hi, -, ha⟩)
      · exact ⟨i, by omega, ha⟩
      · exact ⟨i, hi, ha⟩
    · rintro ⟨i, hi, ha⟩
      by_cases hin : first ≤ i ∧ i < r.1
      · exact .inl ⟨i, hin.1, hin.2, ha⟩
      · exact .inr ⟨i, hi, by omega, ha⟩
  have hsep : Separated t'.cells t'.count := by
    refine Separated.congr ?_ hcells
    rw [hcount]
    refine hw.separated.splice hle hr hm.nonempty (fun i hi => ?_) fun i hi hlt => ?_
    · rcases hm.lo_cases with heq | ⟨j, hj, hlt, heq⟩
      · rw [heq]
        exact hbelow i hi
      · rw [heq]
        exact hw.separated.apart i j (by omega) (by omega)
    · rcases hi.eq_or_lt with rfl | hi
      · exact hm.stop hlt
      · exact (hm.stop (by omega)).trans ((hw.separated.nonempty _ (by omega)).trans
          (hw.separated.apart _ i hi hlt))
  refine .inr ⟨t', hok, ⟨hsep, ?_, fun k hk => ?_⟩, by omega, hcovers⟩
  · have hmax := hw.count_le
    by_cases heq : first = r.1
    · have hne := hfull heq
      omega
    · omega
  · -- the last element of an entry is an element of `x` or of an entry before
    have hpos := hsep.nonempty k hk
    have hlast : Covers t'.cells t'.count ((t'.cells k).hi - 1) := ⟨k, hk, by simp only [Has]; omega⟩
    rcases (hcovers _).mp hlast with ha | ⟨i, hi, ha⟩
    · simp only [Has] at ha
      omega
    · have hlt := hw.hi_lt i hi
      simp only [Has] at ha
      omega

end Insert

/-! ### The loop over the program headers -/

section Headers

variable {α : Type} {data : Image} {phoff phentsize index : ℕ} {t t' : ExecIntervals}

@[simp] theorem orMalformed_eq_ok {o : Option α} {a : α} : orMalformed o = .ok a ↔ o = some a := by
  cases o <;> simp [orMalformed]

theorem readChecked_eq_some {n off v : ℕ} : readChecked n data off = some v ↔
    off + n < 2 ^ 64 ∧ off + n ≤ data.length ∧ v = readLe data off n := by
  unfold readChecked checkedAdd
  by_cases hlt : off + n < 2 ^ 64
  · rw [if_pos hlt]
    by_cases hle : off + n ≤ data.length
    · simp only [hle, if_true, hlt, true_and, Option.some.injEq]
      exact eq_comm
    · simp only [hle, if_false, false_and, and_false, reduceCtorEq]
  · simp only [hlt, if_false, false_and, reduceCtorEq]

theorem checkedAdd_bind_eq_some {n off k v : ℕ} :
    (checkedAdd off k).bind (readChecked n data) = some v ↔
      off + k + n < 2 ^ 64 ∧ off + k + n ≤ data.length ∧ v = readLe data (off + k) n := by
  rw [Option.bind_eq_some_iff]
  constructor
  · rintro ⟨o, ho, hv⟩
    obtain ⟨rfl, -⟩ := checkedAdd_eq_some ho
    exact readChecked_eq_some.mp hv
  · intro h
    exact ⟨off + k, if_pos (by omega), readChecked_eq_some.mpr h⟩

/-- The range of a program header as far as the parser is concerned. -/
theorem executes_iff {phdr : Phdr} {a : ℕ} : phdr.Executes a ↔
    (phdr.pType = ptLoad ∧ phdr.pFlags &&& pfX ≠ 0) ∧
      (⟨phdr.pVaddr, phdr.pVaddr + phdr.pMemsz⟩ : ExecInterval).Has a := by
  simp only [Phdr.Executes, Has, and_assoc]

/-- **One header**: the elements of an executable segment are added. -/
theorem addHeader_ok (hw : t.WellFormed) (h : addHeader data phoff phentsize t index = .ok t') :
    t'.WellFormed ∧ ∀ a, Covers t'.cells t'.count a ↔ Covers t.cells t.count a ∨
      (readPhdr data (phoff + index * phentsize)).Executes a := by
  unfold addHeader at h
  obtain ⟨step, hstep, h⟩ := bind_eq_ok h
  obtain ⟨off, hoff, h⟩ := bind_eq_ok h
  obtain ⟨pType, hpType, h⟩ := bind_eq_ok h
  obtain ⟨pFlags, hpFlags, h⟩ := bind_eq_ok h
  obtain rfl := checkedMul_eq_some (orMalformed_eq_ok.mp hstep)
  obtain ⟨rfl, -⟩ := checkedAdd_eq_some (orMalformed_eq_ok.mp hoff)
  obtain ⟨-, -, rfl⟩ := readChecked_eq_some.mp (orMalformed_eq_ok.mp hpType)
  obtain ⟨-, -, rfl⟩ := checkedAdd_bind_eq_some.mp (orMalformed_eq_ok.mp hpFlags)
  split at h
  next hskip =>
    cases h
    refine ⟨hw, fun a => ⟨.inl, ?_⟩⟩
    rintro (ha | ⟨hload, hexec, -⟩)
    · exact ha
    · rcases hskip with hskip | hskip
      · exact absurd hload hskip
      · exact absurd hskip hexec
  next hsel =>
    rw [not_or, not_not] at hsel
    obtain ⟨vaddr, hvaddr, h⟩ := bind_eq_ok h
    obtain ⟨memsz, hmemsz, h⟩ := bind_eq_ok h
    obtain ⟨stop, hstop, h⟩ := bind_eq_ok h
    obtain ⟨-, -, hv⟩ := checkedAdd_bind_eq_some.mp (orMalformed_eq_ok.mp hvaddr)
    obtain ⟨-, -, hm⟩ := checkedAdd_bind_eq_some.mp (orMalformed_eq_ok.mp hmemsz)
    obtain ⟨rfl, hlt⟩ := checkedAdd_eq_some (orMalformed_eq_ok.mp hstop)
    split at h
    next hempty =>
      cases h
      refine ⟨hw, fun a => ⟨.inl, ?_⟩⟩
      rintro (ha | ⟨-, -, hlo, hhi⟩)
      · exact ha
      · simp only [readPhdr, ← hv, ← hm] at hlo hhi
        omega
    next hrange =>
      have hpos : vaddr < vaddr + memsz := by omega
      rcases insertInterval_spec hw (x := ⟨vaddr, vaddr + memsz⟩) hpos hlt with
        herr | ⟨t₁, hok, hw₁, -, hcov⟩
      · rw [herr] at h
        cases h
      · rw [hok] at h
        cases h
        refine ⟨hw₁, fun a => ?_⟩
        rw [hcov, executes_iff, or_comm, hv, hm]
        exact or_congr_right ⟨fun ha => ⟨hsel, ha⟩, And.right⟩

/-- The loop, from any header on. -/
theorem addHeaders_ok {is : List ℕ} (hw : t.WellFormed)
    (h : is.foldlM (addHeader data phoff phentsize) t = .ok t') :
    t'.WellFormed ∧ ∀ a, Covers t'.cells t'.count a ↔ Covers t.cells t.count a ∨
      ∃ i ∈ is, (readPhdr data (phoff + i * phentsize)).Executes a := by
  induction is generalizing t with
  | nil =>
    cases h
    exact ⟨hw, by simp⟩
  | cons i is ih =>
    obtain ⟨t₁, hhead, h⟩ := bind_eq_ok h
    obtain ⟨hw₁, hcov₁⟩ := addHeader_ok hw hhead
    obtain ⟨hw', hcov⟩ := ih hw₁ h
    refine ⟨hw', fun a => ?_⟩
    rw [hcov, hcov₁, or_assoc]
    simp only [List.mem_cons, exists_eq_or_imp]

theorem wellFormed_empty : ExecIntervals.WellFormed ⟨fun _ => emptyInterval, 0⟩ :=
  ⟨.zero, Nat.zero_le _, nofun⟩

/-- **The intervals are exact**: they are separated, and together they are the union of the
executable segments. -/
theorem executableIntervals_ok (h : executableIntervals data = .ok t) :
    t.WellFormed ∧ 0 < t.count ∧ ∀ a, Covers t.cells t.count a ↔
      ∃ i < (readEhdr data).ePhnum, (phdrAt data (readEhdr data) i).Executes a := by
  unfold executableIntervals at h
  split at h
  next => cases h
  next =>
    obtain ⟨phoff, hphoff, h⟩ := bind_eq_ok h
    obtain ⟨phentsize, hphentsize, h⟩ := bind_eq_ok h
    obtain ⟨phnum, hphnum, h⟩ := bind_eq_ok h
    obtain ⟨-, -, rfl⟩ := readChecked_eq_some.mp (orMalformed_eq_ok.mp hphoff)
    obtain ⟨-, -, rfl⟩ := readChecked_eq_some.mp (orMalformed_eq_ok.mp hphentsize)
    obtain ⟨-, -, rfl⟩ := readChecked_eq_some.mp (orMalformed_eq_ok.mp hphnum)
    split at h
    next => cases h
    next =>
      obtain ⟨t₁, hloop, h⟩ := bind_eq_ok h
      split at h
      next => cases h
      next hcount =>
        cases h
        obtain ⟨hw, hcov⟩ := addHeaders_ok wellFormed_empty hloop
        refine ⟨hw, Nat.pos_of_ne_zero hcount, fun a => ?_⟩
        rw [hcov, or_iff_right not_covers_zero]
        simp only [List.mem_range]
        rfl

/-- A header within the file whose segment does not wrap around is not malformed. -/
theorem addHeader_fits (hw : t.WellFormed)
    (hfile : phoff + index * phentsize + phdrSize ≤ data.length)
    (hlt : phoff + index * phentsize + phdrSize < 2 ^ 64)
    (hseg : (readPhdr data (phoff + index * phentsize)).pType = ptLoad →
      (readPhdr data (phoff + index * phentsize)).pVaddr +
        (readPhdr data (phoff + index * phentsize)).pMemsz < 2 ^ 64) :
    addHeader data phoff phentsize t index = .error .capacity ∨
      ∃ t', addHeader data phoff phentsize t index = .ok t' := by
  simp only [phdrSize] at hfile hlt
  have hmul : checkedMul index phentsize = some (index * phentsize) := if_pos (by omega)
  have hoff : checkedAdd phoff (index * phentsize) = some (phoff + index * phentsize) :=
    if_pos (by omega)
  generalize phoff + index * phentsize = off at *
  have hread : ∀ n k, k + n ≤ 56 → (checkedAdd off k).bind (readChecked n data) =
      some (readLe data (off + k) n) := by
    intro n k hle
    exact checkedAdd_bind_eq_some.mpr ⟨by omega, by omega, rfl⟩
  have htype : readU32 data off = some (readLe data off 4) :=
    readChecked_eq_some.mpr ⟨by omega, by omega, rfl⟩
  have hflags : (checkedAdd off 4).bind (readU32 data) = some (readLe data (off + 4) 4) :=
    hread 4 4 (by norm_num)
  have hvaddr : (checkedAdd off 16).bind (readU64 data) = some (readLe data (off + 16) 8) :=
    hread 8 16 (by norm_num)
  have hmemsz : (checkedAdd off 40).bind (readU64 data) = some (readLe data (off + 40) 8) :=
    hread 8 40 (by norm_num)
  unfold addHeader
  simp only [hmul, hoff, htype, hflags, hvaddr, hmemsz, orMalformed, bind, Except.bind]
  split
  next => exact .inr ⟨t, rfl⟩
  next hsel =>
    rw [not_or, not_not] at hsel
    have hend := hseg hsel.1
    simp only [readPhdr] at hend
    have hstop : checkedAdd (readLe data (off + 16) 8) (readLe data (off + 40) 8) =
        some (readLe data (off + 16) 8 + readLe data (off + 40) 8) := if_pos hend
    simp only [hstop]
    split
    next => exact .inr ⟨t, rfl⟩
    next hrange =>
      rcases insertInterval_spec hw (x := ⟨readLe data (off + 16) 8,
        readLe data (off + 16) 8 + readLe data (off + 40) 8⟩) (by dsimp only; omega) hend with
        herr | ⟨t', hok, -⟩
      · exact .inl herr
      · exact .inr ⟨t', hok⟩

/-- The loop over headers that fit. -/
theorem addHeaders_fit {is : List ℕ} (hw : t.WellFormed)
    (h : ∀ i ∈ is, ∀ t : ExecIntervals, t.WellFormed →
      addHeader data phoff phentsize t i = .error .capacity ∨
        ∃ t', addHeader data phoff phentsize t i = .ok t') :
    is.foldlM (addHeader data phoff phentsize) t = .error .capacity ∨
      ∃ t', is.foldlM (addHeader data phoff phentsize) t = .ok t' := by
  induction is generalizing t with
  | nil => exact .inr ⟨t, rfl⟩
  | cons i is ih =>
    rw [List.forall_mem_cons] at h
    rw [List.foldlM_cons]
    rcases h.1 t hw with herr | ⟨t₁, hok⟩
    · rw [herr]
      exact .inl rfl
    · rw [hok]
      exact ih (addHeader_ok hw hok).1 h.2

/-- The segments of an accepted image do not wrap around. -/
theorem Accepted.lt {len : ℕ} {off : ℕ} (h : Accepted len (readPhdr data off))
    (hload : (readPhdr data off).pType = ptLoad) :
    (readPhdr data off).pVaddr + (readPhdr data off).pMemsz < 2 ^ 64 := by
  by_cases hzero : (readPhdr data off).pMemsz = 0
  · rw [hzero, Nat.add_zero]
    exact (readLe_lt data (off + 16) 8).trans_eq (by norm_num)
  · have hstop := ((h hload).2 hzero).stop
    simp only [PhysMem.frameOf, userAddrLimit] at hstop
    omega

/-- **An image that the loader accepts** is not malformed for the evidence parser: its intervals
contain the entry point, or there are too many of them. -/
theorem executableIntervals_of_validate {ehdr : Ehdr} (hparse : parseEhdr data = .ok ehdr)
    (hvalid : validate data ehdr = .ok ()) :
    executableIntervals data = .error .capacity ∨
      ∃ t, executableIntervals data = .ok t ∧ Covers t.cells t.count ehdr.eEntry := by
  obtain ⟨rfl, hent, htable⟩ := parseEhdr_ok hparse
  obtain ⟨hlen, hmagic, hclass, hlt⟩ := parseEhdr_bytes hparse
  obtain ⟨hacc, i, hi, hexec⟩ := validate_ok hvalid
  simp only [ehdrSize, phdrSize] at hlen hent
  have hfits : ∀ i ∈ List.range (readEhdr data).ePhnum, ∀ t : ExecIntervals, t.WellFormed →
      addHeader data (readEhdr data).ePhoff (readEhdr data).ePhentsize t i = .error .capacity ∨
        ∃ t', addHeader data (readEhdr data).ePhoff (readEhdr data).ePhentsize t i = .ok t' := by
    intro i hi t hw
    rw [List.mem_range] at hi
    have hend : i * (readEhdr data).ePhentsize + 56 ≤
        (readEhdr data).ePhnum * (readEhdr data).ePhentsize := by
      have hmul := Nat.mul_le_mul_right (readEhdr data).ePhentsize hi
      rw [Nat.succ_mul] at hmul
      omega
    exact addHeader_fits hw (by simp only [phdrSize]; omega) (by simp only [phdrSize]; omega)
      (hacc i hi).lt
  have hread : ∀ n off, off + n ≤ 64 → readChecked n data off = some (readLe data off n) :=
    fun n off h => readChecked_eq_some.mpr ⟨by omega, by omega, rfl⟩
  have hphoff : readU64 data 32 = some (readEhdr data).ePhoff := hread 8 32 (by norm_num)
  have hphentsize : readU16 data 54 = some (readEhdr data).ePhentsize := hread 2 54 (by norm_num)
  have hphnum : readU16 data 56 = some (readEhdr data).ePhnum := hread 2 56 (by norm_num)
  have hstart : ¬ (data.length < 64 ∨ data.take 4 ≠ elfMagic ∨ data[4]? ≠ some 2) := by
    rw [not_or, not_or, not_not, not_not]
    exact ⟨by omega, hmagic, hclass⟩
  unfold executableIntervals
  rw [if_neg hstart, hphoff, hphentsize, hphnum]
  simp only [orMalformed, bind, Except.bind]
  rw [if_neg (by omega)]
  rcases addHeaders_fit wellFormed_empty hfits with herr | ⟨t, hok⟩
  · rw [herr]
    exact .inl rfl
  · obtain ⟨-, hcov⟩ := addHeaders_ok wellFormed_empty hok
    have hentry : Covers t.cells t.count (readEhdr data).eEntry :=
      (hcov _).mpr (.inr ⟨i, List.mem_range.mpr hi, hexec⟩)
    have hcount : t.count ≠ 0 := by
      intro hzero
      rw [hzero] at hentry
      exact not_covers_zero hentry
    rw [hok]
    dsimp only
    rw [if_neg hcount]
    exact .inr ⟨t, rfl, hentry⟩

end Headers

end Vibix.Elf
