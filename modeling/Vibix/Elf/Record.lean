import Vibix.Elf.Evidence
import Vibix.Lib.Fields

/-! # The target record

`register_target` prints the intervals of an image on one line, and the host reads that line back:
`_parse_scheduler_fields` splits it into fields, `_parse_target_intervals` checks the intervals, and
a RIP is accepted if it lies in one of them.

Because the intervals are separated, every record that is printed passes the check, and what the
host gets are the intervals of the kernel (`checkTargetLine_text`). -/

namespace Vibix.Elf

open HalfOpen Fields

/-- `REQUIRED_ROUND_TRIPS`. -/
def requiredRoundTrips : ℕ := 3

/-- `Target`. -/
structure Target where
  active : Bool
  invalid : Bool
  pid : ℕ
  cr3 : ℕ
  intervals : ExecIntervals
  entry : ℕ
  sequence : ℕ
  roundTrips : ℕ
  sawUserReturn : Bool
  sawSwitchOut : Bool

/-- The entries in use. -/
def ExecIntervals.toList (t : ExecIntervals) : List ExecInterval := (List.range t.count).map t.cells

/-- `rip_in_intervals`. -/
def ripInIntervals (t : Target) (rip : ℕ) : Bool := t.intervals.toList.any fun x => x.Has rip

/-- The lines that `register_target` prints. -/
inductive EvidenceLine where
  | intervalCapacity (pid : ℕ)
  | noExecRange (pid : ℕ)
  | entryOutOfRange (pid entry : ℕ)
  | conflict (pid existingPid cr3 existingCr3 : ℕ)
  | target (pid cr3 : ℕ) (intervals : List ExecInterval) (entry : ℕ)
deriving DecidableEq

/-- `register_target`: the new target and the line that is printed. -/
def registerTarget (t : Target) (pid cr3 : ℕ) (image : Image) (entry : ℕ) :
    Target × Option EvidenceLine :=
  match executableIntervals image with
  | .error .capacity => ({ t with invalid := true }, some (.intervalCapacity pid))
  | .error .malformed => ({ t with invalid := true }, some (.noExecRange pid))
  | .ok intervals =>
    if !(intervals.toList.any fun x => x.Has entry) then
      ({ t with invalid := true }, some (.entryOutOfRange pid entry))
    -- a completed transcript stays
    else if t.active && decide (requiredRoundTrips ≤ t.roundTrips) then (t, none)
    else if t.active then ({ t with invalid := true }, some (.conflict pid t.pid cr3 t.cr3))
    else (⟨true, false, pid, cr3, intervals, entry, 0, 0, false, false⟩,
      some (.target pid cr3 intervals.toList entry))

/-! ### The text of a record -/

/-- A number in decimal. -/
def decimal (n : ℕ) : List Char := Nat.toDigits 10 n

/-- A hexadecimal digit. -/
def hexDigit (d : ℕ) : Char := if d < 10 then Char.ofNat (48 + d) else Char.ofNat (87 + d)

/-- A 64-bit number as `0x` and 16 digits. -/
def hex16 (v : ℕ) : List Char := '0' :: 'x' :: (Digits.digits 16 16 v).map hexDigit

/-- The key of one bound of an interval. -/
def intervalKey (i : ℕ) (bound : List Char) : List Char :=
  ['i', 'n', 't', 'e', 'r', 'v', 'a', 'l'] ++ decimal i ++ bound

/-- The suffix of the key of a lower bound. -/
def loSuffix : List Char := ['_', 'l', 'o']
/-- The suffix of the key of an upper bound. -/
def hiSuffix : List Char := ['_', 'h', 'i']

/-- The two fields of an interval. -/
def intervalTokens (x : ExecInterval) (i : ℕ) : List (List Char × List Char) :=
  [(intervalKey i loSuffix, hex16 x.lo), (intervalKey i hiSuffix, hex16 x.hi)]

/-- The key of the process. -/
def pidKey : List Char := ['p', 'i', 'd']
/-- The key of the root. -/
def cr3Key : List Char := ['c', 'r', '3']
/-- The key of the number of intervals. -/
def countKey : List Char := ['i', 'n', 't', 'e', 'r', 'v', 'a', 'l', '_', 'c', 'o', 'u', 'n', 't']
/-- The key of the entry point. -/
def entryKey : List Char := ['e', 'n', 't', 'r', 'y']

/-- The fields of a target record. -/
def targetTokens (pid cr3 : ℕ) (intervals : List ExecInterval) (entry : ℕ) :
    List (List Char × List Char) :=
  [(pidKey, decimal pid), (cr3Key, hex16 cr3), (countKey, decimal intervals.length)] ++
    (intervals.mapIdx fun i x => intervalTokens x i).flatten ++ [(entryKey, hex16 entry)]

/-- The beginning of a target record. -/
def targetPrefix : List Char := "DBG RUSTSCHED TARGET ".toList

/-- The text of a line. -/
def EvidenceLine.text : EvidenceLine → List Char
  | .intervalCapacity pid => "DBG RUSTSCHED TARGET_INVALID pid=".toList ++ decimal pid ++
      " reason=interval-capacity max=".toList ++ decimal maxExecIntervals
  | .noExecRange pid => "DBG RUSTSCHED TARGET_INVALID pid=".toList ++ decimal pid ++
      " reason=no-exec-range".toList
  | .entryOutOfRange pid entry => "DBG RUSTSCHED TARGET_INVALID pid=".toList ++ decimal pid ++
      " reason=entry-out-of-range entry=".toList ++ hex16 entry
  | .conflict pid existingPid cr3 existingCr3 =>
    "DBG RUSTSCHED TARGET_CONFLICT pid=".toList ++ decimal pid ++
    " existing_pid=".toList ++ decimal existingPid ++ " cr3=".toList ++ hex16 cr3 ++
    " existing_cr3=".toList ++ hex16 existingCr3
  | .target pid cr3 intervals entry => targetPrefix ++ render (targetTokens pid cr3 intervals entry)

/-! ### The host -/

/-- The value of a field: a number, or text. -/
inductive FieldValue where
  | int (n : ℕ)
  | text (s : List Char)
deriving DecidableEq

/-- The value of a hexadecimal digit. -/
def hexValue (c : Char) : Option ℕ :=
  if '0' ≤ c ∧ c ≤ '9' then some (c.toNat - 48)
  else if 'a' ≤ c ∧ c ≤ 'f' then some (c.toNat - 87)
  else if 'A' ≤ c ∧ c ≤ 'F' then some (c.toNat - 55)
  else none

/-- A number in base 16; there has to be a digit. -/
def readHex (ds : List Char) : Option ℕ :=
  if ds = [] then none else (ds.mapM hexValue).map (Digits.value 16)

/-- The value of a field in `_parse_scheduler_fields`. -/
def readValue (value : List Char) : Option FieldValue :=
  if value.take 2 = ['0', 'x'] then (readHex (value.drop 2)).map .int
  else if value ≠ [] ∧ value.all Char.isDigit then some (.int (Nat.ofDigitChars 10 value 0))
  else some (.text value)

/-- `_parse_scheduler_fields`. -/
def parseSchedulerFields (payload : List Char) : Option (List (List Char × FieldValue)) :=
  parseFields readValue payload

/-- One round of `_parse_target_intervals`. -/
def addTargetInterval (target : List (List Char × FieldValue)) (intervals : List ExecInterval)
    (index : ℕ) : Option (List ExecInterval) :=
  match target.lookup (intervalKey index loSuffix), target.lookup (intervalKey index hiSuffix) with
  | some (.int lo), some (.int hi) =>
    if hi ≤ lo then none
    else
      match intervals.getLast? with
      | some prev => if lo ≤ prev.hi then none else some (intervals ++ [⟨lo, hi⟩])
      | none => some (intervals ++ [⟨lo, hi⟩])
  | _, _ => none

/-- `_parse_target_intervals`. -/
def parseTargetIntervals (target : List (List Char × FieldValue)) : Option (List ExecInterval) :=
  match target.lookup countKey with
  | some (.int count) =>
    if count = 0 then none else (List.range count).foldlM (addTargetInterval target) []
  | _ => none

/-- `_rip_in_target_intervals`. -/
def ripInTargetIntervals (rip : ℕ) (intervals : List ExecInterval) : Bool :=
  intervals.any fun x => x.Has rip

/-- What `_check_rust_elf_scheduler_evidence` does with a target record. -/
def checkTargetLine (line : List Char) : Option (List ExecInterval) :=
  if !targetPrefix.isPrefixOf line then none
  else
    match parseSchedulerFields (line.drop targetPrefix.length) with
    | none => none
    | some target =>
      match target.lookup pidKey, target.lookup cr3Key, target.lookup entryKey,
        parseTargetIntervals target with
      | some _, some _, some (.int entry), some intervals =>
        if ripInTargetIntervals entry intervals then some intervals else none
      | _, _, _, _ => none

/-! ### Reading the fields back -/

theorem hexValue_hexDigit : ∀ d < 16, hexValue (hexDigit d) = some d := by decide

theorem isWhitespace_hexDigit : ∀ d < 16, (hexDigit d).isWhitespace = false := by decide

theorem mapM_hexValue {ds : List ℕ} (h : ∀ d ∈ ds, d < 16) :
    (ds.map hexDigit).mapM hexValue = some ds := by
  induction ds with
  | nil => rfl
  | cons d ds ih =>
    rw [List.forall_mem_cons] at h
    rw [List.map_cons, List.mapM_cons, hexValue_hexDigit d h.1, ih h.2]
    rfl

theorem readValue_hex16 (v : ℕ) :
    readValue (hex16 v) = some (.int (Digits.value 16 (Digits.digits 16 16 v))) := by
  have hne : (Digits.digits 16 16 v).map hexDigit ≠ [] := by
    rw [← List.length_pos_iff, List.length_map, Digits.length_digits]
    norm_num
  have htake : (hex16 v).take 2 = ['0', 'x'] := rfl
  have hdrop : (hex16 v).drop 2 = (Digits.digits 16 16 v).map hexDigit := rfl
  rw [readValue, if_pos htake, hdrop, readHex, if_neg hne,
    mapM_hexValue fun d => Digits.lt_of_mem_digits (by norm_num)]
  rfl

theorem value_hex16 {v : ℕ} (h : v < 2 ^ 64) : Digits.value 16 (Digits.digits 16 16 v) = v :=
  Digits.value_digits (h.trans_eq (by norm_num))

theorem isDigit_decimal {n : ℕ} {c : Char} (h : c ∈ decimal n) : c.isDigit = true :=
  Nat.isDigit_of_mem_toDigits (by norm_num) le_rfl h

theorem decimal_ne_nil (n : ℕ) : decimal n ≠ [] := Nat.toDigits_ne_nil

theorem decimal_injective {m n : ℕ} (h : decimal m = decimal n) : m = n := by
  rw [← Nat.ofDigitChars_toDigits (b := 10) (n := m) (by norm_num) le_rfl, ← decimal, h, decimal,
    Nat.ofDigitChars_toDigits (by norm_num) le_rfl]

theorem readValue_decimal (n : ℕ) : readValue (decimal n) = some (.int n) := by
  have htake : (decimal n).take 2 ≠ ['0', 'x'] := by
    intro h
    have hx : 'x' ∈ (decimal n).take 2 := by simp [h]
    exact absurd (isDigit_decimal (List.mem_of_mem_take hx)) (by decide)
  rw [readValue, if_neg htake, if_pos ⟨decimal_ne_nil n, List.all_eq_true.mpr fun c => isDigit_decimal⟩,
    decimal, Nat.ofDigitChars_toDigits (by norm_num) le_rfl]

/-- A digit is neither a blank nor the end of a key. -/
theorem not_special_of_isDigit {c : Char} (h : c.isDigit = true) :
    c ≠ '=' ∧ c.isWhitespace = false := by
  refine ⟨?_, ?_⟩
  · rintro rfl
    revert h
    decide
  · by_contra hc
    simp only [Bool.not_eq_false, Char.isWhitespace, Bool.or_eq_true, decide_eq_true_eq] at hc
    rcases hc with ((rfl | rfl) | rfl) | rfl <;> revert h <;> decide

/-! ### The fields of a record -/

section Tokens

variable {pid cr3 entry i j : ℕ} {intervals : List ExecInterval} {x : ExecInterval}
  {t : List Char × List Char} {s s' : List Char}

/-- The suffixes of the keys of an interval. -/
def bounds : List (List Char) := [loSuffix, hiSuffix]

theorem intervalKey_inj (hs : s ∈ bounds) (hs' : s' ∈ bounds)
    (h : intervalKey i s = intervalKey j s') : i = j ∧ s = s' := by
  have hlen : s.length = s'.length := by
    simp only [bounds, List.mem_cons, List.not_mem_nil, or_false] at hs hs'
    rcases hs with rfl | rfl <;> rcases hs' with rfl | rfl <;> rfl
  rw [intervalKey, intervalKey, List.append_assoc, List.append_assoc, List.append_right_inj] at h
  obtain ⟨hdec, hsuffix⟩ := List.append_inj' h hlen
  exact ⟨decimal_injective hdec, hsuffix⟩

theorem intervalKey_ne_count : intervalKey i s ≠ countKey := by
  intro h
  have hsplit : countKey = ['i', 'n', 't', 'e', 'r', 'v', 'a', 'l'] ++
      ['_', 'c', 'o', 'u', 'n', 't'] := rfl
  rw [intervalKey, hsplit, List.append_assoc, List.append_right_inj] at h
  -- the number begins with a digit
  obtain ⟨c, cs, hdec⟩ := List.exists_cons_of_ne_nil (decimal_ne_nil i)
  have hdigit : c.isDigit = true := isDigit_decimal (n := i) (by simp [hdec])
  rw [hdec, List.cons_append] at h
  obtain ⟨rfl, -⟩ := List.cons.inj h
  exact absurd hdigit (by decide)

theorem intervalKey_ne {c : Char} {cs : List Char} (hc : c ≠ 'i') : intervalKey i s ≠ c :: cs := by
  intro h
  exact hc (List.cons.inj h).1.symm

theorem isWhitespace_hex16 (v : ℕ) : ∀ c ∈ hex16 v, c.isWhitespace = false := by
  intro c hc
  rw [hex16, List.mem_cons, List.mem_cons, List.mem_map] at hc
  rcases hc with rfl | rfl | ⟨d, hd, rfl⟩
  · decide
  · decide
  · exact isWhitespace_hexDigit d (Digits.lt_of_mem_digits (by norm_num) hd)

theorem isWhitespace_decimal (n : ℕ) : ∀ c ∈ decimal n, c.isWhitespace = false :=
  fun _ hc => (not_special_of_isDigit (isDigit_decimal hc)).2

/-- No character ends a key or a word. -/
def plain (key : List Char) : Bool := key.all fun c => c != '=' && !c.isWhitespace

theorem plain_iff {key : List Char} :
    plain key = true ↔ ∀ c ∈ key, c ≠ '=' ∧ c.isWhitespace = false := by
  simp [plain]

theorem proper_interval (hs : s ∈ bounds) (v : ℕ) : Proper (intervalKey i s, hex16 v) := by
  refine ⟨by simp [intervalKey], fun c hc => ?_, isWhitespace_hex16 v⟩
  rw [intervalKey, List.mem_append, List.mem_append] at hc
  rcases hc with (hc | hc) | hc
  · exact plain_iff.mp (by decide) c hc
  · exact not_special_of_isDigit (isDigit_decimal hc)
  · have hplain : ∀ s ∈ bounds, plain s = true := by decide
    exact plain_iff.mp (hplain s hs) c hc

theorem fixedKey_ok {key : List Char} (h : key ∈ [pidKey, cr3Key, countKey, entryKey]) :
    key ≠ [] ∧ ∀ c ∈ key, c ≠ '=' ∧ c.isWhitespace = false := by
  have hall : ∀ key ∈ [pidKey, cr3Key, countKey, entryKey], key ≠ [] ∧ plain key = true := by
    decide
  exact ⟨(hall key h).1, plain_iff.mp (hall key h).2⟩

/-- The fields of a record, one by one. -/
theorem mem_targetTokens (h : t ∈ targetTokens pid cr3 intervals entry) :
    (∃ key ∈ [pidKey, countKey], ∃ n, t = (key, decimal n)) ∨
      (∃ key ∈ [cr3Key, entryKey], ∃ v, t = (key, hex16 v)) ∨
      ∃ i, ∃ s ∈ bounds, ∃ v, t = (intervalKey i s, hex16 v) := by
  simp only [targetTokens, List.mem_append, List.mem_cons, List.not_mem_nil, or_false,
    List.mem_flatten, List.mem_mapIdx] at h
  rcases h with ((rfl | rfl | rfl) | ⟨_, ⟨i, hi, rfl⟩, ht⟩) | rfl
  · exact .inl ⟨_, by simp, _, rfl⟩
  · exact .inr (.inl ⟨_, by simp, _, rfl⟩)
  · exact .inl ⟨_, by simp, _, rfl⟩
  · simp only [intervalTokens, List.mem_cons, List.not_mem_nil, or_false] at ht
    rcases ht with rfl | rfl
    · exact .inr (.inr ⟨i, loSuffix, by simp [bounds], _, rfl⟩)
    · exact .inr (.inr ⟨i, hiSuffix, by simp [bounds], _, rfl⟩)
  · exact .inr (.inl ⟨_, by simp, _, rfl⟩)

/-- All fields are proper, and their values can be read. -/
theorem targetTokens_ok (h : t ∈ targetTokens pid cr3 intervals entry) :
    Proper t ∧ readValue t.2 = some ((readValue t.2).getD (.text [])) := by
  rcases mem_targetTokens h with ⟨key, hkey, n, rfl⟩ | ⟨key, hkey, v, rfl⟩ | ⟨i, s, hs, v, rfl⟩
  · obtain ⟨hne, hchars⟩ := @fixedKey_ok key (by simp at hkey ⊢; tauto)
    exact ⟨⟨hne, hchars, isWhitespace_decimal n⟩, by simp [readValue_decimal]⟩
  · obtain ⟨hne, hchars⟩ := @fixedKey_ok key (by simp at hkey ⊢; tauto)
    exact ⟨⟨hne, hchars, isWhitespace_hex16 v⟩, by simp [readValue_hex16]⟩
  · exact ⟨proper_interval hs v, by simp [readValue_hex16]⟩

/-- The keys of the intervals. -/
theorem map_fst_intervals :
    ((intervals.mapIdx fun i x => intervalTokens x i).flatten).map Prod.fst =
      (List.range intervals.length).flatMap fun i => bounds.map (intervalKey i) := by
  rw [List.map_flatten, List.flatMap_def]
  congr 1
  refine List.ext_getElem (by simp) fun i h₁ h₂ => ?_
  simp [intervalTokens, bounds]

/-- All keys of a record are different. -/
theorem nodup_targetTokens : ((targetTokens pid cr3 intervals entry).map Prod.fst).Nodup := by
  have hne : ∀ key ∈ [pidKey, cr3Key, countKey, entryKey], key ∉
      (List.range intervals.length).flatMap fun i => bounds.map (intervalKey i) := by
    intro key hkey hmem
    obtain ⟨i, -, hmem⟩ := List.mem_flatMap.mp hmem
    obtain ⟨s, -, heq⟩ := List.mem_map.mp hmem
    simp only [List.mem_cons, List.not_mem_nil, or_false] at hkey
    rcases hkey with rfl | rfl | rfl | rfl
    · exact intervalKey_ne (by decide) heq
    · exact intervalKey_ne (by decide) heq
    · exact intervalKey_ne_count heq
    · exact intervalKey_ne (by decide) heq
  have hintervals : ((List.range intervals.length).flatMap fun i =>
      bounds.map (intervalKey i)).Nodup := by
    rw [List.nodup_flatMap]
    refine ⟨fun i _ => ?_, ?_⟩
    · refine List.Nodup.map_on ?_ (by decide)
      intro s hs s' hs' heq
      exact (intervalKey_inj hs hs' heq).2
    · refine List.nodup_range.imp fun {i j} hij key hi hj => hij ?_
      obtain ⟨s, hs, rfl⟩ := List.mem_map.mp hi
      obtain ⟨s', hs', heq⟩ := List.mem_map.mp hj
      exact (intervalKey_inj hs' hs heq).1.symm
  rw [targetTokens, List.map_append, List.map_append, map_fst_intervals]
  simp only [List.map_cons, List.map_nil]
  rw [List.nodup_append', List.nodup_append']
  refine ⟨⟨by decide, hintervals, fun key hkey => hne key ?_⟩, by simp, ?_⟩
  · revert key
    decide
  · rw [List.disjoint_singleton, List.mem_append, not_or]
    exact ⟨by decide, hne _ (by simp)⟩

/-- What the host finds in a record. -/
structure Reads (target : List (List Char × FieldValue)) (pid : ℕ) (intervals : List ExecInterval)
    (entry : ℕ) : Prop where
  pid : target.lookup pidKey = some (.int pid)
  cr3 : (target.lookup cr3Key).isSome
  count : target.lookup countKey = some (.int intervals.length)
  entry : entry < 2 ^ 64 → target.lookup entryKey = some (.int entry)
  lo : ∀ i, (h : i < intervals.length) → intervals[i].lo < 2 ^ 64 →
    target.lookup (intervalKey i loSuffix) = some (.int intervals[i].lo)
  hi : ∀ i, (h : i < intervals.length) → intervals[i].hi < 2 ^ 64 →
    target.lookup (intervalKey i hiSuffix) = some (.int intervals[i].hi)

/-- **The fields are read back.** -/
theorem parseSchedulerFields_render (pid cr3 : ℕ) (intervals : List ExecInterval) (entry : ℕ) :
    ∃ target, parseSchedulerFields (render (targetTokens pid cr3 intervals entry)) = some target ∧
      Reads target pid intervals entry ∧
      target.lookup cr3Key = some (.int (Digits.value 16 (Digits.digits 16 16 cr3))) := by
  refine ⟨_, parseFields_render (fun v => (readValue v).getD (.text []))
    (fun t ht => (targetTokens_ok ht).1) nodup_targetTokens fun t ht => (targetTokens_ok ht).2, ?_⟩
  have hfind : ∀ t ∈ targetTokens pid cr3 intervals entry, ∀ b, readValue t.2 = some b →
      ((targetTokens pid cr3 intervals entry).map
        fun t => (t.1, (readValue t.2).getD (.text []))).lookup t.1 = some b := by
    intro t ht b hb
    rw [lookup_render (fun v => (readValue v).getD (.text [])) nodup_targetTokens ht, hb]
    rfl
  have hmem : ∀ i, (h : i < intervals.length) → ∀ t ∈ intervalTokens intervals[i] i,
      t ∈ targetTokens pid cr3 intervals entry := by
    intro i h t ht
    refine List.mem_append_left _ (List.mem_append_right _ (List.mem_flatten.mpr ⟨_, ?_, ht⟩))
    exact List.mem_mapIdx.mpr ⟨i, h, rfl⟩
  have hcr3 := hfind (cr3Key, hex16 cr3) (by simp [targetTokens]) _ (readValue_hex16 cr3)
  refine ⟨⟨hfind (pidKey, decimal pid) (by simp [targetTokens]) _ (readValue_decimal pid), ?_,
    hfind (countKey, decimal intervals.length) (by simp [targetTokens]) _ (readValue_decimal _), fun h => ?_,
    fun i h hlt => ?_, fun i h hlt => ?_⟩, hcr3⟩
  · rw [hcr3]
    rfl
  · have hread := readValue_hex16 entry
    rw [value_hex16 h] at hread
    exact hfind (entryKey, hex16 entry) (by simp [targetTokens]) _ hread
  · have hread := readValue_hex16 intervals[i].lo
    rw [value_hex16 hlt] at hread
    exact hfind (intervalKey i loSuffix, hex16 intervals[i].lo)
      (hmem i h _ (by simp [intervalTokens])) _ hread
  · have hread := readValue_hex16 intervals[i].hi
    rw [value_hex16 hlt] at hread
    exact hfind (intervalKey i hiSuffix, hex16 intervals[i].hi)
      (hmem i h _ (by simp [intervalTokens])) _ hread

end Tokens

/-! ### Every record passes -/

section Check

variable {t : ExecIntervals} {target : List (List Char × FieldValue)} {pid entry : ℕ}

@[simp] theorem ExecIntervals.length_toList : t.toList.length = t.count := by
  simp [ExecIntervals.toList]

theorem ExecIntervals.getElem_toList {i : ℕ} (h : i < t.toList.length) :
    t.toList[i] = t.cells i := by
  simp [ExecIntervals.toList]

theorem any_toList_iff {a : ℕ} :
    (t.toList.any fun x => x.Has a) = true ↔ Covers t.cells t.count a := by
  simp [ExecIntervals.toList, Covers]

/-- The loop over the intervals accepts separated ones. -/
theorem addTargetIntervals_eq (hw : t.WellFormed) (hr : Reads target pid t.toList entry) {k : ℕ}
    (hk : k ≤ t.count) :
    (List.range k).foldlM (addTargetInterval target) [] = some ((List.range k).map t.cells) := by
  induction k with
  | zero => rfl
  | succ k ih =>
    have hlen : k < t.toList.length := by simpa using hk
    have hhi := hw.hi_lt k hk
    have hpos := hw.separated.nonempty k hk
    have hlook₁ := hr.lo k hlen (by rw [ExecIntervals.getElem_toList]; omega)
    have hlook₂ := hr.hi k hlen (by rwa [ExecIntervals.getElem_toList])
    rw [ExecIntervals.getElem_toList] at hlook₁ hlook₂
    rw [List.range_succ, List.foldlM_append, ih (by omega), List.map_append]
    change (addTargetInterval target _ k >>= fun s => some s) = _
    unfold addTargetInterval
    rw [hlook₁, hlook₂]
    dsimp only
    rw [if_neg (not_le.mpr hpos)]
    cases k with
    | zero => rfl
    | succ k =>
      have hlast : ((List.range (k + 1)).map t.cells).getLast? = some (t.cells k) := by
        rw [List.range_succ, List.map_append, List.map_singleton, List.getLast?_concat]
      rw [hlast]
      dsimp only
      rw [if_neg (not_le.mpr (hw.separated.apart k (k + 1) (by omega) hk))]
      rfl

theorem parseTargetIntervals_eq (hw : t.WellFormed) (hcount : 0 < t.count)
    (hr : Reads target pid t.toList entry) : parseTargetIntervals target = some t.toList := by
  rw [parseTargetIntervals, hr.count]
  dsimp only
  rw [ExecIntervals.length_toList, if_neg hcount.ne', addTargetIntervals_eq hw hr le_rfl]
  rfl

/-- **Every record passes the check of the host**, which reads the intervals of the kernel. -/
theorem checkTargetLine_text (hw : t.WellFormed) (hcount : 0 < t.count)
    (hentry : Covers t.cells t.count entry) (pid cr3 : ℕ) :
    checkTargetLine (EvidenceLine.target pid cr3 t.toList entry).text = some t.toList := by
  obtain ⟨target, hparse, hr, -⟩ := parseSchedulerFields_render pid cr3 t.toList entry
  have hlt : entry < 2 ^ 64 := by
    obtain ⟨i, hi, hlo, hhi⟩ := hentry
    exact hhi.trans (hw.hi_lt i hi)
  have hinit : targetPrefix.isPrefixOf (EvidenceLine.target pid cr3 t.toList entry).text = true :=
    List.isPrefixOf_iff_prefix.mpr (List.prefix_append _ _)
  have hdrop : (EvidenceLine.target pid cr3 t.toList entry).text.drop targetPrefix.length =
      render (targetTokens pid cr3 t.toList entry) := List.drop_left
  have hintervals := parseTargetIntervals_eq hw hcount hr
  obtain ⟨cr3Value, hcr3⟩ := Option.isSome_iff_exists.mp hr.cr3
  have hrip : ripInTargetIntervals entry t.toList = true := any_toList_iff.mpr hentry
  unfold checkTargetLine
  rw [hinit, hdrop, hparse]
  dsimp only
  rw [hr.pid, hcr3, hr.entry hlt, hintervals]
  dsimp only
  rw [hrip]
  rfl

/-- The target record of `register_target`. -/
theorem registerTarget_target {t : Target} {pid cr3 entry pid' cr3' entry' : ℕ} {image : Image}
    {intervals : List ExecInterval} (h : (registerTarget t pid cr3 image entry).2 =
      some (.target pid' cr3' intervals entry')) :
    ∃ ivs, executableIntervals image = .ok ivs ∧ intervals = ivs.toList ∧
      Covers ivs.cells ivs.count entry' ∧
      (registerTarget t pid cr3 image entry).1.intervals = ivs := by
  cases hivs : executableIntervals image with
  | error e => cases e <;> simp [registerTarget, hivs] at h
  | ok ivs =>
    simp only [registerTarget, hivs] at h ⊢
    split at h
    next => cases h
    next hin =>
      split at h
      next => cases h
      next hcompleted =>
        split at h
        next => cases h
        next hactive =>
          cases h
          rw [if_neg hin, if_neg hcompleted, if_neg hactive]
          refine ⟨ivs, rfl, rfl, any_toList_iff.mp (by simpa using hin), rfl⟩

end Check

/-- **Interval extraction is exact**: the intervals are non-empty, sorted and separated, their union
is the union of the executable segments, and every target record passes the check of the host,
which then accepts the same instruction pointers as the kernel. -/
theorem intervals_exact {data : Image} {ivs : ExecIntervals}
    (h : executableIntervals data = .ok ivs) :
    Separated ivs.cells ivs.count ∧
      (∀ a, Covers ivs.cells ivs.count a ↔ ∃ i < (readEhdr data).ePhnum,
        (phdrAt data (readEhdr data) i).pType = ptLoad ∧
        (phdrAt data (readEhdr data) i).pFlags &&& pfX ≠ 0 ∧
        0 < (phdrAt data (readEhdr data) i).pMemsz ∧
        (phdrAt data (readEhdr data) i).pVaddr ≤ a ∧
        a < (phdrAt data (readEhdr data) i).pVaddr + (phdrAt data (readEhdr data) i).pMemsz) ∧
      ∀ t pid cr3 entry pid' cr3' intervals entry',
        (registerTarget t pid cr3 data entry).2 = some (.target pid' cr3' intervals entry') →
        ∃ L, checkTargetLine (EvidenceLine.target pid' cr3' intervals entry').text = some L ∧
          ∀ rip, ripInIntervals (registerTarget t pid cr3 data entry).1 rip =
            ripInTargetIntervals rip L := by
  obtain ⟨hw, hcount, hcov⟩ := executableIntervals_ok h
  refine ⟨hw.separated, fun a => (hcov a).trans (exists_congr fun i => and_congr_right fun _ => ?_),
    ?_⟩
  · refine ⟨fun ⟨h1, h2, h3, h4⟩ => ⟨h1, h2, by omega, h3, h4⟩,
      fun ⟨h1, h2, _, h3, h4⟩ => ⟨h1, h2, h3, h4⟩⟩
  · intro t pid cr3 entry pid' cr3' intervals entry' hline
    obtain ⟨ivs', hivs, rfl, hentry, htarget⟩ := registerTarget_target hline
    obtain rfl : ivs = ivs' := Except.ok.inj (h.symm.trans hivs)
    refine ⟨_, checkTargetLine_text hw hcount hentry pid' cr3', fun rip => ?_⟩
    rw [ripInIntervals, htarget, ripInTargetIntervals]

/-- Three executable segments, the last of which fills the gap between the others. -/
def gapImage : Image :=
  buildImage 0x2000000 [⟨ptLoad, 5, 0, 0x2000000, 0, 0x100⟩, ⟨ptLoad, 5, 0, 0x2000200, 0, 0x100⟩,
    ⟨ptLoad, 5, 0, 0x2000400, 0, 0x100⟩, ⟨ptLoad, 5, 0, 0x2000100, 0, 0x100⟩] []

theorem gapImage_intervals : ∃ ivs, executableIntervals gapImage = .ok ivs ∧
    ivs.toList = [⟨0x2000000, 0x2000300⟩, ⟨0x2000400, 0x2000500⟩] := by
  decide +kernel

theorem intervals_exact_gap : ∃ ivs, executableIntervals gapImage = .ok ivs ∧
    Separated ivs.cells ivs.count := by
  obtain ⟨ivs, hivs, -⟩ := gapImage_intervals
  exact ⟨ivs, hivs, (intervals_exact hivs).1⟩

/-- **The evidence parser agrees with the loader**: an image whose validation succeeds is never
malformed for it, and its entry point is never out of range. -/
theorem evidence_agrees {data : Image} {ehdr : Ehdr} (hparse : parseEhdr data = .ok ehdr)
    (hvalid : validate data ehdr = .ok ()) :
    (executableIntervals data = .error .capacity ∨
      ∃ ivs, executableIntervals data = .ok ivs ∧ Covers ivs.cells ivs.count ehdr.eEntry) ∧
      ∀ t pid cr3, (registerTarget t pid cr3 data ehdr.eEntry).2 ≠ some (.noExecRange pid) ∧
        (registerTarget t pid cr3 data ehdr.eEntry).2 ≠
          some (.entryOutOfRange pid ehdr.eEntry) := by
  have hparser := executableIntervals_of_validate hparse hvalid
  refine ⟨hparser, fun t pid cr3 => ?_⟩
  rcases hparser with herr | ⟨ivs, hivs, hentry⟩
  · simp [registerTarget, herr]
  · have hin : (ivs.toList.any fun x => x.Has ehdr.eEntry) = true := any_toList_iff.mpr hentry
    simp only [registerTarget, hivs, hin, Bool.not_true, Bool.false_eq_true, if_false]
    constructor <;> split_ifs <;> simp

theorem gapImage_valid : ∃ ehdr, parseEhdr gapImage = .ok ehdr ∧ ∃ u, validate gapImage ehdr = .ok u := by
  decide +kernel

theorem evidence_agrees_gap : ∃ ehdr, parseEhdr gapImage = .ok ehdr ∧
    ∀ t pid cr3, (registerTarget t pid cr3 gapImage ehdr.eEntry).2 ≠ some (.noExecRange pid) := by
  obtain ⟨ehdr, hparse, _, hok⟩ := gapImage_valid
  exact ⟨ehdr, hparse, fun t pid cr3 => ((evidence_agrees hparse hok).2 t pid cr3).1⟩

end Vibix.Elf
