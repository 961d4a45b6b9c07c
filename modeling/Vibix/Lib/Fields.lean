import Mathlib.Tactic

/-! # Lines of fields

A record is written as a line of fields `key=value` with blanks between them (`render`), and read by
splitting the line into words and each word at its first `=`; empty or repeated keys are errors
(`parseFields`).  The values are read by a function that the caller chooses.

A record whose keys are different comes back as it was written (`parseFields_render`), and its
fields are found by their keys (`lookup_render`). -/

namespace Fields

variable {β : Type*}

/-- The words of a line. -/
def words (text : List Char) : List (List Char) :=
  (text.splitOnP Char.isWhitespace).filter (· ≠ [])

/-- One field. -/
def field (t : List Char × List Char) : List Char := t.1 ++ '=' :: t.2

/-- A line of fields. -/
def render : List (List Char × List Char) → List Char
  | [] => []
  | [t] => field t
  | t :: t' :: ts => field t ++ ' ' :: render (t' :: ts)

/-- Read one more field. -/
def addField (readValue : List Char → Option β) (fields : List (List Char × β))
    (token : List Char) : Option (List (List Char × β)) :=
  if '=' ∉ token then none
  else
    let key := token.takeWhile (· ≠ '=')
    let value := (token.dropWhile (· ≠ '=')).tail
    if key = [] ∨ key ∈ fields.map Prod.fst then none
    else (readValue value).map fun b => fields ++ [(key, b)]

/-- Read a line of fields. -/
def parseFields (readValue : List Char → Option β) (text : List Char) :
    Option (List (List Char × β)) :=
  (words text).foldlM (addField readValue) []

/-- A field that is one word and whose key is non-empty and ends where it should. -/
structure Proper (t : List Char × List Char) : Prop where
  nonempty : t.1 ≠ []
  key : ∀ c ∈ t.1, c ≠ '=' ∧ c.isWhitespace = false
  value : ∀ c ∈ t.2, c.isWhitespace = false

variable {readValue : List Char → Option β} {t : List Char × List Char}
  {ts : List (List Char × List Char)} {fields : List (List Char × β)}

theorem Proper.field_word (h : Proper t) : ∀ c ∈ field t, c.isWhitespace = false := by
  intro c hc
  rw [field, List.mem_append, List.mem_cons] at hc
  rcases hc with hc | rfl | hc
  · exact (h.key c hc).2
  · decide
  · exact h.value c hc

theorem field_ne_nil : field t ≠ [] := by simp [field]

/-- The words of a line are its fields. -/
theorem words_render (h : ∀ t ∈ ts, Proper t) : words (render ts) = ts.map field := by
  unfold words
  induction ts with
  | nil => rfl
  | cons t ts ih =>
    have hword := (h t List.mem_cons_self).field_word
    cases ts with
    | nil =>
      rw [render, List.splitOnP_eq_singleton hword]
      simp [field_ne_nil]
    | cons t' ts =>
      rw [render, List.splitOnP_append_cons_of_forall_mem hword _ (by decide),
        List.filter_cons_of_pos (by simp [field_ne_nil]),
        ih fun u hu => h u (List.mem_cons_of_mem _ hu)]
      rfl

/-- Reading a field back. -/
theorem addField_field {b : β} (h : Proper t) (hnew : t.1 ∉ fields.map Prod.fst)
    (hvalue : readValue t.2 = some b) :
    addField readValue fields (field t) = some (fields ++ [(t.1, b)]) := by
  have hkey : ∀ c ∈ t.1, decide (c ≠ '=') = true := fun c hc => decide_eq_true (h.key c hc).1
  have htake : (field t).takeWhile (fun c => decide (c ≠ '=')) = t.1 := by
    rw [field, List.takeWhile_append_of_pos hkey]
    simp
  have hdrop : (field t).dropWhile (fun c => decide (c ≠ '=')) = '=' :: t.2 := by
    rw [field, List.dropWhile_append_of_pos hkey]
    simp
  have hmem : '=' ∈ field t := by simp [field]
  unfold addField
  rw [if_neg (not_not.mpr hmem)]
  dsimp only
  rw [htake, hdrop, List.tail_cons, if_neg (not_or.mpr ⟨h.nonempty, hnew⟩), hvalue]
  rfl

/-- **A record is read back.** -/
theorem parseFields_render (value : List Char → β) (h : ∀ t ∈ ts, Proper t)
    (hkeys : (ts.map Prod.fst).Nodup) (hvalue : ∀ t ∈ ts, readValue t.2 = some (value t.2)) :
    parseFields readValue (render ts) = some (ts.map fun t => (t.1, value t.2)) := by
  rw [parseFields, words_render h]
  -- the fields read so far are some with other keys
  suffices hloop : ∀ fields : List (List Char × β),
      (∀ t ∈ ts, t.1 ∉ fields.map Prod.fst) →
      (ts.map field).foldlM (addField readValue) fields =
        some (fields ++ ts.map fun t => (t.1, value t.2)) by
    simpa using hloop [] (by simp)
  induction ts with
  | nil => simp
  | cons t ts ih =>
    intro fields hnew
    rw [List.map_cons, List.nodup_cons] at hkeys
    rw [List.forall_mem_cons] at h hvalue hnew
    rw [List.map_cons, List.foldlM_cons, addField_field h.1 hnew.1 hvalue.1]
    change List.foldlM _ _ _ = _
    rw [ih h.2 hkeys.2 hvalue.2 _ fun u hu => ?_]
    · simp
    · rw [List.map_append, List.mem_append, not_or]
      refine ⟨hnew.2 u hu, ?_⟩
      rw [List.map_singleton, List.mem_singleton]
      rintro heq
      exact hkeys.1 (heq ▸ List.mem_map_of_mem hu)

/-- **Fields are found by their keys.** -/
theorem lookup_render (value : List Char → β) (hkeys : (ts.map Prod.fst).Nodup) (ht : t ∈ ts) :
    (ts.map fun t => (t.1, value t.2)).lookup t.1 = some (value t.2) := by
  induction ts with
  | nil => cases ht
  | cons u ts ih =>
    rw [List.map_cons, List.nodup_cons] at hkeys
    rw [List.map_cons, List.lookup_cons]
    rcases List.mem_cons.mp ht with rfl | ht
    · simp
    · have hne : t.1 ≠ u.1 := fun heq => hkeys.1 (heq ▸ List.mem_map_of_mem ht)
      rw [beq_false_of_ne hne]
      exact ih hkeys.2 ht

end Fields
