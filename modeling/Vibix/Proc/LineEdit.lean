import Vibix.Lib.Ring
import Vibix.Lib.Run
import Vibix.Proc.Skipped

/-! # The terminal as a line editor

In canonical mode the bytes that `Tty::read` returns are those of a line editor that works on the
whole input at once.

* **The editor.** `Edit.step` edits a line, and emits it with its end; `Ctrl-C` cancels it.  Every
  byte carries its position in the input, so that a byte that is emitted can be told from the same
  byte of a line that was cancelled (`Edit.Ok`).
* **The terminal.** `Tty.Shows t q line`: the ring buffer has the bytes `q` and the line is `line`.
  `processByte_shows` is one byte of input: what the editor emits is offered to the ring, which
  drops what does not fit.  `Tty.readLoop` is the loop of `Tty::read`.
* **The result.** A `TtyTrace` remembers all input and all bytes that were read.  In every state
  that is reached (`tty_line_editor`) the bytes read are a sublist of what the editor has emitted,
  none of them is part of a cancelled line, and the line is never longer than 255; as long as there
  are never more than 4095 unread bytes, they are the beginning of what the editor has emitted. -/

namespace Vibix.Proc

open Ring

/-! ### The editor -/

/-- A byte of the input, with its position. -/
abbrev Typed := BitVec 8 × ℕ

/-- The line being edited, what has been emitted, and the bytes of the lines that were cancelled. -/
structure Edit where
  line : List Typed
  out : List Typed
  cancelled : List Typed

/-- The end of a line, as it is emitted. -/
def newline (x : Typed) : Typed := (0x0a#8, x.2)

/-- Editing with one byte of input. -/
def Edit.step (e : Edit) (x : Typed) : Edit :=
  if x.1 = 0x08#8 ∨ x.1 = 0x7f#8 then { e with line := e.line.dropLast }
  else if x.1 = 0x03#8 then ⟨[], e.out ++ [newline x], e.cancelled ++ e.line⟩
  else if x.1 = 0x0d#8 ∨ x.1 = 0x0a#8 then ⟨[], e.out ++ (e.line ++ [newline x]), e.cancelled⟩
  else if x.1 = 0x09#8 ∨ 0x20#8 ≤ x.1 then
    if e.line.length < 255 then { e with line := e.line ++ [x] } else e
  else e

/-- The editor after the given input. -/
def edited (input : List (BitVec 8)) : Edit := input.zipIdx.foldl Edit.step ⟨[], [], []⟩

theorem edited_snoc (input : List (BitVec 8)) (c : BitVec 8) :
    edited (input ++ [c]) = (edited input).step (c, input.length) := by
  unfold edited
  rw [List.zipIdx_append, List.foldl_append]
  simp

/-- What one byte of input makes the editor emit. -/
def Edit.emits (e : Edit) (x : Typed) : List Typed :=
  if x.1 = 0x03#8 then [newline x]
  else if x.1 = 0x0d#8 ∨ x.1 = 0x0a#8 then e.line ++ [newline x]
  else []

theorem Edit.step_out (e : Edit) (x : Typed) : (e.step x).out = e.out ++ e.emits x := by
  unfold Edit.step Edit.emits
  by_cases hback : x.1 = 0x08#8 ∨ x.1 = 0x7f#8
  · rw [if_pos hback, if_neg, if_neg, List.append_nil]
    · rcases hback with h | h <;> rw [h] <;> decide
    · rcases hback with h | h <;> rw [h] <;> decide
  rw [if_neg hback]
  split_ifs <;> simp

/-- The positions of all bytes. -/
def Edit.positions (e : Edit) : List ℕ := (e.out ++ e.cancelled ++ e.line).map Prod.snd

/-- No position occurs twice, and all are below `n`. -/
structure Edit.Ok (n : ℕ) (e : Edit) : Prop where
  nodup : e.positions.Nodup
  below : ∀ i ∈ e.positions, i < n

/-- Bytes may be left out, and a new one added. -/
theorem Edit.Ok.mono {n : ℕ} {e e' : Edit} (h : e.Ok n)
    (hsub : e'.positions.Subperm (n :: e.positions)) : e'.Ok (n + 1) := by
  have hnew : n ∉ e.positions := fun hmem => lt_irrefl n (h.below n hmem)
  obtain ⟨l, hperm, hl⟩ := hsub
  refine ⟨hperm.nodup_iff.mp ((List.nodup_cons.mpr ⟨hnew, h.nodup⟩).sublist hl), fun i hi => ?_⟩
  rcases List.mem_cons.mp (hl.subset (hperm.mem_iff.mpr hi)) with rfl | hold
  · exact Nat.lt_succ_self i
  · exact Nat.lt_succ_of_lt (h.below i hold)

theorem Edit.Ok.step {n : ℕ} {e : Edit} (h : e.Ok n) (c : BitVec 8) :
    (e.step (c, n)).Ok (n + 1) := by
  refine h.mono ?_
  unfold Edit.step
  split_ifs
  · refine List.Sublist.subperm (.cons n (List.Sublist.map _ ?_))
    exact (List.dropLast_sublist e.line).append_left _
  · refine List.Perm.subperm ?_
    simp only [Edit.positions, newline, List.map_append, List.map_cons, List.append_nil,
      List.append_assoc, List.singleton_append]
    exact List.perm_middle
  · refine List.Perm.subperm ?_
    simp only [Edit.positions, newline, List.map_append, List.map_cons, List.append_nil,
      List.append_assoc, List.singleton_append]
    rw [← List.append_assoc]
    refine List.perm_middle.trans (.cons n ?_)
    rw [List.append_assoc]
    exact List.perm_append_comm.append_left _
  · refine List.Perm.subperm ?_
    simp only [Edit.positions, List.map_append, List.map_cons, List.map_nil]
    rw [← List.append_assoc]
    exact List.perm_append_singleton n _
  · exact (List.sublist_cons_self n e.positions).subperm
  · exact (List.sublist_cons_self n e.positions).subperm

theorem edited_ok (input : List (BitVec 8)) : (edited input).Ok input.length := by
  induction input using List.reverseRecOn with
  | nil => exact ⟨List.nodup_nil, nofun⟩
  | append_singleton input c ih =>
    rw [edited_snoc, List.length_append, List.length_singleton]
    exact ih.step c

theorem Edit.Ok.out_nodup {n : ℕ} {e : Edit} (h : e.Ok n) : (e.out.map Prod.snd).Nodup := by
  have hnodup := h.nodup
  rw [Edit.positions, List.append_assoc, List.map_append] at hnodup
  exact (List.nodup_append.mp hnodup).1

/-- A byte of a cancelled line is not emitted. -/
theorem Edit.Ok.cancelled_not_emitted {n : ℕ} {e : Edit} (h : e.Ok n) {x y : Typed}
    (hx : x ∈ e.cancelled) (hy : y ∈ e.out) : y.2 ≠ x.2 := by
  have hnodup := h.nodup
  rw [Edit.positions, List.append_assoc, List.map_append] at hnodup
  exact (List.nodup_append.mp hnodup).2.2 y.2 (List.mem_map_of_mem hy) x.2
    (List.mem_map_of_mem (List.mem_append_left _ hx))

theorem Edit.line_length_le {e : Edit} (h : e.line.length ≤ 255) (x : Typed) :
    (e.step x).line.length ≤ 255 := by
  unfold Edit.step
  split_ifs with _ _ _ _ hroom
  · rw [List.length_dropLast]
    omega
  · exact Nat.zero_le _
  · exact Nat.zero_le _
  · rw [List.length_append, List.length_singleton]
    exact hroom
  · exact h
  · exact h

theorem edited_line_length_le (input : List (BitVec 8)) : (edited input).line.length ≤ 255 := by
  induction input using List.reverseRecOn with
  | nil => exact Nat.zero_le _
  | append_singleton input c ih =>
    rw [edited_snoc]
    exact Edit.line_length_le ih _

/-! ### The terminal -/

/-- The terminal is in canonical mode; the ring buffer has the bytes `q`, and the line is `line`. -/
structure Tty.Shows (t : Tty) (q line : List (BitVec 8)) : Prop where
  canonical : t.canonical = true
  tail_lt : t.tail < 4096
  ring : Holds 4096 4096 (fun c : Fin 4096 => t.buf c) t.tail t.head q
  line_eq : t.line = line

/-- Nothing but the process that waits is different. -/
def Tty.SameInput (t t' : Tty) : Prop :=
  t'.buf = t.buf ∧ t'.head = t.head ∧ t'.tail = t.tail ∧ t'.line = t.line ∧
    t'.canonical = t.canonical

/-- The loop of `Tty::read`: the bytes stored to a buffer of the given length. -/
def Tty.readLoop : ℕ → Tty → Tty × List (BitVec 8)
  | 0, t => (t, [])
  | len + 1, t =>
    if t.tail ≠ t.head then
      let r := readLoop len { t with tail := (t.tail + 1) % ttyBufSize }
      (r.1, t.buf t.tail :: r.2)
    else (t, [])

section Terminal

variable {s s' : System} {t t' : Tty} {q line : List (BitVec 8)} {b c : BitVec 8}

theorem Tty.Shows.congr (h : t.Shows q line) (hsame : t.SameInput t') : t'.Shows q line := by
  obtain ⟨hbuf, hhead, htail, hline, hcan⟩ := hsame
  refine ⟨hcan.trans h.canonical, htail ▸ h.tail_lt, ?_, hline.trans h.line_eq⟩
  rw [hbuf, hhead, htail]
  exact h.ring

theorem Tty.SameInput.refl (t : Tty) : t.SameInput t := ⟨rfl, rfl, rfl, rfl, rfl⟩

theorem Tty.Shows.head_lt (h : t.Shows q line) : t.head < 4096 := by
  rw [h.ring.tail_eq]
  exact Nat.mod_lt _ (by norm_num)

theorem wakeReader_sameInput (s : System) : s.tty.SameInput s.wakeReader.tty := by
  unfold System.wakeReader
  split
  next => exact .refl _
  dsimp only
  split
  next => exact ⟨rfl, rfl, rfl, rfl, rfl⟩
  next =>
    split
    next => exact ⟨rfl, rfl, rfl, rfl, rfl⟩
    next => exact ⟨rfl, rfl, rfl, rfl, rfl⟩

theorem Tty.Shows.store (h : t.Shows q line) (b : BitVec 8) :
    (t.store b).Shows (pushOrDrop 4095 q b) line := by
  have hhead := h.head_lt
  have hlen := h.ring.length_lt
  have hfull := h.ring.next_eq_iff h.tail_lt
  unfold Tty.store
  split
  next hroom =>
    refine ⟨h.canonical, h.tail_lt, ?_, h.line_eq⟩
    have hcells : (fun x : Fin 4096 => Function.update t.buf t.head b x) =
        fun x => if x = Fin.ofNat 4096 t.head then b else t.buf x := by
      funext x
      rw [Function.update_apply]
      congr 1
      rw [Fin.ext_iff, Fin.val_ofNat, Nat.mod_eq_of_lt hhead]
    rw [hcells]
    exact h.ring.pushOrDrop (by simp only [ttyBufSize] at hroom; omega)
  next hroom =>
    have hcap : q.length + 1 = 4096 := hfull.mp (not_not.mp hroom)
    rw [pushOrDrop, if_neg (by omega)]
    exact h

theorem pushByte_shows (h : s.tty.Shows q line) (b : BitVec 8) :
    (pushByte s b).tty.Shows (pushOrDrop 4095 q b) line :=
  (h.store b).congr (wakeReader_sameInput { s with tty := s.tty.store b })

theorem pushAll_shows (h : s.tty.Shows q line) (bs : List (BitVec 8)) :
    (bs.foldl pushByte s).tty.Shows (bs.foldl (pushOrDrop 4095) q) line := by
  induction bs generalizing s q with
  | nil => exact h
  | cons b bs ih => exact ih (pushByte_shows h b)

theorem Tty.Shows.setLine (h : t.Shows q line) (line' : List (BitVec 8)) :
    { t with line := line' }.Shows q line' :=
  ⟨h.canonical, h.tail_lt, h.ring, rfl⟩

theorem handleCtrlc_shows (h : s.tty.Shows q line) :
    (handleCtrlc s).tty.Shows (pushOrDrop 4095 q 0x0a#8) [] := by
  unfold handleCtrlc
  refine pushByte_shows ?_ _
  have hline := h.setLine []
  split
  next => exact hline
  next =>
    split
    next => exact hline.congr ⟨rfl, rfl, rfl, rfl, rfl⟩
    next =>
      split
      next => exact hline
      next => exact hline.congr ⟨rfl, rfl, rfl, rfl, rfl⟩

theorem handleEnter_shows (h : s.tty.Shows q line) :
    (handleEnter s).tty.Shows ((line ++ [0x0a#8]).foldl (pushOrDrop 4095) q) [] := by
  have hpush := pushByte_shows (pushAll_shows h line) 0x0a#8
  rw [List.foldl_append]
  unfold handleEnter
  rw [h.line_eq]
  exact hpush.setLine []

theorem handleChar_shows (h : s.tty.Shows q line) (c : BitVec 8) :
    (handleChar c s).tty.Shows q (if line.length < 255 then line ++ [c] else line) := by
  unfold handleChar lineMax
  rw [h.line_eq]
  by_cases hroom : line.length < 255
  · rw [if_pos hroom, if_pos hroom]
    exact h.setLine _
  · rw [if_neg hroom, if_neg hroom]
    exact h

/-- **One byte of input**: the line is edited, and what is emitted is offered to the ring. -/
theorem processByte_shows {Q : List Typed} {e : Edit}
    (h : s.tty.Shows (Q.map Prod.fst) (e.line.map Prod.fst)) (x : Typed) :
    (processByte s x.1).tty.Shows (((e.emits x).foldl (pushOrDrop 4095) Q).map Prod.fst)
      ((e.step x).line.map Prod.fst) := by
  rw [map_foldl_pushOrDrop]
  unfold processByte Edit.step Edit.emits
  rw [h.canonical, if_neg (by decide)]
  by_cases hback : x.1 = 0x08#8 ∨ x.1 = 0x7f#8
  · have hno : ¬ (x.1 = 0x03#8) ∧ ¬ (x.1 = 0x0d#8 ∨ x.1 = 0x0a#8) := by
      rcases hback with heq | heq <;> rw [heq] <;> decide
    rw [if_pos hback, if_pos hback, if_neg hno.1, if_neg hno.2, List.map_dropLast]
    unfold handleBackspace
    rw [h.line_eq]
    exact h.setLine _
  rw [if_neg hback, if_neg hback]
  by_cases hint : x.1 = 0x03#8
  · rw [if_pos hint, if_pos hint, if_pos hint]
    exact handleCtrlc_shows h
  rw [if_neg hint, if_neg hint, if_neg hint]
  by_cases henter : x.1 = 0x0d#8 ∨ x.1 = 0x0a#8
  · rw [if_pos henter, if_pos henter, if_pos henter, List.map_append]
    exact handleEnter_shows h
  rw [if_neg henter, if_neg henter, if_neg henter]
  -- the bytes that are added to the line
  have hchar : (handleChar x.1 s).tty.Shows (Q.map Prod.fst)
      ((if e.line.length < 255 then { e with line := e.line ++ [x] } else e).line.map Prod.fst) := by
    have hadd := handleChar_shows h x.1
    rw [List.length_map] at hadd
    split
    next hroom =>
      rw [if_pos hroom] at hadd
      simpa using hadd
    next hroom =>
      rw [if_neg hroom] at hadd
      exact hadd
  by_cases htab : x.1 = 0x09#8
  · rw [if_pos htab, if_pos (.inl htab)]
    exact hchar
  rw [if_neg htab]
  by_cases hesc : x.1 = 0x1b#8
  · rw [if_pos hesc, if_neg (by rw [hesc]; decide)]
    exact h
  rw [if_neg hesc]
  by_cases hprint : 0x20#8 ≤ x.1
  · rw [if_pos hprint, if_pos (.inr hprint)]
    exact hchar
  · rw [if_neg hprint, if_neg (not_or.mpr ⟨htab, hprint⟩)]
    exact h

/-! ### Reading -/

theorem Tty.Shows.available (h : t.Shows q line) : t.available = q.length := by
  have hused := h.ring.used (Nat.le_refl 4096) h.tail_lt
  have htail := h.tail_lt
  unfold Tty.available ttyBufSize
  rw [← hused]
  congr 1
  omega

/-- The loop takes the first bytes of the ring buffer. -/
theorem Tty.Shows.readLoop (len : ℕ) (h : t.Shows q line) :
    (t.readLoop len).2 = q.take len ∧ (t.readLoop len).1.Shows (q.drop len) line ∧
      (t.readLoop len).1 = { t with tail := (t.tail + min len q.length) % ttyBufSize } := by
  induction len generalizing t q with
  | zero =>
    refine ⟨rfl, h, ?_⟩
    rw [Nat.zero_min, Nat.add_zero, ttyBufSize, Nat.mod_eq_of_lt h.tail_lt]
    rfl
  | succ len ih =>
    have hempty := h.ring.eq_iff h.tail_lt
    unfold Tty.readLoop
    cases q with
    | nil =>
      rw [if_neg (not_not.mpr (hempty.mpr rfl))]
      refine ⟨rfl, h, ?_⟩
      rw [List.length_nil, Nat.min_zero, Nat.add_zero, ttyBufSize, Nat.mod_eq_of_lt h.tail_lt]
    | cons b q =>
      obtain ⟨hfirst, hrest⟩ := h.ring.pop (dvd_refl 4096)
      have hne : t.tail ≠ t.head := fun heq => by cases hempty.mp heq
      have hcell : t.buf t.tail = b := by
        rw [← hfirst, Fin.val_ofNat, Nat.mod_eq_of_lt h.tail_lt]
      obtain ⟨hbytes, hshows, htty⟩ := ih (t := { t with tail := (t.tail + 1) % ttyBufSize })
        ⟨h.canonical, Nat.mod_lt _ (by norm_num [ttyBufSize]), hrest, h.line_eq⟩
      rw [if_pos hne]
      refine ⟨?_, hshows, ?_⟩
      · rw [List.take_succ_cons, ← hbytes, hcell]
      · dsimp only at htty ⊢
        rw [htty, List.length_cons, Nat.add_min_add_right, Nat.mod_add_mod]
        congr 2
        omega

/-- **`Tty::read`** returns as many bytes as the loop takes. -/
theorem ttyRead_shows {len : ℕ} {input : List (BitVec 8)} {rc : ℤ}
    (h : (processInput input s).tty.Shows q line) (hrun : ttyRead len input s = .ok (s', rc)) :
    s'.tty.Shows (q.drop len) line ∧
      rc = (((processInput input s).tty.readLoop len).2.length : ℤ) := by
  obtain ⟨hbytes, hshows, htty⟩ := h.readLoop len
  unfold ttyRead at hrun
  dsimp only at hrun
  split at hrun
  next hne =>
    cases hrun
    rw [h.available, hbytes, List.length_take]
    refine ⟨?_, rfl⟩
    rw [htty] at hshows
    exact hshows
  next heq =>
    obtain rfl : q = [] := (h.ring.eq_iff h.tail_lt).mp (not_not.mp heq)
    rw [hbytes, List.drop_nil]
    split at hrun
    next =>
      cases hrun
      exact ⟨h, by simp⟩
    next =>
      split at hrun
      next => cases hrun
      next =>
        cases hrun
        exact ⟨h.congr ⟨rfl, rfl, rfl, rfl, rfl⟩, by simp⟩

/-- **`Tty::process_input`**: what the editor emits for the input is offered to the ring. -/
theorem processInput_shows {Q : List Typed} {bytes : List (BitVec 8)} (input : List (BitVec 8))
    (h : s.tty.Shows (Q.map Prod.fst) ((edited bytes).line.map Prod.fst)) :
    ∃ L, (edited (bytes ++ input)).out = (edited bytes).out ++ L ∧
      (processInput input s).tty.Shows ((L.foldl (pushOrDrop 4095) Q).map Prod.fst)
        ((edited (bytes ++ input)).line.map Prod.fst) := by
  induction input generalizing s Q bytes with
  | nil =>
    rw [List.append_nil]
    exact ⟨[], (List.append_nil _).symm, h⟩
  | cons c input ih =>
    have hbyte := processByte_shows h (c, bytes.length)
    rw [← edited_snoc] at hbyte
    obtain ⟨L, hout, hshows⟩ := ih hbyte
    rw [List.append_assoc, List.singleton_append] at hout hshows
    refine ⟨(edited bytes).emits (c, bytes.length) ++ L, ?_, ?_⟩
    · rw [hout, edited_snoc, Edit.step_out, List.append_assoc]
    · rw [List.foldl_append]
      exact hshows

end Terminal

/-! ### Runs -/

/-- The system, all input so far, and all bytes that reads have returned. -/
structure TtyTrace where
  sys : System
  bytes : List (BitVec 8)
  got : List (BitVec 8)

/-- Nothing has been typed yet. -/
def TtyTrace.start (s : System) : TtyTrace := ⟨s, [], []⟩

/-- `Tty::process_byte`, `Tty::read` into a buffer of `len` bytes, given what the keyboard and the
serial line had, or something else. -/
inductive TtyEvent where
  | byte (c : BitVec 8)
  | read (len : ℕ) (input : List (BitVec 8))
  | other

/-- What happens to the terminal. -/
inductive TtyTrace.Step : TtyTrace → TtyEvent → TtyTrace → Prop
  | byte {t : TtyTrace} (c : BitVec 8) :
      Step t (.byte c) ⟨processByte t.sys c, t.bytes ++ [c], t.got⟩
  | read {t : TtyTrace} {len : ℕ} {input : List (BitVec 8)} {s' : System} {rc : ℤ}
      (hrun : ttyRead len input t.sys = .ok (s', rc)) :
      Step t (.read len input)
        ⟨s', t.bytes ++ input, t.got ++ ((processInput input t.sys).tty.readLoop len).2⟩
  | other {t : TtyTrace} {s' : System} (hsame : t.sys.tty.SameInput s'.tty) :
      Step t .other { t with sys := s' }

/-- At most 4095 bytes are unread when the input of the step is there. -/
def TtyTrace.Roomy (t u : TtyTrace) : Prop :=
  (edited u.bytes).out.length ≤ t.got.length + 4095

/-- The bytes `G` have been read, and the bytes `Q` have not. -/
structure TtyTrace.Accounts (t : TtyTrace) (G Q : List Typed) : Prop where
  got : G.map Prod.fst = t.got
  shows : t.sys.tty.Shows (Q.map Prod.fst) ((edited t.bytes).line.map Prod.fst)

namespace TtyTrace

variable {t u : TtyTrace} {G Q : List Typed} {e : TtyEvent}

/-- **One step**: some bytes are offered to the ring, and then some are read. -/
theorem Accounts.step (h : t.Accounts G Q) (hstep : Step t e u) :
    ∃ L G' Q', (edited u.bytes).out = (edited t.bytes).out ++ L ∧
      G' ++ Q' = G ++ L.foldl (pushOrDrop 4095) Q ∧ u.Accounts G' Q' := by
  cases hstep with
  | byte c =>
    obtain ⟨L, hout, hshows⟩ := processInput_shows [c] h.shows
    exact ⟨L, G, _, hout, rfl, h.got, hshows⟩
  | @read len input s' rc hrun =>
    obtain ⟨L, hout, hshows⟩ := processInput_shows input h.shows
    obtain ⟨hleft, -⟩ := ttyRead_shows hshows hrun
    refine ⟨L, G ++ (L.foldl (pushOrDrop 4095) Q).take len,
      (L.foldl (pushOrDrop 4095) Q).drop len, hout, ?_, ?_, ?_⟩
    · rw [List.append_assoc, List.take_append_drop]
    · rw [List.map_append, List.map_take, h.got, (hshows.readLoop len).1]
    · rw [List.map_drop]
      exact hleft
  | other hsame => exact ⟨[], G, Q, (List.append_nil _).symm, rfl, h.got, h.shows.congr hsame⟩

theorem accounts_start {s : System} (hnew : s.tty = Tty.new) :
    Accounts (start s) [] [] := by
  refine ⟨rfl, ?_⟩
  show s.tty.Shows [] []
  rw [hnew]
  exact ⟨rfl, by decide, .empty (by decide), rfl⟩

theorem Accounts.line_length_le (h : t.Accounts G Q) : t.sys.tty.line.length ≤ 255 := by
  rw [h.shows.line_eq, List.length_map]
  exact edited_line_length_le t.bytes

theorem accounts_run {s : System} (hnew : s.tty = Tty.new) {es : List TtyEvent}
    (hrun : Run Step (start s) es t) :
    ∃ G Q, t.Accounts G Q ∧ (G ++ Q).Sublist (edited t.bytes).out := by
  refine hrun.invariant
    (P := fun t : TtyTrace => ∃ G Q : List Typed,
      t.Accounts G Q ∧ (G ++ Q).Sublist (edited t.bytes).out)
    ⟨[], [], accounts_start hnew, List.nil_sublist _⟩ ?_
  rintro t e u ⟨G, Q, h, hsub⟩ hstep
  obtain ⟨L, G', Q', hout, heq, h'⟩ := h.step hstep
  refine ⟨G', Q', h', ?_⟩
  rw [heq, hout]
  have hoffered : (G ++ L.foldl (pushOrDrop 4095) Q).Sublist (G ++ Q ++ L) := by
    rw [List.append_assoc]
    exact (foldl_pushOrDrop_sublist _ _ _).append_left G
  exact hoffered.trans (hsub.append_right L)

/-- As long as there is room, nothing is lost. -/
theorem accounts_roomy {s : System} (hnew : s.tty = Tty.new) {es : List TtyEvent}
    (hrun : Run (fun t e u => Step t e u ∧ Roomy t u) (start s) es t) :
    ∃ G Q, t.Accounts G Q ∧ G ++ Q = (edited t.bytes).out := by
  refine hrun.invariant
    (P := fun t : TtyTrace => ∃ G Q : List Typed, t.Accounts G Q ∧ G ++ Q = (edited t.bytes).out)
    ⟨[], [], accounts_start hnew, rfl⟩ ?_
  rintro t e u ⟨G, Q, h, hall⟩ ⟨hstep, hroom⟩
  obtain ⟨L, G', Q', hout, heq, h'⟩ := h.step hstep
  have hlen : Q.length + L.length ≤ 4095 := by
    rw [Roomy, hout, ← hall, ← h.got, List.length_map] at hroom
    simp only [List.length_append] at hroom
    omega
  refine ⟨G', Q', h', ?_⟩
  rw [heq, hout, foldl_pushOrDrop_of_le hlen, ← hall, List.append_assoc]

end TtyTrace

/-- **The terminal is a line editor.**  Whatever is typed, and whenever it is read: the bytes that
were read are part of what the editor has emitted, in this order and each at most once, and none
of them is of a line that was cancelled.  If there were never more than 4095 unread bytes, they are
the beginning of it.  The line never has more than 255 bytes. -/
theorem tty_line_editor {s : System} (hnew : s.tty = Tty.new) {es : List TtyEvent} {t : TtyTrace}
    (hrun : Run TtyTrace.Step (.start s) es t) :
    (∃ G : List Typed, G.map Prod.fst = t.got ∧ G.Sublist (edited t.bytes).out ∧
      (G.map Prod.snd).Nodup ∧ ∀ x ∈ (edited t.bytes).cancelled, ∀ y ∈ G, y.2 ≠ x.2) ∧
    t.sys.tty.line.length ≤ 255 ∧
    (Run (fun t e u => TtyTrace.Step t e u ∧ t.Roomy u) (.start s) es t →
      t.got <+: (edited t.bytes).out.map Prod.fst) := by
  obtain ⟨G, Q, h, hsub⟩ := TtyTrace.accounts_run hnew hrun
  have hG : G.Sublist (edited t.bytes).out := (List.sublist_append_left G Q).trans hsub
  have hok := edited_ok t.bytes
  refine ⟨⟨G, h.got, hG, hok.out_nodup.sublist (hG.map _), fun x hx y hy => ?_⟩,
    h.line_length_le, fun hroomy => ?_⟩
  · exact hok.cancelled_not_emitted hx (hG.subset hy)
  · obtain ⟨G, Q, h, hall⟩ := TtyTrace.accounts_roomy hnew hroomy
    rw [← h.got, ← hall, List.map_append]
    exact List.prefix_append _ _

theorem tty_line_editor_cancel : ∃ t,
    Run TtyTrace.Step (.start quietBoot) [.read 3 [0x61#8, 0x03#8, 0x62#8, 0x0d#8]] t ∧
    t.got = [0x0a#8, 0x62#8, 0x0a#8] ∧
    (∃ G : List Typed, G.map Prod.fst = t.got ∧ G.Sublist (edited t.bytes).out ∧
      (G.map Prod.snd).Nodup ∧ ∀ x ∈ (edited t.bytes).cancelled, ∀ y ∈ G, y.2 ≠ x.2) ∧
    t.sys.tty.line.length ≤ 255 := by
  have hok : ∃ r, ttyRead 3 [0x61#8, 0x03#8, 0x62#8, 0x0d#8] quietBoot = .ok r := by
    decide +kernel
  obtain ⟨⟨s', rc⟩, hread⟩ := hok
  have hrun := Run.single (TtyTrace.Step.read (t := .start quietBoot) hread)
  have hedit := tty_line_editor rfl hrun
  refine ⟨_, hrun, ?_, hedit.1, hedit.2.1⟩
  show ((processInput _ quietBoot).tty.readLoop 3).2 = _
  decide +kernel

end Vibix.Proc
