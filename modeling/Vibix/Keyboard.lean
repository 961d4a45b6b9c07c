import Vibix.Lib.Ring

/-! # The keyboard

`keyboard.rs`: scan codes of set 1 become bytes in a ring of 256 cells, of which one stays empty.
The driver has one flag for both shift keys.

* **The code.** `handleKeyboard` is one interrupt, with what the data port has, if anything;
  `Keyboard.read` is `read`.
* **The keys.** `Shifts` has the two shift keys, each held from its make code to its break code;
  `byteOf` is the byte that a make code stands for.  `unread` is the queue of the bytes that should
  be there to be read, with room for 255.
* **The results.** The flag says whether the last code of a shift key was a make code
  (`flag_eq`), so it is never set while no shift key is held (`held_of_flag`).  It can be clear
  while one is: after both were pressed and one was released.  `keyboard_iff` says that the driver
  gives the right bytes, in order, exactly if no key is pressed in that situation. -/

namespace Vibix

/-- `SCANCODE_MAKE`. -/
def scancodeMake : ℕ → Option (BitVec 8)
  | 0x02 => some 0x31 | 0x03 => some 0x32 | 0x04 => some 0x33 | 0x05 => some 0x34
  | 0x06 => some 0x35 | 0x07 => some 0x36 | 0x08 => some 0x37 | 0x09 => some 0x38
  | 0x0A => some 0x39 | 0x0B => some 0x30
  -- q w e r t y u i o p
  | 0x10 => some 0x71 | 0x11 => some 0x77 | 0x12 => some 0x65 | 0x13 => some 0x72
  | 0x14 => some 0x74 | 0x15 => some 0x79 | 0x16 => some 0x75 | 0x17 => some 0x69
  | 0x18 => some 0x6f | 0x19 => some 0x70
  -- a s d f g h j k l
  | 0x1E => some 0x61 | 0x1F => some 0x73 | 0x20 => some 0x64 | 0x21 => some 0x66
  | 0x22 => some 0x67 | 0x23 => some 0x68 | 0x24 => some 0x6a | 0x25 => some 0x6b
  | 0x26 => some 0x6c
  -- z x c v b n m
  | 0x2C => some 0x7a | 0x2D => some 0x78 | 0x2E => some 0x63 | 0x2F => some 0x76
  | 0x30 => some 0x62 | 0x31 => some 0x6e | 0x32 => some 0x6d
  -- space, enter, backspace, tab
  | 0x39 => some 0x20 | 0x1C => some 0x0a | 0x0E => some 0x08 | 0x0F => some 0x09
  | _ => none

/-- `SCANCODE_MAKE_SHIFT`. -/
def scancodeMakeShift : ℕ → Option (BitVec 8)
  -- ! @ # $ % ^ & * ( )
  | 0x02 => some 0x21 | 0x03 => some 0x40 | 0x04 => some 0x23 | 0x05 => some 0x24
  | 0x06 => some 0x25 | 0x07 => some 0x5e | 0x08 => some 0x26 | 0x09 => some 0x2a
  | 0x0A => some 0x28 | 0x0B => some 0x29
  | 0x10 => some 0x51 | 0x11 => some 0x57 | 0x12 => some 0x45 | 0x13 => some 0x52
  | 0x14 => some 0x54 | 0x15 => some 0x59 | 0x16 => some 0x55 | 0x17 => some 0x49
  | 0x18 => some 0x4f | 0x19 => some 0x50
  | 0x1E => some 0x41 | 0x1F => some 0x53 | 0x20 => some 0x44 | 0x21 => some 0x46
  | 0x22 => some 0x47 | 0x23 => some 0x48 | 0x24 => some 0x4a | 0x25 => some 0x4b
  | 0x26 => some 0x4c
  | 0x2C => some 0x5a | 0x2D => some 0x58 | 0x2E => some 0x43 | 0x2F => some 0x56
  | 0x30 => some 0x42 | 0x31 => some 0x4e | 0x32 => some 0x4d
  | _ => none

/-- The length of both tables. -/
def scancodeTableLen : ℕ := 0x3B

/-- The table that the state of the shift keys selects. -/
def scancodeTable (shifted : Bool) : ℕ → Option (BitVec 8) :=
  if shifted then scancodeMakeShift else scancodeMake

/-- The statics of the driver. -/
structure Keyboard where
  buf : Fin 256 → BitVec 8
  head : ℕ
  tail : ℕ
  shift : Bool

namespace Keyboard

/-- The driver at boot. -/
def new : Keyboard := ⟨fun _ => 0, 0, 0, false⟩

/-- A byte is stored, or dropped if the next cell is the one to be read. -/
def push (k : Keyboard) (byte : BitVec 8) : Keyboard :=
  let nextHead := (k.head + 1) % 256
  if nextHead ≠ k.tail then
    { k with
      buf := fun c => if c = Fin.ofNat 256 k.head then byte else k.buf c
      head := nextHead }
  else k

/-- `handle_keyboard`, with what is in the data port. -/
def handleKeyboard (port : Option (BitVec 8)) (k : Keyboard) : Keyboard :=
  match port with
  -- a spurious interrupt
  | none => k
  | some scancode =>
    if scancode = 0xE0 ∨ scancode = 0xE1 then k
    else if scancode = 0x2A ∨ scancode = 0x36 then { k with shift := true }
    else if scancode = 0xAA ∨ scancode = 0xB6 then { k with shift := false }
    else if scancode &&& 0x80 ≠ 0 then k
    else if scancodeTableLen ≤ scancode.toNat then k
    else
      match scancodeTable k.shift scancode.toNat with
      | some byte => k.push byte
      | none => k

/-- `read`, into a buffer of the given length: the bytes stored there. -/
def read : ℕ → Keyboard → Keyboard × List (BitVec 8)
  | 0, k => (k, [])
  | len + 1, k =>
    if k.head ≠ k.tail then
      let r := read len { k with tail := (k.tail + 1) % 256 }
      (r.1, k.buf (Fin.ofNat 256 k.tail) :: r.2)
    else (k, [])

end Keyboard

/-- What happens to the driver: an interrupt, or a call of `read`. -/
inductive KeyEvent where
  | irq (port : Option (BitVec 8))
  | read (len : ℕ)
deriving DecidableEq

/-- The driver after an event. -/
def Keyboard.step (k : Keyboard) : KeyEvent → Keyboard
  | .irq port => k.handleKeyboard port
  | .read len => (k.read len).1

/-- The driver after the events since boot. -/
def Keyboard.after (es : List KeyEvent) : Keyboard := es.foldl Keyboard.step Keyboard.new

/-! ### The shift keys -/

/-- Which of the two shift keys are held. -/
structure Shifts where
  left : Bool
  right : Bool
deriving DecidableEq

namespace Shifts

/-- One of them is held. -/
def held (s : Shifts) : Bool := s.left || s.right

/-- A key is held from its make code to its own break code. -/
def step (s : Shifts) : KeyEvent → Shifts
  | .irq (some scancode) =>
    if scancode = 0x2A then { s with left := true }
    else if scancode = 0xAA then { s with left := false }
    else if scancode = 0x36 then { s with right := true }
    else if scancode = 0xB6 then { s with right := false }
    else s
  | _ => s

/-- The shift keys after the events since boot. -/
def after (es : List KeyEvent) : Shifts := es.foldl step ⟨false, false⟩

end Shifts

/-- Whether the last code of a shift key was a make code, after one more event. -/
def KeyEvent.shiftDown (down : Bool) : KeyEvent → Bool
  | .irq (some scancode) =>
    if scancode = 0x2A ∨ scancode = 0x36 then true
    else if scancode = 0xAA ∨ scancode = 0xB6 then false
    else down
  | _ => down

/-- The last code of a shift key, if there was one, was a make code. -/
def lastShiftDown (es : List KeyEvent) : Bool := es.foldl KeyEvent.shiftDown false

/-- The make code of a key other than the two shift keys. -/
def isOtherMake (scancode : BitVec 8) : Bool :=
  scancode.toNat < 0x80 && scancode != 0x2A#8 && scancode != 0x36#8

/-- The byte that a code stands for, with shift held or not. -/
def byteOf (shifted : Bool) : Option (BitVec 8) → Option (BitVec 8)
  | some scancode => if isOtherMake scancode then scancodeTable shifted scancode.toNat else none
  | none => none

/-- What an event does to the bytes that have not been read: a byte is added, unless 255 are there,
or some are taken. -/
def KeyEvent.queue (shifted : Bool) (q : List (BitVec 8)) : KeyEvent → List (BitVec 8)
  | .irq port =>
    match byteOf shifted port with
    | some byte => Ring.pushOrDrop 255 q byte
    | none => q
  | .read len => q.drop len

/-- The bytes that should be there to be read after the events since boot, and the shift keys. -/
def expected (es : List KeyEvent) : Shifts × List (BitVec 8) :=
  es.foldl (fun r e => (r.1.step e, e.queue r.1.held r.2)) (⟨false, false⟩, [])

/-- The bytes that should be there to be read. -/
def unread (es : List KeyEvent) : List (BitVec 8) := (expected es).2

section

variable {k : Keyboard} {es : List KeyEvent} {e : KeyEvent} {q : List (BitVec 8)}
  {port : Option (BitVec 8)}

theorem shifts_snoc (es : List KeyEvent) (e : KeyEvent) :
    Shifts.after (es ++ [e]) = (Shifts.after es).step e := by
  rw [Shifts.after, List.foldl_append]
  rfl

theorem after_snoc (es : List KeyEvent) (e : KeyEvent) :
    Keyboard.after (es ++ [e]) = (Keyboard.after es).step e := by
  rw [Keyboard.after, List.foldl_append]
  rfl

theorem expected_shifts (es : List KeyEvent) : (expected es).1 = Shifts.after es := by
  induction es using List.reverseRecOn with
  | nil => rfl
  | append_singleton es e ih =>
    rw [shifts_snoc, ← ih, expected, List.foldl_append]
    rfl

theorem unread_snoc (es : List KeyEvent) (e : KeyEvent) :
    unread (es ++ [e]) = e.queue (Shifts.after es).held (unread es) := by
  rw [← expected_shifts, unread, expected, List.foldl_append]
  rfl

/-! ### The driver's queue -/

/-- The bytes in the ring. -/
def Keyboard.Queue (k : Keyboard) (q : List (BitVec 8)) : Prop :=
  k.tail < 256 ∧ Ring.Holds 256 256 k.buf k.tail k.head q

theorem Keyboard.Queue.push (h : k.Queue q) (byte : BitVec 8) :
    (k.push byte).Queue (Ring.pushOrDrop 255 q byte) := by
  obtain ⟨htail, hring⟩ := h
  have hlen := hring.length_lt
  have hfull := hring.next_eq_iff htail
  unfold Keyboard.push
  dsimp only
  split
  next hroom => exact ⟨htail, hring.pushOrDrop (by omega)⟩
  next hroom =>
    have hcap : q.length + 1 = 256 := hfull.mp (not_not.mp hroom)
    rw [Ring.pushOrDrop, if_neg (by omega)]
    exact ⟨htail, hring⟩

/-- A read returns the first bytes. -/
theorem Keyboard.Queue.read (len : ℕ) (h : k.Queue q) :
    (k.read len).2 = q.take len ∧ (k.read len).1.Queue (q.drop len) := by
  induction len generalizing k q with
  | zero => exact ⟨rfl, h⟩
  | succ len ih =>
    obtain ⟨htail, hring⟩ := h
    have hempty := hring.eq_iff htail
    unfold Keyboard.read
    cases q with
    | nil =>
      rw [if_neg (not_not.mpr (hempty.mpr rfl).symm)]
      exact ⟨rfl, htail, hring⟩
    | cons b q =>
      obtain ⟨hfirst, hrest⟩ := hring.pop (dvd_refl 256)
      have hne : k.head ≠ k.tail := fun heq => by cases hempty.mp heq.symm
      obtain ⟨hbytes, hqueue⟩ := ih (k := { k with tail := (k.tail + 1) % 256 }) (q := q)
        ⟨Nat.mod_lt _ (by norm_num), hrest⟩
      rw [if_pos hne]
      refine ⟨?_, hqueue⟩
      rw [List.take_succ_cons, ← hbytes, ← hfirst]

/-- The branches of `handle_keyboard` in which no byte is stored are codes that stand for none. -/
theorem byteOf_eq (shifted : Bool) (scancode : BitVec 8) :
    byteOf shifted (some scancode) =
      if scancode = 0xE0 ∨ scancode = 0xE1 then none
      else if scancode = 0x2A ∨ scancode = 0x36 then none
      else if scancode = 0xAA ∨ scancode = 0xB6 then none
      else if scancode &&& 0x80 ≠ 0 then none
      else if scancodeTableLen ≤ scancode.toNat then none
      else scancodeTable shifted scancode.toNat := by
  revert scancode
  cases shifted <;> decide +kernel

/-- An interrupt adds the byte that the code stands for, going by the flag. -/
theorem Keyboard.Queue.handle (h : k.Queue q) (port : Option (BitVec 8)) :
    (k.handleKeyboard port).Queue (KeyEvent.queue k.shift q (.irq port)) := by
  cases port with
  | none => exact h
  | some scancode =>
    rw [KeyEvent.queue, byteOf_eq, Keyboard.handleKeyboard]
    split_ifs
    · exact h
    · exact h
    · exact h
    · exact h
    · exact h
    · cases scancodeTable k.shift scancode.toNat with
      | none => exact h
      | some byte => exact h.push byte

theorem Keyboard.Queue.step (h : k.Queue q) (e : KeyEvent) :
    (k.step e).Queue (e.queue k.shift q) := by
  cases e with
  | irq port => exact h.handle port
  | read len => exact (h.read len).2

/-! ### The flag -/

@[simp] theorem Keyboard.push_shift (k : Keyboard) (byte : BitVec 8) :
    (k.push byte).shift = k.shift := by
  unfold Keyboard.push
  dsimp only
  split <;> rfl

@[simp] theorem Keyboard.read_shift (k : Keyboard) (len : ℕ) : (k.read len).1.shift = k.shift := by
  induction len generalizing k with
  | zero => rfl
  | succ len ih =>
    unfold Keyboard.read
    split
    next => exact ih _
    next => rfl

theorem Keyboard.step_shift (k : Keyboard) (e : KeyEvent) :
    (k.step e).shift = e.shiftDown k.shift := by
  cases e with
  | read len => exact k.read_shift len
  | irq port =>
    cases port with
    | none => rfl
    | some scancode =>
      unfold Keyboard.step Keyboard.handleKeyboard KeyEvent.shiftDown
      dsimp only
      by_cases hpre : scancode = 0xE0 ∨ scancode = 0xE1
      · rcases hpre with rfl | rfl <;> rfl
      rw [if_neg hpre]
      split_ifs
      · rfl
      · rfl
      · rfl
      · rfl
      · split
        · rw [Keyboard.push_shift]
        · rfl

/-- **The flag** says whether the last code of a shift key was a make code. -/
theorem flag_eq (es : List KeyEvent) : (Keyboard.after es).shift = lastShiftDown es := by
  induction es using List.reverseRecOn with
  | nil => rfl
  | append_singleton es e ih =>
    rw [after_snoc, Keyboard.step_shift, ih, lastShiftDown, lastShiftDown, List.foldl_append]
    rfl

/-- The flag is clear when no shift key is held. -/
theorem held_of_flag (es : List KeyEvent) (h : lastShiftDown es = true) :
    (Shifts.after es).held = true := by
  induction es using List.reverseRecOn with
  | nil => cases h
  | append_singleton es e ih =>
    rw [shifts_snoc]
    have hsnoc : lastShiftDown (es ++ [e]) = e.shiftDown (lastShiftDown es) := by
      rw [lastShiftDown, List.foldl_append]
      rfl
    rw [hsnoc] at h
    cases e with
    | read len => exact ih h
    | irq port =>
      cases port with
      | none => exact ih h
      | some scancode =>
        unfold KeyEvent.shiftDown at h
        unfold Shifts.step
        dsimp only at h ⊢
        split_ifs at h with hmake hbreak
        · rcases hmake with rfl | rfl
          · rfl
          · simp [Shifts.held]
        · rw [not_or] at hmake hbreak
          rw [if_neg hmake.1, if_neg hbreak.1, if_neg hmake.2, if_neg hbreak.2]
          exact ih h

/-! ### Both shift keys -/

/-- At every moment a read of any length returns the first of the bytes that should be there. -/
def KeyboardOk (es : List KeyEvent) : Prop :=
  ∀ pre, pre <+: es → ∀ len, ((Keyboard.after pre).read len).2 = (unread pre).take len

/-- After the events `pre` a key with an entry in the tables is pressed, and there is room for its
byte; a shift key is held, but the last code of a shift key was a break code. -/
def Confused (pre : List KeyEvent) (scancode : BitVec 8) : Prop :=
  isOtherMake scancode = true ∧ (scancodeMake scancode.toNat).isSome = true ∧
    (unread pre).length < 255 ∧ (Shifts.after pre).held = true ∧ lastShiftDown pre = false

/-- A key never has the same byte in both tables, and only the unshifted one has all keys. -/
theorem scancodeMakeShift_ne (scancode : BitVec 8) :
    (scancodeMake scancode.toNat = none → scancodeMakeShift scancode.toNat = none) ∧
      (scancodeMake scancode.toNat ≠ none →
        scancodeMake scancode.toNat ≠ scancodeMakeShift scancode.toNat) := by
  revert scancode
  decide +kernel

theorem after_queue (es : List KeyEvent) : ∃ q, (Keyboard.after es).Queue q := by
  induction es using List.reverseRecOn with
  | nil => exact ⟨[], by decide, .empty (by decide)⟩
  | append_singleton es e ih =>
    obtain ⟨q, hq⟩ := ih
    rw [after_snoc]
    exact ⟨_, hq.step e⟩

/-- What can be read determines what is in the ring. -/
theorem Keyboard.Queue.eq_of_reads {u : List (BitVec 8)} (h : k.Queue q)
    (hreads : ∀ len, (k.read len).2 = u.take len) : q = u := by
  have hall := hreads (max q.length u.length)
  rw [(h.read _).1, List.take_of_length_le (le_max_left _ _),
    List.take_of_length_le (le_max_right _ _)] at hall
  exact hall

theorem KeyboardOk.queue (h : KeyboardOk es) {pre : List KeyEvent} (hpre : pre <+: es) :
    (Keyboard.after pre).Queue (unread pre) := by
  obtain ⟨q, hq⟩ := after_queue pre
  rwa [hq.eq_of_reads (h pre hpre)] at hq

/-- In that situation the wrong byte is stored. -/
theorem Confused.queue_ne {pre : List KeyEvent} {scancode : BitVec 8} (h : Confused pre scancode) :
    KeyEvent.queue false (unread pre) (.irq (some scancode)) ≠
      KeyEvent.queue true (unread pre) (.irq (some scancode)) := by
  obtain ⟨hmake, hentry, hroom, -, -⟩ := h
  obtain ⟨byte, hbyte⟩ := Option.isSome_iff_exists.mp hentry
  have hne := (scancodeMakeShift_ne scancode).2 (by simp [hbyte])
  have hplain : byteOf false (some scancode) = some byte := by
    simp [byteOf, hmake, scancodeTable, hbyte]
  have hshifted : byteOf true (some scancode) = scancodeMakeShift scancode.toNat := by
    simp [byteOf, hmake, scancodeTable]
  intro heq
  simp only [KeyEvent.queue, hplain, hshifted] at heq
  rw [Ring.pushOrDrop, if_pos hroom] at heq
  cases hshift : scancodeMakeShift scancode.toNat with
  | none =>
    rw [hshift] at heq
    simpa using congrArg List.length heq
  | some byte' =>
    rw [hshift] at heq hne
    dsimp only at heq
    rw [Ring.pushOrDrop, if_pos hroom] at heq
    have hlast := List.append_cancel_left heq
    rw [hbyte] at hne
    exact hne (by rw [List.singleton_inj.mp hlast])

theorem queue_full {shifted : Bool} (h : ¬ q.length < 255) :
    KeyEvent.queue shifted q (.irq port) = q := by
  rw [KeyEvent.queue]
  cases byteOf shifted port with
  | none => rfl
  | some byte => exact if_neg h

/-- In every other situation the flag makes no difference. -/
theorem queue_eq_of_not_confused {pre : List KeyEvent} (e : KeyEvent)
    (h : ∀ scancode, e = .irq (some scancode) → ¬ Confused pre scancode) :
    e.queue (lastShiftDown pre) (unread pre) = e.queue (Shifts.after pre).held (unread pre) := by
  cases hflag : lastShiftDown pre with
  | true => rw [held_of_flag pre hflag]
  | false =>
    cases hheld : (Shifts.after pre).held with
    | false => rfl
    | true =>
      match e, h with
      | .read len, _ => rfl
      | .irq none, _ => rfl
      | .irq (some scancode), h =>
        have hnot := h scancode rfl
        by_cases hmake : isOtherMake scancode = true
        · cases hbyte : scancodeMake scancode.toNat with
          | none =>
            have hshift := (scancodeMakeShift_ne scancode).1 hbyte
            simp [KeyEvent.queue, byteOf, hmake, scancodeTable, hbyte, hshift]
          | some byte =>
            -- there is an entry, so there is no room, and nothing is stored either way
            have hfull : ¬ (unread pre).length < 255 := fun hroom =>
              hnot ⟨hmake, by simp [hbyte], hroom, hheld, hflag⟩
            rw [queue_full hfull, queue_full hfull]
        · simp [KeyEvent.queue, byteOf, hmake]

/-- **The driver tracks both shift keys** exactly in those sequences of interrupts and reads in which
no key is pressed while a shift key is held and the last code of a shift key was a break code. -/
theorem keyboard_iff (es : List KeyEvent) :
    KeyboardOk es ↔
      ∀ pre scancode post, es = pre ++ .irq (some scancode) :: post → ¬ Confused pre scancode := by
  constructor
  · rintro h pre scancode post rfl hconf
    have hq := h.queue (List.prefix_append pre _)
    have hstep : (Keyboard.after (pre ++ [.irq (some scancode)])).Queue
        (KeyEvent.queue false (unread pre) (.irq (some scancode))) := by
      rw [after_snoc, ← hconf.2.2.2.2, ← flag_eq]
      exact hq.step _
    have hpre : pre ++ [.irq (some scancode)] <+: pre ++ .irq (some scancode) :: post :=
      ⟨post, by simp⟩
    refine hconf.queue_ne ?_
    rw [hstep.eq_of_reads (h _ hpre), unread_snoc, hconf.2.2.2.1]
  · intro h
    have hqueue : ∀ pre, pre <+: es → (Keyboard.after pre).Queue (unread pre) := by
      intro pre
      induction pre using List.reverseRecOn with
      | nil => exact fun _ => ⟨by decide, .empty (by decide)⟩
      | append_singleton pre e ih =>
        rintro ⟨post, hes⟩
        have hq := ih ⟨e :: post, by rw [← hes]; simp⟩
        rw [after_snoc, unread_snoc, ← queue_eq_of_not_confused e, ← flag_eq]
        · exact hq.step e
        · rintro scancode rfl
          exact h pre scancode post (by rw [← hes]; simp)
    exact fun pre hpre len => ((hqueue pre hpre).read len).1

/-- Both shift keys are pressed, the right one is released, and then `a` is pressed. -/
def oneShiftReleased : List KeyEvent :=
  [.irq (some 0x2A), .irq (some 0x36), .irq (some 0xB6), .irq (some 0x1E)]

/-- The left shift key is held, and a lower-case letter is read. -/
theorem shift_forgotten :
    (Shifts.after oneShiftReleased).left = true ∧
      ((Keyboard.after oneShiftReleased).read 1).2 = [0x61#8] ∧
      (unread oneShiftReleased).take 1 = [0x41#8] ∧ ¬ KeyboardOk oneShiftReleased := by
  refine ⟨by decide, by decide, by decide, fun h => ?_⟩
  exact absurd (h _ (List.prefix_refl _) 1) (by decide)

end

end Vibix
