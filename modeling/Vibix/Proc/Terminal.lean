import Vibix.Proc.Signal

/-! # The terminal

`vfs/tty.rs`: the line discipline takes the bytes that the keyboard and the serial line have
received, edits the current line, and moves a completed line to the ring buffer that `read` takes
from.  The terminal remembers one process that waits for input, and wakes it with the first byte that
reaches the ring buffer.  Echo is output and is left out. -/

namespace Vibix.Proc

/-- `BUF_SIZE`. -/
def ttyBufSize : ℕ := 4096
/-- `LINE_MAX`. -/
def lineMax : ℕ := 255

/-- The ring buffer with a byte more; the byte is dropped if the buffer is full. -/
def Tty.store (t : Tty) (b : BitVec 8) : Tty :=
  if (t.head + 1) % ttyBufSize ≠ t.tail then
    { t with buf := Function.update t.buf t.head b, head := (t.head + 1) % ttyBufSize }
  else t

/-- The waiting process is woken, and forgotten. -/
def System.wakeReader (s : System) : System :=
  if s.tty.waitingPid = 0 then s
  else
    let s' := { s with tty := { s.tty with waitingPid := 0 } }
    match s.table.find s.tty.waitingPid with
    | none => s'
    | some (i, q) =>
      if q.state = .blocked then { s' with shouldSchedule := true }.put i { q with state := .ready }
      else s'

/-- `Tty::push_byte`. -/
def pushByte (s : System) (b : BitVec 8) : System :=
  { s with tty := s.tty.store b }.wakeReader

/-- `Tty::handle_backspace`. -/
def handleBackspace (s : System) : System :=
  { s with tty := { s.tty with line := s.tty.line.dropLast } }

/-- `Tty::handle_ctrlc`. -/
def handleCtrlc (s : System) : System :=
  let cleared := { s with tty := { s.tty with line := [] } }
  let forgotten := { cleared with tty := { cleared.tty with waitingPid := 0 } }
  let signalled :=
    if s.tty.waitingPid = 0 then cleared
    else
      match s.table.find s.tty.waitingPid with
      | none => forgotten
      | some (i, q) =>
        if q.state = .blocked then cleared.put i (q.raise sigInt) else forgotten
  pushByte signalled 0x0a#8

/-- `Tty::handle_enter`. -/
def handleEnter (s : System) : System :=
  let s := pushByte (s.tty.line.foldl pushByte s) 0x0a#8
  { s with tty := { s.tty with line := [] } }

/-- `Tty::handle_tab` and `Tty::handle_char`, which differ in the echo only. -/
def handleChar (c : BitVec 8) (s : System) : System :=
  if s.tty.line.length < lineMax then
    { s with tty := { s.tty with line := s.tty.line ++ [c] } }
  else s

/-- `Tty::process_byte`. -/
def processByte (s : System) (c : BitVec 8) : System :=
  if !s.tty.canonical then pushByte s c
  else if c = 0x08#8 ∨ c = 0x7f#8 then handleBackspace s
  else if c = 0x03#8 then handleCtrlc s
  else if c = 0x0d#8 ∨ c = 0x0a#8 then handleEnter s
  else if c = 0x09#8 then handleChar c s
  else if c = 0x1b#8 then s
  else if 0x20#8 ≤ c then handleChar c s
  else s

/-- `Tty::process_input`, given the bytes that the keyboard and then the serial line had. -/
def processInput (input : List (BitVec 8)) (s : System) : System := input.foldl processByte s

/-- The number of bytes in the ring buffer. -/
def Tty.available (t : Tty) : ℕ := (t.head + ttyBufSize - t.tail) % ttyBufSize

/-- `Tty::read` into a buffer of `len` bytes. -/
def ttyRead (len : ℕ) (input : List (BitVec 8)) (s : System) : Except Halt (System × ℤ) :=
  let s := processInput input s
  if s.tty.tail ≠ s.tty.head then
    let count := min len s.tty.available
    .ok ({ s with tty := { s.tty with tail := (s.tty.tail + count) % ttyBufSize } }, count)
  else if s.currentPid = 0 then .ok (s, 0)
  else
    match s.current with
    | none => .error .notFound
    | some (i, q) =>
      .ok ({ s with tty := { s.tty with waitingPid := s.currentPid }, shouldSchedule := true }.put i
        { q with state := .blocked }, 0)

end Vibix.Proc
