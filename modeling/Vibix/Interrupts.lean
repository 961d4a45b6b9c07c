import Vibix.Lib.Run
import Mathlib.Data.BitVec
import Mathlib.Tactic

/-! # Interrupts

How a device reaches its driver: the IDT of `interrupts.rs`, the two 8259A controllers that
`remap_pic`, `mask_irq` and `unmask_irq` program, the stubs of `interrupts.asm` with the
end-of-interrupt commands of `irq_common`, and `irq_handler`.  The controllers are modelled as far
as they are used: initialisation, masks, fixed priorities, and interrupts in service.  Interrupts
are not nested, as `IF` is clear from the gate to `iretq`.  `irqs_served` is about all runs. -/

namespace Vibix.Interrupts

/-! ### The IDT -/

/-- `IdtEntry`. -/
structure IdtEntry where
  offsetLow : BitVec 16
  selector : BitVec 16
  ist : BitVec 8
  flags : BitVec 8
  offsetMid : BitVec 16
  offsetHigh : BitVec 32
  reserved : BitVec 32

/-- `missing`. -/
def IdtEntry.missing : IdtEntry := ⟨0, 0, 0, 0, 0, 0, 0⟩

/-- `set_handler`; all fields are written. -/
def IdtEntry.setHandler (handler : BitVec 64) (selector : BitVec 16) (dpl : BitVec 8) :
    IdtEntry where
  offsetLow := handler.setWidth 16
  selector := selector
  ist := 0
  flags := 0x8E ||| (dpl &&& 3) <<< 5
  offsetMid := (handler >>> 16).setWidth 16
  offsetHigh := (handler >>> 32).setWidth 32
  reserved := 0

/-- What the processor makes of an entry: handler, code segment and privilege level of a present
interrupt gate. -/
def IdtEntry.gate (e : IdtEntry) : Option (BitVec 64 × BitVec 16 × BitVec 2) :=
  if e.flags.getLsbD 7 ∧ e.flags.extractLsb' 0 5 = 0xE#5 then
    some (e.offsetHigh ++ e.offsetMid ++ e.offsetLow, e.selector, e.flags.extractLsb' 5 2)
  else none

abbrev Idt := ℕ → IdtEntry

/-- `Idt::set`. -/
def Idt.set (idt : Idt) (index : ℕ) (handler : BitVec 64) (selector : BitVec 16) (dpl : BitVec 8) :
    Idt :=
  if index < 256 then Function.update idt index (.setHandler handler selector dpl) else idt

/-- **Gates are decoded as they were encoded.** -/
theorem gate_setHandler (handler : BitVec 64) (selector : BitVec 16) (dpl : BitVec 8) :
    (IdtEntry.setHandler handler selector dpl).gate = some (handler, selector, dpl.setWidth 2) := by
  have hflags : ∀ d : BitVec 8, let f := 0x8E ||| (d &&& 3) <<< 5
      f.getLsbD 7 = true ∧ f.extractLsb' 0 5 = 0xE#5 ∧ f.extractLsb' 5 2 = d.setWidth 2 := by
    decide +kernel
  obtain ⟨hpresent, htype, hdpl⟩ := hflags dpl
  have hoffset : (handler >>> 32).setWidth 32 ++ (handler >>> 16).setWidth 16 ++
      handler.setWidth 16 = handler := by
    ext i hi
    simp only [BitVec.getElem_append, BitVec.getElem_setWidth, BitVec.getLsbD_ushiftRight]
    rw [← BitVec.getLsbD_eq_getElem hi]
    split_ifs
    · rfl
    · rw [show 16 + (i - 16) = i by omega]
    · rw [show 32 + (i - 16 - 16) = i by omega]
  simp only [IdtEntry.gate, IdtEntry.setHandler, hpresent, htype, hdpl, and_self, ↓reduceIte,
    hoffset]

/-! ### The interrupt controllers -/

/-- An 8259A: vector offset, mask, interrupts in service, and the number of initialisation words
that are still to come. -/
structure Pic where
  base : BitVec 8
  mask : BitVec 8
  inService : BitVec 8
  icw : ℕ

/-- A write to the command port: the first initialisation word, or the end of the interrupt with the
highest priority. -/
def Pic.command (d : Pic) (v : BitVec 8) : Pic :=
  if v.getLsbD 4 then { d with mask := 0, inService := 0, icw := 3 }
  else if v = 0x20 then { d with inService := d.inService &&& (d.inService - 1) }
  else d

/-- A write to the data port: the vector offset, the cascade and the mode, then the mask. -/
def Pic.data (d : Pic) (v : BitVec 8) : Pic :=
  match d.icw with
  | 0 => { d with mask := v }
  | 3 => { d with base := v &&& 0xF8, icw := 2 }
  | n + 1 => { d with icw := n }

/-- Line `k` is not masked, and no interrupt of its priority or a higher one is in service. -/
def Pic.ready (d : Pic) (k : ℕ) : Bool :=
  !d.mask.getLsbD k && (List.range (k + 1)).all fun j => !d.inService.getLsbD j

/-- Line `k` is being served. -/
def Pic.serve (d : Pic) (k : ℕ) : Pic := { d with inService := d.inService ||| 1#8 <<< k }

/-- The two controllers; the second one is on line 2 of the first. -/
structure Pics where
  master : Pic
  slave : Pic

namespace Pics

/-- `outb`. -/
def outb (s : Pics) (port : ℕ) (v : BitVec 8) : Pics :=
  match port with
  | 0x20 => { s with master := s.master.command v }
  | 0x21 => { s with master := s.master.data v }
  | 0xA0 => { s with slave := s.slave.command v }
  | 0xA1 => { s with slave := s.slave.data v }
  | _ => s

/-- `remap_pic`; reading a data port gives the mask. -/
def remapPic (s : Pics) (masterOffset slaveOffset : BitVec 8) : Pics :=
  [(0x20, 0x11), (0xA0, 0x11), (0x21, masterOffset), (0xA1, slaveOffset), (0x21, 0x04),
    (0xA1, 0x02), (0x21, 0x01), (0xA1, 0x01), (0x21, s.master.mask), (0xA1, s.slave.mask)].foldl
    (fun s w => s.outb w.1 w.2) s

/-- A new mask for the controller of `irq`, from its mask and the bit of the line. -/
def updateMask (f : BitVec 8 → BitVec 8 → BitVec 8) (s : Pics) (irq : ℕ) : Pics :=
  if irq < 8 then s.outb 0x21 (f s.master.mask (1#8 <<< irq))
  else if irq < 16 then s.outb 0xA1 (f s.slave.mask (1#8 <<< (irq - 8)))
  else s

/-- `mask_irq`. -/
def maskIrq : Pics → ℕ → Pics := updateMask fun mask bit => mask ||| bit

/-- `unmask_irq`. -/
def unmaskIrq : Pics → ℕ → Pics := updateMask fun mask bit => mask &&& ~~~bit

/-- The processor acknowledges an interrupt of a device on `line`: its vector. -/
def accept (s : Pics) (line : Fin 16) : Option (BitVec 8 × Pics) :=
  if line = 2 then none
  else if line.val < 8 then
    if s.master.ready line then
      some (s.master.base + BitVec.ofNat 8 line, { s with master := s.master.serve line })
    else none
  else if s.slave.ready (line - 8) && s.master.ready 2 then
    some (s.slave.base + BitVec.ofNat 8 (line - 8), ⟨s.master.serve 2, s.slave.serve (line - 8)⟩)
  else none

/-- The end-of-interrupt commands of `irq_common`. -/
def endOfInterrupt (s : Pics) (intNo : ℕ) : Pics :=
  let s := s.outb 0x20 0x20
  if intNo < 40 then s else s.outb 0xA0 0x20

/-- The line is masked. -/
def masked (s : Pics) (line : ℕ) : Bool :=
  if line < 8 then s.master.mask.getLsbD line else s.slave.mask.getLsbD (line - 8)

end Pics

/-- The drivers behind `irq_handler`. -/
inductive Driver
  | pit
  | keyboard
deriving DecidableEq

/-- `irq_handler`: the driver that is called. -/
def irqHandler (intNo : ℕ) : Option Driver :=
  match (intNo + 2 ^ 64 - 32) % 2 ^ 64 with
  | 0 => some .pit
  | 1 => some .keyboard
  | _ => none

/-- The IDT and the controllers. -/
structure Irqs where
  idt : Idt
  pics : Pics

/-- `init_interrupts`, for the stubs of `interrupts.asm` at the given addresses. -/
def initInterrupts (isr irq : ℕ → BitVec 64) (s : Pics) : Irqs :=
  let idt : Idt := fun _ => .missing
  let idt := (List.range 32).foldl (fun idt i => idt.set i (isr i) 0x08 0) idt
  let idt := (List.range 16).foldl (fun idt i => idt.set (32 + i) (irq i) 0x08 0) idt
  ⟨idt, s.remapPic 0x20 0x28⟩

/-- What can happen. -/
inductive IrqEvent
  /-- A call of `mask_irq` or `unmask_irq`. -/
  | setMask (masked : Bool) (irq : ℕ)
  /-- A device on `line` is served, by `driver` if it has one. -/
  | interrupt (line : Fin 16) (driver : Option Driver)

/-- One event.  An interrupt runs the stub that the gate of its vector leads to; stub `j` passes
`32 + j` to `irq_handler` and to the end of `irq_common`. -/
def Step (irq : ℕ → BitVec 64) (s : Irqs) : IrqEvent → Irqs → Prop
  | .setMask masked k, s' =>
    s' = { s with pics := if masked then s.pics.maskIrq k else s.pics.unmaskIrq k }
  | .interrupt line driver, s' => ∃ vector pics j, s.pics.accept line = some (vector, pics) ∧
      j < 16 ∧ (s.idt vector.toNat).gate = some (irq j, 0x08, 0) ∧ driver = irqHandler (32 + j) ∧
      s' = { s with pics := pics.endOfInterrupt (32 + j) }

/-- The last of the calls about `line` decides. -/
def maskedAfter (line : ℕ) (start : Bool) (es : List IrqEvent) : Bool :=
  es.foldl (fun b e => match e with
    | .setMask masked k => if k = line then masked else b
    | .interrupt .. => b) start

/-! ### Runs -/

section Runs

variable {isr irq : ℕ → BitVec 64} {pics : Pics} {s s' : Irqs} {es : List IrqEvent}

theorem foldl_set (h : ℕ → BitVec 64) (off v : ℕ) (idt : Idt) : ∀ n, off + n ≤ 256 →
    ((List.range n).foldl (fun idt i => idt.set (off + i) (h i) 0x08 0) idt) v =
      if off ≤ v ∧ v < off + n then .setHandler (h (v - off)) 0x08 0 else idt v
  | 0, _ => by rw [if_neg (by omega)]; rfl
  | n + 1, hn => by
      rw [List.range_succ, List.foldl_append, List.foldl_cons, List.foldl_nil, Idt.set,
        if_pos (by omega), Function.update_apply, foldl_set h off v idt n (by omega)]
      by_cases hv : v = off + n
      · rw [if_pos hv, if_pos (by omega), show v - off = n by omega]
      · rw [if_neg hv]
        exact if_congr (by omega) rfl rfl

/-- Where the gates lead. -/
theorem gate_init (isr irq : ℕ → BitVec 64) (pics : Pics) (v : ℕ) :
    ((initInterrupts isr irq pics).idt v).gate = if v < 32 then some (isr v, 0x08, 0)
      else if v < 48 then some (irq (v - 32), 0x08, 0) else none := by
  have hisr := foldl_set isr 0 v (fun _ => .missing) 32 (by omega)
  simp only [Nat.zero_add, Nat.zero_le, true_and, Nat.sub_zero] at hisr
  have hset : ∀ a, (IdtEntry.setHandler a 0x08 0).gate = some (a, 0x08, 0) := fun a =>
    gate_setHandler a 0x08 0
  simp only [initInterrupts]
  rw [foldl_set irq 32 v _ 16 (by omega), hisr]
  by_cases h₁ : v < 32
  · rw [if_neg (by omega), if_pos h₁, if_pos h₁, hset]
  · rw [if_neg h₁, if_neg h₁]
    by_cases h₂ : v < 48
    · rw [if_pos (by omega), if_pos h₂, hset]
    · rw [if_neg (by omega), if_neg h₂]
      decide

/-- Both controllers are in operation, with nothing in service. -/
def Pics.Idle (s : Pics) : Prop :=
  s = ⟨⟨0x20, s.master.mask, 0, 0⟩, ⟨0x28, s.slave.mask, 0, 0⟩⟩

/-- One call of `mask_irq` or `unmask_irq`. -/
theorem Pics.Idle.setMask {p : Pics} (h : p.Idle) (masked : Bool) (k : ℕ) :
    (if masked then p.maskIrq k else p.unmaskIrq k).Idle ∧
      ∀ line < 16, (if masked then p.maskIrq k else p.unmaskIrq k).masked line =
        if k = line then masked else p.masked line := by
  rw [h]
  cases masked
  all_goals
    simp only [Bool.false_eq_true, ↓reduceIte, Pics.maskIrq, Pics.unmaskIrq]
    unfold Pics.updateMask
    refine ⟨by split_ifs <;> rfl, fun line hline => ?_⟩
    unfold Pics.masked
    split_ifs <;> simp [Pics.outb, Pic.data, ← BitVec.twoPow_eq] <;> omega

/-- The interrupt of `line` gets through. -/
def Pics.Open (p : Pics) (line : Fin 16) : Prop :=
  line ≠ 2 ∧ p.masked line = false ∧ (8 ≤ line.val → p.masked 2 = false)

/-- **Acknowledging an interrupt and ending it** leaves the controllers as they were. -/
theorem Pics.Idle.accept {p : Pics} (h : p.Idle) (line : Fin 16) :
    (¬ p.Open line → p.accept line = none) ∧ (p.Open line →
      ∃ q, p.accept line = some (BitVec.ofNat 8 (32 + line), q) ∧
        q.endOfInterrupt (32 + line) = p) := by
  rw [h]
  fin_cases line <;> simp [Pics.Open, Pics.accept, Pics.masked, Pic.ready, Pic.serve,
    Pics.endOfInterrupt, Pics.outb, Pic.command, List.range_succ]

/-- What an interrupt does while the gates are those of `init_interrupts`. -/
theorem step_interrupt_iff (hirq : Set.InjOn irq (Set.Iio 16)) (hidle : s.pics.Idle)
    (hidt : s.idt = (initInterrupts isr irq pics).idt) (line : Fin 16) (driver : Option Driver) :
    Step irq s (.interrupt line driver) s' ↔
      s.pics.Open line ∧ driver = irqHandler (32 + line) ∧ s' = s := by
  obtain ⟨hclosed, hopen⟩ := hidle.accept line
  have hvector : (BitVec.ofNat 8 (32 + line)).toNat = 32 + line := Nat.mod_eq_of_lt (by omega)
  have hgate : (s.idt (32 + line)).gate = some (irq line, 0x08, 0) := by
    rw [hidt, gate_init, if_neg (by omega), if_pos (by omega), Nat.add_sub_cancel_left]
  constructor
  · rintro ⟨vector, q, j, haccept, hj, hstub, hdriver, hs'⟩
    by_cases hline : s.pics.Open line
    · obtain ⟨q', haccept', hend⟩ := hopen hline
      obtain ⟨hv, hq⟩ := Prod.mk.inj (Option.some.inj (haccept'.symm.trans haccept))
      rw [← hv, hvector, hgate] at hstub
      have hlj := hirq line.isLt hj (Prod.mk.inj (Option.some.inj hstub)).1
      rw [← hlj] at hdriver hs'
      rw [← hq, hend] at hs'
      exact ⟨hline, hdriver, hs'⟩
    · rw [hclosed hline] at haccept
      cases haccept
  · rintro ⟨hline, hdriver, rfl⟩
    obtain ⟨q, haccept, hend⟩ := hopen hline
    exact ⟨_, q, line, haccept, line.isLt, by rw [hvector, hgate], hdriver, by rw [hend]⟩

/-- What holds after a run. -/
theorem run_idle (hirq : Set.InjOn irq (Set.Iio 16))
    (hrun : Run (Step irq) (initInterrupts isr irq pics) es s) :
    s.pics.Idle ∧ s.idt = (initInterrupts isr irq pics).idt ∧
      ∀ line < 16, s.pics.masked line = maskedAfter line (pics.masked line) es := by
  induction hrun with
  | nil => exact ⟨rfl, rfl, fun _ _ => rfl⟩
  | @snoc t u es e _ hlast ih =>
    obtain ⟨hidle, hidt, hmask⟩ := ih
    simp only [maskedAfter, List.foldl_append, List.foldl_cons, List.foldl_nil]
    cases e with
    | setMask masked k =>
      cases hlast
      obtain ⟨hidle', hset⟩ := hidle.setMask masked k
      exact ⟨hidle', hidt, fun line hline => by rw [hset line hline, hmask line hline]; rfl⟩
    | interrupt line driver =>
      obtain ⟨-, -, rfl⟩ := (step_interrupt_iff hirq hidle hidt line driver).mp hlast
      exact ⟨hidle, hidt, hmask⟩

/-- **Interrupts are served.**  After `init_interrupts` and any sequence of calls and interrupts, a
line is masked as the last call about it says, or as before if there was none.  The interrupt of a
device is accepted exactly if its line is open; it reaches the driver of its line, and when it ends
the controllers are as before, so that no later one is held back.  Exceptions lead to their stubs,
and vectors from 48 on nowhere. -/
theorem irqs_served (hirq : Set.InjOn irq (Set.Iio 16))
    (hrun : Run (Step irq) (initInterrupts isr irq pics) es s) :
    (∀ line < 16, s.pics.masked line = maskedAfter line (pics.masked line) es) ∧
    (∀ line driver s', Step irq s (.interrupt line driver) s' ↔ s.pics.Open line ∧
      driver = (if line = 0 then some .pit else if line = 1 then some .keyboard else none) ∧
      s' = s) ∧
    ∀ v, (s.idt v).gate = if v < 32 then some (isr v, 0x08, 0)
      else if v < 48 then some (irq (v - 32), 0x08, 0) else none := by
  obtain ⟨hidle, hidt, hmask⟩ := run_idle hirq hrun
  have hdriver : ∀ l : Fin 16, irqHandler (32 + l) =
      if l = 0 then some .pit else if l = 1 then some .keyboard else none := by decide
  refine ⟨hmask, fun line driver s' => ?_, fun v => by rw [hidt, gate_init]⟩
  rw [step_interrupt_iff hirq hidle hidt, hdriver]

/-- The line of the keyboard is unmasked. -/
theorem irqs_served_keyboard : ∃ s, Run (Step (BitVec.ofNat 64))
      (initInterrupts 0 (BitVec.ofNat 64) ⟨⟨8, 0xFF, 0, 0⟩, ⟨0x70, 0xFF, 0, 0⟩⟩)
      [.setMask false 1] s ∧
    s.pics.masked 1 = false ∧ s.pics.masked 0 = true := by
  have hirq : Set.InjOn (BitVec.ofNat 64) (Set.Iio 16) := by
    intro i hi j hj h
    have h' := congrArg BitVec.toNat h
    simp only [Set.mem_Iio, BitVec.toNat_ofNat] at hi hj h'
    omega
  have hrun (p : Pics) : Run (Step (BitVec.ofNat 64)) (initInterrupts 0 (BitVec.ofNat 64) p)
      [.setMask false 1] _ := .single rfl
  have hmask := fun p => (irqs_served hirq (hrun p)).1
  refine ⟨_, hrun _, ?_, ?_⟩
  · rw [hmask _ 1 (by omega)]
    decide
  · rw [hmask _ 0 (by omega)]
    decide

end Runs

end Vibix.Interrupts
