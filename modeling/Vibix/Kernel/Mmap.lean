import Vibix.Paging.Extend
import Vibix.Proc.Call

/-! # `mmap` and `brk`

`sys_mmap` and `sys_brk` both come down to one loop (`mapPages`): for each page of a range a frame is
allocated, zeroed and mapped with `map_4k` in the active root.  Out of frames the loop ends early and
leaves what it has mapped; out of frames for a page table it halts the kernel (`none`).

`map_4k` is right about every page that is not part of a huge page.  If this holds for every page that
the loop gets to, the loop maps these pages to frames of zeros (`mapPages_zeroFilled`). -/

namespace Vibix.Kernel

open Paging Proc FrameTree

/-! ### The code -/

/-- The pages of the loop `while vaddr < stop { …; vaddr += 4096 }` from `start`. -/
def pagesFrom (start stop : ℕ) : List ℕ :=
  (List.range ((stop - start + 0xFFF) / 0x1000)).map fun i => start + i * 0x1000

/-- The body of the loop: a fresh, zeroed frame is mapped at `v`. -/
def mapFresh (p : PmmAllocator) (v : ℕ) (m : Mach) : Option (Mach × Bool) :=
  let r := p.alloc m.bitmap
  let m := { m with bitmap := r.1 }
  if r.2 = 0 then some (m, false)
  else (map4k p (m.zero r.2) m.cr3 v r.2 pageUserRw).map fun m => (m, true)

/-- The loop of `sys_mmap` and `sys_brk`. -/
def mapPages (p : PmmAllocator) (pages : List ℕ) (m : Mach) : Option (Mach × Bool) :=
  tryFor (mapFresh p) pages m

/-- `MAP_FIXED`. -/
def mapFixed : BitVec 64 := 0x10#64

/-- `MAP_ANONYMOUS`. -/
def mapAnonymous : BitVec 64 := 0x20#64

/-- `MAP_FAILED`. -/
def mapFailed : ℤ := 2 ^ 64 - 1

/-- `ENOSYS`. -/
def enosys : ℤ := 38

/-- Round up to pages, in 64 bits. -/
def alignPage (n : ℕ) : ℕ := (n + 0xFFF) % 2 ^ 64 / 0x1000 * 0x1000

/-- The loop, and the values of `brk` and `errno` and the result that follow if it is completed, and
if it runs out of frames. -/
def mapThen (p : PmmAllocator) (pages : List ℕ) (done oom : Call) (m : Mach) :
    Option (Mach × Call) :=
  (mapPages p pages m).map fun r => (r.1, if r.2 then done else oom)

/-- The first page that `sys_mmap` maps. -/
def mmapBase (q : Process) (addr : ℕ) (flags : BitVec 64) : ℕ :=
  if flags &&& mapFixed ≠ 0#64 then addr else q.brk

/-- The pages that `sys_mmap` maps. -/
def mmapPages (q : Process) (addr length : ℕ) (flags : BitVec 64) : List ℕ :=
  pagesFrom (mmapBase q addr flags) ((mmapBase q addr flags + alignPage length) % 2 ^ 64)

/-- `sys_mmap` of process `q`. -/
def sysMmap (p : PmmAllocator) (q : Process) (addr length : ℕ) (flags : BitVec 64) (m : Mach) :
    Option (Mach × Call) :=
  if length = 0 then some (m, .setBreak q.brk einval mapFailed)
  else if flags &&& mapAnonymous = 0#64 then some (m, .setBreak q.brk enosys mapFailed)
  else if flags &&& mapFixed ≠ 0#64 ∧ addr % 0x1000 ≠ 0 then
    some (m, .setBreak q.brk einval mapFailed)
  else
    let brk := if flags &&& mapFixed ≠ 0#64 then q.brk else (q.brk + alignPage length) % 2 ^ 64
    mapThen p (mmapPages q addr length flags) (.setBreak brk q.errno (mmapBase q addr flags))
      (.setBreak brk enomem mapFailed) m

/-- `sys_brk` of process `q`. -/
def sysBrk (p : PmmAllocator) (q : Process) (addr : ℕ) (m : Mach) : Option (Mach × Call) :=
  if addr = 0 then some (m, .setBreak q.brk q.errno q.brk)
  else if addr < brkStart ∨ brkMax < addr then some (m, .setBreak q.brk enosys mapFailed)
  else
    mapThen p (pagesFrom (alignPage q.brk) (alignPage addr)) (.setBreak addr q.errno addr)
      (.setBreak q.brk enosys mapFailed) m

/-- The two calls. -/
inductive HeapCall where
  | mmap (addr length : ℕ) (flags : BitVec 64)
  | brk (addr : ℕ)

/-- The call of process `q`. -/
def HeapCall.run (p : PmmAllocator) (q : Process) : HeapCall → Mach → Option (Mach × Call)
  | .mmap addr length flags => sysMmap p q addr length flags
  | .brk addr => sysBrk p q addr

/-- The pages of the loop of the call; none if the arguments are refused. -/
def HeapCall.pages (q : Process) : HeapCall → List ℕ
  | .mmap addr length flags =>
    if length = 0 ∨ flags &&& mapAnonymous = 0#64 ∨
        flags &&& mapFixed ≠ 0#64 ∧ addr % 0x1000 ≠ 0 then []
    else mmapPages q addr length flags
  | .brk addr =>
    if addr = 0 ∨ addr < brkStart ∨ brkMax < addr then []
    else pagesFrom (alignPage q.brk) (alignPage addr)

/-- What is left to the process side of the call, after the loop was completed or not. -/
def HeapCall.answer (q : Process) (completed : Bool) : HeapCall → Call
  | .mmap addr length flags =>
    if length = 0 then .setBreak q.brk einval mapFailed
    else if flags &&& mapAnonymous = 0#64 then .setBreak q.brk enosys mapFailed
    else if flags &&& mapFixed ≠ 0#64 ∧ addr % 0x1000 ≠ 0 then .setBreak q.brk einval mapFailed
    else
      let brk := if flags &&& mapFixed ≠ 0#64 then q.brk else (q.brk + alignPage length) % 2 ^ 64
      if completed then .setBreak brk q.errno (mmapBase q addr flags)
      else .setBreak brk enomem mapFailed
  | .brk addr =>
    if addr = 0 then .setBreak q.brk q.errno q.brk
    else if addr < brkStart ∨ brkMax < addr then .setBreak q.brk enosys mapFailed
    else if completed then .setBreak addr q.errno addr
    else .setBreak q.brk enosys mapFailed

section Calls

variable {p : PmmAllocator} {q : Process} {m m' : Mach} {call : HeapCall} {c : Call}

/-- Both calls are the loop over their pages. -/
theorem HeapCall.run_eq (call : HeapCall) :
    call.run p q m =
      (mapPages p (call.pages q) m).map fun r => (r.1, call.answer q r.2) := by
  have hnil : mapPages p [] m = some (m, true) := rfl
  cases call with
  | mmap addr length flags =>
    simp only [HeapCall.run, sysMmap, HeapCall.pages, HeapCall.answer]
    by_cases hlen : length = 0
    · simp [hlen, hnil]
    by_cases hanon : flags &&& mapAnonymous = 0#64
    · simp [hlen, hanon, hnil]
    by_cases hfixed : flags &&& mapFixed ≠ 0#64 ∧ addr % 0x1000 ≠ 0
    · simp [hlen, hanon, hfixed, hnil]
    · have hpages : ¬ (length = 0 ∨ flags &&& mapAnonymous = 0#64 ∨
          flags &&& mapFixed ≠ 0#64 ∧ addr % 0x1000 ≠ 0) := by tauto
      simp only [if_neg hlen, if_neg hanon, if_neg hfixed, if_neg hpages, mapThen]
  | brk addr =>
    simp only [HeapCall.run, sysBrk, HeapCall.pages, HeapCall.answer]
    by_cases hzero : addr = 0
    · simp [hzero, hnil]
    by_cases hrange : addr < brkStart ∨ brkMax < addr
    · simp [hzero, hrange, hnil]
    · have hpages : ¬ (addr = 0 ∨ addr < brkStart ∨ brkMax < addr) := by tauto
      simp only [if_neg hzero, if_neg hrange, if_neg hpages, mapThen]

/-- A call that returns has gone through the loop. -/
theorem HeapCall.run_inv (call : HeapCall) (h : call.run p q m = some (m', c)) :
    ∃ b, mapPages p (call.pages q) m = some (m', b) ∧ c = call.answer q b := by
  rw [call.run_eq] at h
  obtain ⟨⟨m₁, b⟩, hloop, heq⟩ := Option.map_eq_some_iff.mp h
  cases heq
  exact ⟨b, hloop, rfl⟩

/-- All that a call leaves to the process side is to set the break. -/
theorem HeapCall.answer_setBreak (call : HeapCall) (q : Process) (b : Bool) :
    ∃ brk errno rc, call.answer q b = .setBreak brk errno rc := by
  cases call <;> simp only [HeapCall.answer] <;> split_ifs <;> exact ⟨_, _, _, rfl⟩

end Calls

/-! ### The loop -/

/-- The loop over `pages` gets to `v`: the pages before it are mapped and there is a frame for it. -/
def Reaches (p : PmmAllocator) (pages : List ℕ) (m : Mach) (v : ℕ) : Prop :=
  ∃ done rest m₁, pages = done ++ v :: rest ∧ mapPages p done m = some (m₁, true) ∧
    (p.alloc m₁.bitmap).2 ≠ 0

section Loop

variable {p : PmmAllocator} {root v : ℕ} {m m₁ m₂ m' : Mach} {S T : Set ℕ} {b : Bool}
  {pages : List ℕ}

theorem mapFresh_cases (hp : p.Physical) (hrun : mapFresh p v m = some (m', b)) :
    (b = false ∧ m' = m ∧ (p.alloc m.bitmap).2 = 0) ∨
      (b = true ∧ (p.alloc m.bitmap).2 ≠ 0 ∧
        ∃ f m₁, Fetched p m f m₁ ∧ (m₁.mem f = fun _ => 0#64) ∧
          map4k p m₁ m.cr3 v f pageUserRw = some m') := by
  unfold mapFresh at hrun
  dsimp only at hrun
  split at hrun
  next hnull =>
    cases hrun
    exact .inl ⟨rfl, mach_alloc_null hp hnull, hnull⟩
  next hnull =>
    obtain ⟨m₂, hmap, heq⟩ := Option.map_eq_some_iff.mp hrun
    cases heq
    exact .inr ⟨rfl, hnull, _, _, fetched_of_alloc hp hnull fun g hg => PhysMem.setFrame_ne _ hg _,
      PhysMem.setFrame_same _ _ _, hmap⟩

/-- **One page**: it is mapped, or there is no frame for it. -/
theorem mapFresh_zeroFilled (hp : p.Physical) (h : ProcessSpace p m m.cr3)
    (hhuge : (p.alloc m.bitmap).2 ≠ 0 → inKernelScratch v = false →
      hugeEntry m.mem m.cr3 v = 0#64)
    (hrun : mapFresh p v m = some (m', b)) :
    (b = false ∧ m' = m ∧ (p.alloc m.bitmap).2 = 0) ∨
      (b = true ∧ (p.alloc m.bitmap).2 ≠ 0 ∧ ZeroFilled p m.cr3 {v} m m') := by
  refine (mapFresh_cases hp hrun).imp_right ?_
  rintro ⟨rfl, hnull, f, m₁, hf, hzero, hmap⟩
  exact ⟨rfl, hnull, map4k_zeroFilled hp hf hzero h (hhuge hnull) hmap⟩

theorem mapPages_cons (v : ℕ) (rest : List ℕ) (m : Mach) :
    mapPages p (v :: rest) m =
      match mapFresh p v m with
      | none => none
      | some (m', true) => mapPages p rest m'
      | some (m', false) => some (m', false) := by
  simp only [mapPages, tryFor]
  cases mapFresh p v m with
  | none => rfl
  | some r => rcases r with ⟨m', _ | _⟩ <;> rfl

theorem Reaches.mem (h : Reaches p pages m v) : v ∈ pages := by
  obtain ⟨done, rest, -, rfl, -⟩ := h
  simp

theorem Reaches.head (h : (p.alloc m.bitmap).2 ≠ 0) : Reaches p (v :: pages) m v :=
  ⟨[], pages, m, rfl, rfl, h⟩

theorem Reaches.tail {w : ℕ} (hstep : mapFresh p v m = some (m₁, true))
    (h : Reaches p pages m₁ w) : Reaches p (v :: pages) m w := by
  obtain ⟨done, rest, m₂, rfl, hrun, hframe⟩ := h
  refine ⟨v :: done, rest, m₂, rfl, ?_, hframe⟩
  rw [mapPages_cons, hstep]
  exact hrun

theorem Reaches.cases {w : ℕ} (h : Reaches p (v :: pages) m w) :
    (w = v ∧ (p.alloc m.bitmap).2 ≠ 0) ∨
      ∃ m₁, mapFresh p v m = some (m₁, true) ∧ Reaches p pages m₁ w := by
  obtain ⟨done, rest, m₂, heq, hrun, hframe⟩ := h
  cases done with
  | nil =>
    cases heq
    cases hrun
    exact .inl ⟨rfl, hframe⟩
  | cons v' done =>
    cases heq
    rw [mapPages_cons] at hrun
    split at hrun
    next => cases hrun
    next m₁ hstep => exact .inr ⟨m₁, hstep, done, rest, m₂, rfl, hrun, hframe⟩
    next => cases hrun

/-- A loop that is completed gets to all its pages. -/
theorem reaches_of_completed (hp : p.Physical) (hrun : mapPages p pages m = some (m', true))
    (hv : v ∈ pages) : Reaches p pages m v := by
  induction pages generalizing m with
  | nil => cases hv
  | cons w pages ih =>
    rw [mapPages_cons] at hrun
    split at hrun
    next => cases hrun
    next m₁ hstep =>
      rcases List.mem_cons.mp hv with rfl | hv
      · rcases mapFresh_cases hp hstep with ⟨hb, -⟩ | ⟨-, hframe, -⟩
        · cases hb
        · exact .head hframe
      · exact (ih hrun hv).tail hstep
    next => cases hrun

/-- **The loop** maps the pages that it gets to, provided that none of them is part of a huge page. -/
theorem mapPages_zeroFilled (hp : p.Physical) (h : ProcessSpace p m m.cr3)
    (hhuge : ∀ v, Reaches p pages m v → inKernelScratch v = false → hugeEntry m.mem m.cr3 v = 0#64)
    (hrun : mapPages p pages m = some (m', b)) :
    ZeroFilled p m.cr3 {v | Reaches p pages m v} m m' := by
  induction pages generalizing m with
  | nil =>
    have hnone : {v | Reaches p [] m v} = ∅ := by
      ext v
      simp [Reaches]
    cases hrun
    rw [hnone]
    exact .refl h
  | cons v pages ih =>
    rw [mapPages_cons] at hrun
    cases hstep : mapFresh p v m with
    | none =>
      rw [hstep] at hrun
      cases hrun
    | some r =>
      obtain ⟨m₁, b₁⟩ := r
      rw [hstep] at hrun
      rcases mapFresh_zeroFilled hp h (fun hframe => hhuge v (.head hframe)) hstep with
        ⟨rfl, rfl, hnull⟩ | ⟨rfl, hframe, hfill⟩
      · have hnone : {w | Reaches p (v :: pages) m₁ w} = ∅ := by
          refine Set.eq_empty_of_forall_notMem fun w hw => ?_
          rcases hw.cases with ⟨-, hframe⟩ | ⟨m₂, hstep', -⟩
          · exact hframe hnull
          · rw [hstep] at hstep'
            cases hstep'
        rw [hnone]
        cases hrun
        exact .refl h
      · have hreach : {w | Reaches p (v :: pages) m w} = {v} ∪ {w | Reaches p pages m₁ w} := by
          ext w
          constructor
          · intro hw
            rcases hw.cases with ⟨rfl, -⟩ | ⟨m₂, hstep', hw⟩
            · exact .inl rfl
            · rw [hstep] at hstep'
              cases hstep'
              exact .inr hw
          · rintro (rfl | hw)
            · exact .head hframe
            · exact hw.tail hstep
        rw [hreach]
        have hcr3 := hfill.ext.cr3
        have hih := ih (m := m₁) (hcr3 ▸ hfill.ext.space) (fun w hw hns => ?_) hrun
        · rw [hcr3] at hih
          exact hfill.trans hp hih
        · rw [hcr3, hfill.ext.kept.huges]
          exact hhuge w (hw.tail hstep) hns

end Loop

/-- Both calls, for pages that are not part of a huge page. -/
theorem HeapCall.run_zeroFilled {p : PmmAllocator} {q : Process} {call : HeapCall} {m m' : Mach}
    {c : Call} (hp : p.Physical) (h : ProcessSpace p m m.cr3)
    (hhuge : ∀ v, Reaches p (call.pages q) m v → inKernelScratch v = false →
      hugeEntry m.mem m.cr3 v = 0#64)
    (hrun : call.run p q m = some (m', c)) :
    ZeroFilled p m.cr3 {v | Reaches p (call.pages q) m v} m m' := by
  obtain ⟨b, hloop, -⟩ := HeapCall.run_inv _ hrun
  exact mapPages_zeroFilled hp h hhuge hloop

/-- The first process after boot. -/
def bootInit : Process :=
  bootProcess 1 0x1000 userCodeAddr 0x2003000 0x110000 brkStart 0x2002000 fun _ => none

/-- The flags of an anonymous mapping at a given address. -/
def fixedFlags : BitVec 64 := mapFixed ||| mapAnonymous

end Vibix.Kernel
