import Vibix.Paging.Scratch

/-! # The boot root

The page tables that `boot.asm` and `extend_kernel_identity` leave: one PDPT, one PD, and sixteen
supervisor 2 MiB pages that identity-map the memory below `USER_CODE_ADDR`.  Every process root
descends from it, and it is well formed (`bootMem_wellFormed`). -/

namespace Vibix.Paging

open FrameTree

/-- `PAGE_KERNEL_HUGE`. -/
def pageKernelHuge : BitVec 64 := pagePresent ||| pageWritable ||| pageHuge

/-- The tables after boot: `l4`, `l3` and `l2` are the frames of the PML4, the PDPT and the PD. -/
def bootMem (l4 l3 l2 : ℕ) : PhysMem := fun f x =>
  if f = l4 then if x = 0 then mkEntry l3 pageUserRw else 0#64
  else if f = l3 then if x = 0 then mkEntry l2 pageUserRw else 0#64
  else if f = l2 then if x < 16 then mkEntry (x * 2 ^ 21) pageKernelHuge else 0#64
  else 0#64

/-- The frames of the three boot tables. -/
structure BootFrames (l4 l3 l2 : ℕ) : Prop where
  pml4 : IsFrame l4
  pdpt : IsFrame l3
  pd : IsFrame l2
  distinct : l4 ≠ l3 ∧ l4 ≠ l2 ∧ l3 ≠ l2

section

variable {l4 l3 l2 f : ℕ} {x : Fin 512} {path : List (Fin 512)}

theorem isFrame_identity (x : Fin 512) : IsFrame (x * 2 ^ 21) := by
  have hx := x.isLt
  refine ⟨?_, ?_⟩
  · omega
  · omega

theorem bootMem_l4 : bootMem l4 l3 l2 l4 x = if x = 0 then mkEntry l3 pageUserRw else 0#64 := by
  rw [bootMem, if_pos rfl]

theorem bootMem_l3 (h : BootFrames l4 l3 l2) :
    bootMem l4 l3 l2 l3 x = if x = 0 then mkEntry l2 pageUserRw else 0#64 := by
  rw [bootMem, if_neg h.distinct.1.symm, if_pos rfl]

theorem bootMem_l2 (h : BootFrames l4 l3 l2) :
    bootMem l4 l3 l2 l2 x = if x < 16 then mkEntry (x * 2 ^ 21) pageKernelHuge else 0#64 := by
  rw [bootMem, if_neg h.distinct.2.1.symm, if_neg h.distinct.2.2.symm, if_pos rfl]

/-- The three tables, and that there are no others. -/
theorem frameAt_bootMem (h : BootFrames l4 l3 l2)
    (hf : frameAt tableOf (bootMem l4 l3 l2) l4 path = some f) :
    path = [] ∧ f = l4 ∨ path = [0] ∧ f = l3 ∨ path = [0, 0] ∧ f = l2 := by
  induction path generalizing f with
  | nil => exact Or.inl ⟨rfl, (Option.some.inj hf).symm⟩
  | cons x q ih =>
    obtain ⟨t, ht, hown⟩ := frameAt_cons_eq_some.mp hf
    rcases ih ht with ⟨rfl, rfl⟩ | ⟨rfl, rfl⟩ | ⟨rfl, rfl⟩
    · rw [bootMem_l4] at hown
      by_cases hx : x = 0
      · simp only [hx, ↓reduceIte, tableOf, present_mkEntry h.pdpt, present_pageUserRw,
          entryAddr_mkEntry h.pdpt noAddr_pageUserRw, Option.some.injEq] at hown
        exact Or.inr (Or.inl ⟨by rw [hx], hown.symm⟩)
      · simp [hx, tableOf] at hown
    · rw [bootMem_l3 h] at hown
      by_cases hx : x = 0
      · simp only [hx, ↓reduceIte, tableOf, present_mkEntry h.pd, huge_mkEntry h.pd,
          present_pageUserRw, huge_pageUserRw, Bool.not_false, Bool.and_self,
          entryAddr_mkEntry h.pd noAddr_pageUserRw, Option.some.injEq] at hown
        exact Or.inr (Or.inr ⟨by rw [hx], hown.symm⟩)
      · simp [hx, tableOf] at hown
    · rw [bootMem_l2 h] at hown
      by_cases hx : x < 16
      · have hhuge : huge (mkEntry (x * 2 ^ 21) pageKernelHuge) = true := by
          rw [huge_mkEntry (isFrame_identity x)]
          decide
        simp only [hx, ↓reduceIte, tableOf, hhuge, Bool.not_true, Bool.and_false,
          Bool.false_eq_true, reduceCtorEq] at hown
      · simp [hx, tableOf] at hown

/-- **The boot root is well formed** if its three tables are not free. -/
theorem bootMem_wellFormed {p : PmmAllocator} {m : Mach} (h : BootFrames l4 l3 l2)
    (hmem : m.mem = bootMem l4 l3 l2) (hcr3 : m.cr3 = l4)
    (hused : ∀ f ∈ [l4, l3, l2], f ∉ p.freeFrames m.bitmap) : WellFormed p m := by
  rw [← hcr3] at h hmem hused
  have hcases : ∀ path f, frameAt tableOf m.mem m.cr3 path = some f →
      path = [] ∧ f = m.cr3 ∨ path = [0] ∧ f = l3 ∨ path = [0, 0] ∧ f = l2 := by
    rw [hmem]
    exact fun path f hf => frameAt_bootMem h hf
  obtain ⟨h43, h42, h32⟩ := h.distinct
  refine ⟨?_, ?_, ?_⟩
  · intro q q' f hq hq'
    rcases hcases q f hq with ⟨rfl, hf⟩ | ⟨rfl, hf⟩ | ⟨rfl, hf⟩ <;>
      rcases hcases q' f hq' with ⟨rfl, hf'⟩ | ⟨rfl, hf'⟩ | ⟨rfl, hf'⟩ <;> simp_all
  · rintro f ⟨path, hf⟩
    apply hused
    rcases hcases path f hf with ⟨_, rfl⟩ | ⟨_, rfl⟩ | ⟨_, rfl⟩ <;> simp
  · rintro f ⟨path, hf⟩ x hx
    rw [hmem] at hx ⊢
    rcases hcases path f hf with ⟨_, rfl⟩ | ⟨_, rfl⟩ | ⟨_, rfl⟩
    · rw [bootMem_l4] at hx ⊢
      split_ifs at hx ⊢
      · simp [present_mkEntry h.pdpt] at hx
      · rfl
    · rw [bootMem_l3 h] at hx ⊢
      split_ifs at hx ⊢
      · simp [present_mkEntry h.pd] at hx
      · rfl
    · rw [bootMem_l2 h] at hx ⊢
      have hpr : present pageKernelHuge = true := by decide
      split_ifs at hx ⊢
      · rw [present_mkEntry (isFrame_identity x), hpr] at hx
        cases hx
      · rfl

end

end Vibix.Paging
