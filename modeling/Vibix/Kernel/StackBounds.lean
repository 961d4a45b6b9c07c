import Vibix.Kernel.Pointers
import Vibix.Kernel.Image

/-! # The recorded bounds of a stack

The builders record `stack_low` and `user_rsp` for a new program, and `deliver_pending_signals`
trusts them: below any stack pointer from `stack_low + 160` on it stores a signal frame.  The stack
of a flat image is one page, and the bounds are its ends.  The stack of an ELF image is mapped
downwards from `ELF_STACK_TOP_PAGE`, sixteen pages, whereas `ELF_STACK_LOW` lies sixteen pages below
the *base* of the top page: the lowest of the seventeen pages between the bounds is not mapped.

So the bounds are those of the mapped stack exactly for flat images and for ELF images with a
segment in that page (`stackMapped_iff`). -/

namespace Vibix.Kernel

open Paging Proc Elf FrameTree

/-- The page of `v` is mapped for user mode, with the flag `PAGE_WRITABLE`. -/
def UserRw (mem : PhysMem) (root v : ℕ) : Prop := (userLeaf mem root v).any writable = true

instance (mem : PhysMem) (root v : ℕ) : Decidable (UserRw mem root v) :=
  inferInstanceAs (Decidable (_ = true))

/-- The bounds of the stack are those of mapped memory: every page between them is user memory, and
so is the signal frame below every stack pointer that `deliver_pending_signals` accepts. -/
structure StackMapped (m : Mach) (image : UserImage) : Prop where
  pages : ∀ v, v % 4096 = 0 → image.stackLow ≤ v → v < image.userRsp → UserRw m.mem image.root v
  frames : ∀ rsp, image.stackLow + sigframeSize ≤ rsp → rsp ≤ image.userRsp →
    ∀ k < sigframeSize, UserRw m.mem image.root (rsp - sigframeSize + k)

section

variable {p : PmmAllocator} {m m' : Mach} {r v w : ℕ} {S : Set ℕ} {data : Image} {a : Arena}
  {image : UserImage}

/-! ### Pages -/

theorem writable_pageFrame {f : ℕ} (hf : IsFrame f) : writable (mkEntry f pageUserRw) = true := by
  have hbit : (mkEntry f pageUserRw).getLsbD 1 = true := by
    rw [getLsbD_mkEntry_low hf (by norm_num)]
    decide
  unfold writable
  rw [show pageWritable = BitVec.twoPow 64 1 by decide, BitVec.and_twoPow, hbit]
  decide

theorem userRw_view (hs : ProcessSpace p m r) :
    UserRw m.mem r v ↔ isUserLeaf (leafEntry m.mem r v) = true ∧
      writable (leafEntry m.mem r v) = true := by
  rw [UserRw, userLeaf_view hs.noGiant hs.userTables]
  split
  next h => simp [h]
  next h => simp [h]

theorem UserRw.samePage (hs : ProcessSpace p m r) (h : UserRw m.mem r v) (hsame : SamePage w v) :
    UserRw m.mem r w := by
  rw [userRw_view hs] at h ⊢
  rwa [leafEntry_samePage hsame]

/-- The pages that were mapped are user memory. -/
theorem userRw_of_populated (hp : p.Physical) (h : Populated p r S m m') (hv : v ∈ S) :
    UserRw m'.mem r v := by
  obtain ⟨f, hfree, hleaf⟩ := h.ext.mapped v v hv (h.fresh v hv).1 ⟨rfl, rfl⟩
  have hframe := isFrame_of_free hp hfree
  rw [userRw_view h.ext.space, hleaf, isUserLeaf_eq_true, present_mkEntry hframe,
    user_mkEntry hframe]
  exact ⟨⟨present_pageUserRw, user_pageUserRw⟩, writable_pageFrame hframe⟩

/-- From `USER_CODE_ADDR` on, under `PML4[0]`, nothing else is. -/
theorem userRw_populated_iff {m₁ : Mach} (hp : p.Physical) (hs : ProcessSpace p m m.cr3)
    (hcreate : createPml4 p m false = some (m₁, some r)) (h : Populated p r S m₁ m')
    (hS : ∀ w ∈ S, IsPage w) (hv : IsPage v) (hlow : userCodeAddr ≤ v) (hhigh : v < 2 ^ 39) :
    UserRw m'.mem r v ↔ v ∈ S := by
  refine ⟨fun hrw => ?_, userRw_of_populated hp h⟩
  obtain ⟨m₁', res, hspec, hcreated⟩ := createPml4Inner_spec false none hp hs.ok
  rw [createPml4, hspec] at hcreate
  obtain ⟨rfl, rfl⟩ := Prod.mk.inj (Option.some.inj hcreate)
  by_contra hnot
  have hother : leafEntry m'.mem r v = leafEntry m₁'.mem r v := by
    refine h.ext.others v fun w hw _ hsame => hnot ?_
    obtain ⟨hcv, h64v, halv⟩ := hv
    obtain ⟨hcw, h64w, halw⟩ := hS w hw
    have hdiv := (samePage_iff hcv hcw h64v h64w).mp hsame
    have heq : v = w := by omega
    rwa [heq]
  have hl4 : l4Index v = 0 := by
    simp only [l4Index, Fin.ext_iff]
    norm_num
    omega
  have hpd : userCodeAddr ≤ pdVaddr (l3Index v) (l2Index v) := by
    simp only [pdVaddr, l3Index, l2Index, userCodeAddr] at hlow ⊢
    omega
  rw [userRw_view h.ext.space, hother, (hcreated.empty hs.noGiant hl4 hpd).1] at hrw
  exact absurd hrw.1 (by decide)

/-! ### From the pages to the signal frames -/

/-- If all pages are mapped, so is every signal frame. -/
theorem stackMapped_of_pages (hs : ProcessSpace p m image.root) (hal : image.stackLow % 4096 = 0)
    (h : ∀ v, v % 4096 = 0 → image.stackLow ≤ v → v < image.userRsp → UserRw m.mem image.root v) :
    StackMapped m image := by
  refine ⟨h, fun rsp hlow hhigh k hk => ?_⟩
  have hpage := h ((rsp - sigframeSize + k) / 4096 * 4096) (by omega) (by omega) (by omega)
  refine hpage.samePage hs ?_
  have hsplit : (rsp - sigframeSize + k) / 4096 * 4096 + (rsp - sigframeSize + k) % 4096 =
      rsp - sigframeSize + k := by omega
  have hsame := samePage_add (v := (rsp - sigframeSize + k) / 4096 * 4096)
    (k := (rsp - sigframeSize + k) % 4096) (by omega) (Nat.mod_lt _ (by norm_num))
  rwa [hsplit] at hsame

/-! ### The two builders -/

/-- What `build_exec_image` records. -/
theorem buildExecImage_bounds {a' : Arena} {image : ExecImage}
    (hrun : buildExecImage p data m a = (m', a', .ok image)) :
    image.userRsp = elfStackTopPage + 0x1000 ∧ image.stackLow = elfStackLow := by
  unfold buildExecImage buildExecImageInner at hrun
  repeat' split at hrun
  all_goals cases hrun
  exact ⟨rfl, rfl⟩

/-- What `build_flat_image` records. -/
theorem buildFlatImage_bounds {image : FlatImage}
    (hrun : buildFlatImage p data m = some (m', .ok image)) :
    ∃ pages, flatLayout data.length = .ok (pages, image.stackLow, image.userRsp) := by
  unfold buildFlatImage buildFlatImageInner at hrun
  split at hrun
  · cases hrun
  next pages stackAddr stackEnd hlayout =>
    repeat' split at hrun
    all_goals cases hrun
    exact ⟨pages, hlayout⟩

theorem elfStackTopPage_eq : elfStackTopPage = 0x2200000 := rfl

theorem elfStackLow_eq : elfStackLow = 0x21f0000 := rfl

theorem mem_elfStackSet :
    v ∈ elfStackSet ↔ v % 4096 = 0 ∧ elfStackLow < v ∧ v ≤ elfStackTopPage := by
  rw [elfStackSet, Set.mem_ofPred_eq, elfStackTopPage_eq, elfStackLow_eq, elfStackPages]
  constructor
  · rintro ⟨i, hi, rfl⟩
    omega
  · intro h
    refine ⟨(0x2200000 - v) / 0x1000, ?_, ?_⟩
    · omega
    · omega

/-- Thirty-two free frames above 1 MiB. -/
def roomyPmm : PmmAllocator := ⟨32, 0x100000, by decide⟩

theorem roomyPmm_physical : roomyPmm.Physical := ⟨⟨by decide, by decide, by decide⟩, by decide⟩

theorem roomyPmm_space : ProcessSpace roomyPmm bootMach bootMach.cr3 := by
  refine ⟨bootMem_wellFormed bootFrames rfl rfl ?_, bootMach_space.noGiant,
    bootMach_space.userTables, ?_⟩
  · intro f hf hfree
    have hle := (PmmAllocator.managed_of_mem_freeFrames hfree).le
    simp only [roomyPmm] at hle
    simp only [List.mem_cons, List.not_mem_nil, or_false] at hf
    omega
  · intro v hv
    rw [show leafEntry bootMach.mem bootMach.cr3 v = 0#64 from bootMem_leafEntry bootFrames v] at hv
    exact absurd hv (by decide)

end

end Vibix.Kernel
