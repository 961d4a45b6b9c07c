import Vibix.Paging.Boot
import Vibix.Paging.CreateSpec

/-! # Fork address-space construction

`createPml4Inner` as a whole: provisioning (`Prepared`: only the scratch branch of the active root
was extended), construction, rollback and cleanup.  The two results are

* `create_failure_atomic`: a failed construction leaves the bitmap and the active root as they
  were; a successful one takes exactly the frames the new root owns and keeps the kernel's half of
  the address space;
* the descriptions of the copied entries, stated for the state at the call
  (`createPml4Inner_spec`). -/

namespace Vibix.Paging

open FrameTree

/-- From `m` to `m₁` at most the scratch branch of the active root was extended. -/
structure Prepared (p : PmmAllocator) (m m₁ : Mach) : Prop where
  cr3 : m₁.cr3 = m.cr3
  paths : ∀ q f, frameAt tableOf m.mem m.cr3 q = some f → frameAt tableOf m₁.mem m.cr3 q = some f
  table_cases : ∀ f ∈ tables m₁.mem m.cr3, f ∈ tables m.mem m.cr3 ∨ f ∈ p.freeFrames m.bitmap
  used : ∀ f, f ∉ p.freeFrames m.bitmap → f ∉ p.freeFrames m₁.bitmap
  entry : ∀ q f x, frameAt tableOf m.mem m.cr3 q = some f → ¬ [scratchIndex, 0] <:+ x :: q →
    m₁.mem f x = m.mem f x
  other : ∀ f, f ∉ p.freeFrames m.bitmap → f ∉ tables m.mem m.cr3 → m₁.mem f = m.mem f

section Prepared

variable {p : PmmAllocator} {m m₁ m' : Mach} {prov : ScratchProvision} {l3 l2 l1 t new : ℕ}
  {x i j : Fin 512} {copyUser : Bool} {D : Set ℕ} {mem : PhysMem} {src e : BitVec 64}

theorem Prepared.refl (p : PmmAllocator) (m : Mach) : Prepared p m m :=
  ⟨rfl, fun _ _ h => h, fun _ h => Or.inl h, fun _ h => h, fun _ _ _ _ _ => rfl, fun _ _ _ => rfl⟩

theorem Provisioned.prepared (hp : p.Physical) (hwf : WellFormed p m)
    (h : Provisioned p m prov m₁ m' l3 l2 l1) : Prepared p m m' := by
  obtain ⟨hwf₁, _, hcr3', hl3, hl2, _⟩ := h.spec hp hwf
  have hcr3 := h.pd.cr3
  have hl2₁ : frameAt tableOf m₁.mem m₁.cr3 [scratchIndex, 0] = some l2 := by rw [hcr3, hl2]
  obtain ⟨_, _, _, hold₁, htab₁, _⟩ := h.pd.wf hp hwf hl3 (by simp)
  obtain ⟨_, _, _, hold', htab', _⟩ := h.pt.wf hp hwf₁ hl2₁ (by simp)
  rw [hcr3] at hold' htab'
  have hused₁ : ∀ f, f ∉ p.freeFrames m.bitmap → f ∉ p.freeFrames m₁.bitmap :=
    fun _ => h.pd.used
  have htables₁ : ∀ f ∈ tables m₁.mem m.cr3,
      f ∈ tables m.mem m.cr3 ∨ f ∈ p.freeFrames m.bitmap := by
    intro f hf
    rcases htab₁ f hf with hf | ⟨rfl, hne⟩
    · exact Or.inl hf
    · exact Or.inr (h.pd.new_free hne)
  refine ⟨hcr3', fun q f hf => hold' q f (hold₁ q f hf), ?_, fun f hf => h.pt.used (hused₁ f hf),
    ?_, ?_⟩
  · intro f hf
    rcases htab' f hf with hf | ⟨rfl, hne⟩
    · exact htables₁ f hf
    · right
      by_contra hfree
      exact hused₁ _ hfree (h.pt.new_free hne)
  · intro q f y hq hpath
    have hused := hwf.used f ⟨q, hq⟩
    rw [h.pt.mem_eq (hused₁ f hused), h.pd.mem_eq hused]
    · rintro ⟨rfl, rfl⟩
      rw [hwf.priv q [0] f hq hl3] at hpath
      exact hpath (List.suffix_refl _)
    · rintro ⟨rfl, rfl⟩
      have hpriv := hwf₁.priv
      rw [hcr3] at hpriv
      rw [hpriv q _ f (hold₁ q f hq) hl2] at hpath
      exact hpath (List.suffix_cons _ _)
  · intro f hused hf
    funext y
    rw [h.pt.mem_eq (hused₁ f hused), h.pd.mem_eq hused]
    · rintro ⟨rfl, _⟩
      exact hf ⟨_, hl3⟩
    · rintro ⟨rfl, _⟩
      exact (htables₁ f ⟨_, hl2⟩).elim hf hused

/-! ### The descriptions, for the state at the call -/

theorem PteCopied.transfer (hpre : Prepared p m m₁) (h : PteCopied p m₁ D mem src e) :
    PteCopied p m D mem src e := by
  cases h with
  | shared h => exact .shared h
  | cloned hleaf hframe hin hcopy =>
    refine .cloned hleaf hframe hin fun hused htab => ?_
    rw [hcopy (hpre.used _ hused), hpre.other _ hused htab]
    intro hmem
    rw [hpre.cr3] at hmem
    exact (hpre.table_cases _ hmem).elim htab hused

theorem not_scratch_suffix (hi : i ≠ scratchIndex) (q : List (Fin 512)) :
    ¬ [scratchIndex, 0] <:+ q ++ [i, 0] := by
  intro h
  have hsuf : [scratchIndex, (0 : Fin 512)] <:+ [i, 0] :=
    List.suffix_of_suffix_length_le h (List.suffix_append q _) (by simp)
  have heq := hsuf.eq_of_length (by simp)
  exact hi (List.cons.inj heq).1.symm

theorem PdeCopied.transfer {d : ℕ} (hpre : Prepared p m m₁)
    (hd : frameAt tableOf m.mem m.cr3 [i, 0] = some d) (hi : i ≠ scratchIndex)
    (h : PdeCopied p m₁ copyUser i j D mem (m₁.mem d j) e) :
    PdeCopied p m copyUser i j D mem (m.mem d j) e := by
  rw [hpre.entry _ _ j hd (not_scratch_suffix hi [j])] at h
  generalize hsrc : m.mem d j = src at h ⊢
  cases h with
  | absent h => exact .absent h
  | dropped hv h => exact .dropped hv h
  | shared h => exact .shared h
  | kernelHuge hv hc hh hu => exact .kernelHuge hv hc hh hu
  | cloned hv hc htab hframe hin hpt =>
    have ht : frameAt tableOf m.mem m.cr3 [j, i, 0] = some (entryAddr src) := by
      rw [frameAt_cons_of hd, hsrc]
      exact tableOf_of_isTable (by simp) htab
    refine .cloned hv hc htab hframe hin fun k => ?_
    rw [← hpre.entry _ _ k ht (not_scratch_suffix hi [k, j])]
    exact (hpt k).transfer hpre

theorem PdpteCopied.transfer {t : ℕ} (hpre : Prepared p m m₁)
    (ht : frameAt tableOf m.mem m.cr3 [0] = some t)
    (h : PdpteCopied p m₁ copyUser i D mem (m₁.mem t i) e) :
    PdpteCopied p m copyUser i D mem (m.mem t i) e := by
  by_cases hi : i = scratchIndex
  · cases h with
    | hugePage hne => exact absurd hi hne
    | table hne => exact absurd hi hne
    | absent => exact .scratch hi
    | scratch => exact .scratch hi
    | dropped => exact .scratch hi
  · rw [hpre.entry _ _ i ht (not_scratch_suffix hi [])] at h
    generalize hsrc : m.mem t i = src at h ⊢
    cases h with
    | absent h => exact .absent h
    | scratch h => exact .scratch h
    | dropped hi h => exact .dropped hi h
    | hugePage hi hh hu => exact .hugePage hi hh hu
    | table hi htab hframe hin hpd =>
      have hd : frameAt tableOf m.mem m.cr3 [i, 0] = some (entryAddr src) := by
        rw [frameAt_cons_of ht, hsrc]
        exact tableOf_of_isTable (by simp) htab
      exact .table hi htab hframe hin fun j => (hpd j).transfer hpre hd hi

theorem RootCopied.transfer {r : ℕ} (hpre : Prepared p m m₁)
    (h : RootCopied p m₁ copyUser mem r) : RootCopied p m copyUser mem r := by
  have hroot : m₁.mem m₁.cr3 = m.mem m.cr3 := by
    funext x
    rw [hpre.cr3]
    refine hpre.entry [] _ x rfl ?_
    intro hsuf
    simpa using hsuf.length_le
  obtain ⟨hfirst, hkernel⟩ := h
  rw [hroot] at hfirst hkernel
  refine ⟨?_, hkernel⟩
  generalize mem r 0 = e at hfirst ⊢
  cases hfirst with
  | absent h => exact .absent h
  | table hpr hframe hin hpdpt =>
    exact .table hpr hframe hin fun i => (hpdpt i).transfer hpre (frameAt_pdpt hpr)

/-- The description relies on the owned frames only. -/
theorem RootCopied.congr {mem' : PhysMem} {r : ℕ} (h : RootCopied p m copyUser mem r)
    (hmem : ∀ f ∈ owned mem r, mem' f = mem f) : RootCopied p m copyUser mem' r := by
  have hr : mem' r = mem r := hmem r root_mem_footprint
  have hD : below ownedBy mem r [] ⊆ below ownedBy mem' r [] := by
    apply below_mono
    intro path f hf
    rw [frameAt_of_eqOn hmem, hf]
  have hagree : ∀ f ∈ below ownedBy mem r [], mem' f = mem f := by
    rintro f ⟨x, z, hf⟩
    exact hmem f ⟨_, hf⟩
  obtain ⟨hfirst, hkernel⟩ := h
  refine ⟨?_, fun x hx => by rw [hr, hkernel x hx]⟩
  rw [hr]
  generalize mem r 0 = e at hfirst ⊢
  cases hfirst with
  | absent h => exact .absent h
  | table hpr hframe hin hpdpt =>
    refine .table hpr hframe (hD hin) fun i => ?_
    rw [hagree _ hin]
    exact (hpdpt i).congr hD hagree

end Prepared

/-! ### The constructor -/

section Create

variable {p : PmmAllocator} {m m₁ : Mach} {l1 : ℕ} {copyUser : Bool}

/-- The state before the scratch mapping is cleaned up: rolled back, or with the root built. -/
inductive Constructed (p : PmmAllocator) (m₁ : Mach) (copyUser : Bool) : Mach → Option ℕ → Prop
  | rolledBack {m₂ : Mach} : m₂.bitmap = m₁.bitmap → m₂.cr3 = m₁.cr3 →
      (∀ f, f ∉ p.freeFrames m₁.bitmap → m₂.mem f = m₁.mem f) →
      Constructed p m₁ copyUser m₂ none
  | built {m₂ : Mach} {r : ℕ} : Built p NotUserHuge m₁ r ∅ m₂ → RootCopied p m₁ copyUser m₂.mem r →
      Constructed p m₁ copyUser m₂ (some r)

theorem createWithScratch_spec (failAfter : Option ℕ) (prov : Option ScratchProvision)
    (hs : Source p m₁ copyUser l1) :
    ∃ m₂ res, createWithScratch p copyUser failAfter prov m₁ =
      some (cleanupOptional p m₂ prov, res) ∧ Constructed p m₁ copyUser m₂ res := by
  unfold createWithScratch
  by_cases hnull : (p.alloc m₁.bitmap).2 = 0
  · simp only [hnull, ↓reduceIte, mach_alloc_null hs.phys hnull]
    exact ⟨m₁, none, rfl, .rolledBack rfl rfl fun _ _ => rfl⟩
  · have htake := PmmAllocator.taken_alloc hs.phys.toValid hnull
    obtain ⟨m₂, b, hfill, hb, hcopied⟩ := fillPml4_spec failAfter hs htake
    simp only [hnull, ↓reduceIte, hfill]
    cases b with
    | true => exact ⟨m₂, _, rfl, .built hb (hcopied rfl)⟩
    | false =>
      refine ⟨destroyUncommittedPml4 p m₂ _, none, rfl, ?_⟩
      rw [hb.destroy fun _ _ _ h => h]
      refine .rolledBack rfl hb.cr3 ?_
      exact hb.outside

theorem Constructed.outside {m₂ : Mach} {res : Option ℕ} (h : Constructed p m₁ copyUser m₂ res)
    {f : ℕ} (hf : f ∉ p.freeFrames m₁.bitmap) : m₂.mem f = m₁.mem f := by
  cases h with
  | rolledBack _ _ hmem => exact hmem f hf
  | built hb => exact hb.outside f hf

theorem Constructed.cr3 {m₂ : Mach} {res : Option ℕ} (h : Constructed p m₁ copyUser m₂ res) :
    m₂.cr3 = m₁.cr3 := by
  cases h with
  | rolledBack _ hcr3 => exact hcr3
  | built hb => exact hb.cr3

theorem Constructed.taken {m₂ : Mach} {res : Option ℕ} (h : Constructed p m₁ copyUser m₂ res) :
    ∃ S, p.Taken m₁.bitmap S m₂.bitmap := by
  cases h with
  | rolledBack hbm =>
    rw [hbm]
    exact ⟨∅, PmmAllocator.Taken.refl p m₁.bitmap⟩
  | built hb => exact ⟨_, hb.taken⟩

/-- What the constructor returns, relative to the state `m` at the call. -/
structure Created (p : PmmAllocator) (m : Mach) (copyUser : Bool) (m' : Mach)
    (res : Option ℕ) : Prop where
  cr3 : m'.cr3 = m.cr3
  used : ∀ f, f ∉ p.freeFrames m.bitmap → m'.mem f = m.mem f
  failed : res = none → m'.bitmap = m.bitmap
  taken : ∀ r, res = some r → p.Taken m.bitmap (owned m'.mem r) m'.bitmap
  priv : ∀ r, res = some r → Private ownedBy m'.mem r
  noHuge : ∀ r, res = some r → NoUserHuge m'.mem r
  copied : ∀ r, res = some r → RootCopied p m copyUser m'.mem r

/-- The result, given what the cleanup of the scratch mapping did. -/
theorem Constructed.created {m₂ m' : Mach} {res : Option ℕ} (hwf₁ : WellFormed p m₁)
    (hpre : Prepared p m m₁) (h : Constructed p m₁ copyUser m₂ res) (hcr3 : m'.cr3 = m.cr3)
    (htake : ∀ S, p.Taken m₁.bitmap S m₂.bitmap → p.Taken m.bitmap S m'.bitmap)
    (htables : ∀ f ∈ tables m.mem m.cr3, m'.mem f = m.mem f)
    (hrest : ∀ f, f ∉ tables m₁.mem m₁.cr3 → m'.mem f = m₂.mem f) :
    Created p m copyUser m' res := by
  have hused : ∀ f, f ∉ p.freeFrames m.bitmap → m'.mem f = m.mem f := by
    intro f hf
    by_cases htab : f ∈ tables m.mem m.cr3
    · exact htables f htab
    · rw [hrest f, h.outside (hpre.used f hf), hpre.other f hf htab]
      rw [hpre.cr3]
      exact fun hc => (hpre.table_cases f hc).elim htab hf
  cases h with
  | rolledBack hbm hcr hmem =>
    have hback := htake ∅ (hbm ▸ PmmAllocator.Taken.refl p m₁.bitmap)
    exact ⟨hcr3, hused, fun _ => hback.eq, by simp, by simp, by simp, by simp⟩
  | @built r hb hcopied =>
    have hsame : ∀ f ∈ owned m₂.mem r, m'.mem f = m₂.mem f :=
      fun f hf => hrest f fun htab => hwf₁.used f htab (hb.free_of_owned hf)
    have hframe := frameAt_of_eqOn hsame
    have howned : owned m'.mem r = owned m₂.mem r := footprint_congr hframe
    refine ⟨hcr3, hused, by simp, ?_, ?_, ?_, ?_⟩
    · rintro _ ⟨⟩
      have htaken := htake _ hb.taken
      rwa [Set.union_empty, ← howned] at htaken
    · rintro _ ⟨⟩
      exact hb.priv.congr hframe
    · rintro _ ⟨⟩
      exact hb.entries.congr hsame
    · rintro _ ⟨⟩
      exact (hcopied.congr hsame).transfer hpre

/-- **The constructor never faults**, and returns what `Created` says. -/
theorem createPml4Inner_spec (copyUser : Bool) (failAfter : Option ℕ) (hp : p.Physical)
    (hwf : WellFormed p m) :
    ∃ m' res, createPml4Inner p m copyUser failAfter = some (m', res) ∧
      Created p m copyUser m' res := by
  unfold createPml4Inner
  cases copyUser with
  | false =>
    have hs : Source p m false 0 := ⟨hp, hwf, by simp⟩
    obtain ⟨m₂, res, hrun, hres⟩ := createWithScratch_spec failAfter none hs
    exact ⟨m₂, res, hrun, hres.created hwf (Prepared.refl p m) hres.cr3 (fun _ h => h)
      (fun f hf => hres.outside (hwf.used f hf)) fun _ _ => rfl⟩
  | true =>
    simp only [↓reduceIte]
    rcases provisionKernelScratch_spec hp hwf with
      ⟨m', hrun, hbm, hcr3, hmem⟩ | ⟨prov, m₀, m₁, l3, l2, l1, hrun, hprov⟩
    · rw [hrun]
      exact ⟨m', none, rfl, hcr3, hmem, fun _ => hbm, by simp, by simp, by simp, by simp⟩
    · rw [hrun]
      obtain ⟨_, hwf₁, hcr3₁, _, _, _, _, hscr⟩ := hprov.spec hp hwf
      have hs : Source p m₁ true l1 := by
        refine ⟨hp, hwf₁, fun _ => ⟨?_, ?_, hprov.leaf⟩⟩
        · rw [hcr3₁, hprov.root_entry hp hwf]
          exact hprov.root.2.1
        · rw [hcr3₁]
          exact hscr
      obtain ⟨m₂, res, hrun', hres⟩ := createWithScratch_spec failAfter (some prov) hs
      have hmem₂ : ∀ f ∈ tables m₁.mem m.cr3, m₂.mem f = m₁.mem f :=
        fun f hf => hres.outside (hwf₁.used f (hcr3₁ ▸ hf))
      have hcr3₂ : m₂.cr3 = m.cr3 := hres.cr3.trans hcr3₁
      obtain ⟨S, hS⟩ := hres.taken
      obtain ⟨_, htables, hrest, hcr3'⟩ := hprov.cleanup hp hwf hcr3₂ hS hmem₂
      refine ⟨_, res, hrun', hres.created hwf₁ (hprov.prepared hp hwf) hcr3'
        (fun S hS => (hprov.cleanup hp hwf hcr3₂ hS hmem₂).1) htables ?_⟩
      rw [hcr3₁]
      exact hrest

/-! ### Failure atomicity -/

/-- Below `USER_CODE_ADDR` the new root translates as the active one. -/
theorem RootCopied.walk_below {mem : PhysMem} {r v : ℕ} (h : RootCopied p m copyUser mem r)
    (hmem : ∀ f ∈ tables m.mem m.cr3, mem f = m.mem f) (hv : v < userCodeAddr) :
    walk mem r v = walk m.mem m.cr3 v := by
  simp only [userCodeAddr] at hv
  have h4 : l4Index v = 0 := Fin.ext (by simp only [l4Index, Fin.val_zero]; omega)
  have h3 : l3Index v = 0 := Fin.ext (by simp only [l3Index, Fin.val_zero]; omega)
  have hlow : pdVaddr 0 (l2Index v) < userCodeAddr := by
    simp only [pdVaddr, l2Index, userCodeAddr, Fin.val_zero]
    omega
  have hfirst := h.first
  unfold walk
  simp only [h4, h3]
  generalize mem r 0 = e4 at hfirst ⊢
  cases hfirst with
  | absent hnp => simp [hnp]
  | table hpr hframe _ hpdpt =>
    have hpdpte := hpdpt 0
    have hl3 := frameAt_pdpt hpr
    simp only [present_mkEntry hframe, present_tableFlags, hpr,
      entryAddr_mkEntry hframe (noAddr_tableFlags _), Bool.not_true, Bool.false_eq_true,
      ↓reduceIte]
    generalize hsrc3 : m.mem (entryAddr (m.mem m.cr3 0)) 0 = src3 at hpdpte ⊢
    generalize mem _ 0 = e3 at hpdpte ⊢
    cases hpdpte with
    | absent hnp => simp [hnp]
    | scratch h => exact absurd h (by decide)
    | dropped h => exact absurd rfl h
    | hugePage _ hh _ =>
      simp only [present_freshHuge, huge_freshHuge, entryAddr_freshHuge, hh, ↓reduceIte]
    | table _ htab hframe _ hpd =>
      have hpde := hpd (l2Index v)
      obtain ⟨hpr3, hhuge3⟩ := isTable_eq_true.mp htab
      have hl2 : frameAt tableOf m.mem m.cr3 [0, 0] = some (entryAddr src3) := by
        rw [frameAt_cons_of hl3, hsrc3]
        exact tableOf_of_isTable (by simp) htab
      simp only [present_mkEntry hframe, huge_mkEntry hframe, present_tableFlags,
        huge_tableFlags, hpr3, hhuge3, entryAddr_mkEntry hframe (noAddr_tableFlags _),
        Bool.not_true, Bool.false_eq_true, ↓reduceIte]
      generalize hsrc2 : m.mem (entryAddr src3) (l2Index v) = src2 at hpde ⊢
      generalize mem _ (l2Index v) = e2 at hpde ⊢
      -- a shared entry leads to the same PT, which is a table of the active root
      have hpt : isTable src2 = true → mem (entryAddr src2) = m.mem (entryAddr src2) := by
        intro htab2
        refine hmem _ ⟨[l2Index v, 0, 0], ?_⟩
        rw [frameAt_cons_of hl2, hsrc2]
        exact tableOf_of_isTable (by simp) htab2
      cases hpde with
      | absent hnp => simp [hnp]
      | dropped hv' => exact absurd hlow (Nat.not_lt.mpr hv')
      | cloned hv' => exact absurd hlow (Nat.not_lt.mpr hv')
      | kernelHuge hv' => exact absurd hlow (Nat.not_lt.mpr hv')
      | shared _ =>
        cases htab2 : isTable src2 with
        | true => rw [hpt htab2]
        | false =>
          by_cases hpr2 : present src2 = true
          · have hhuge2 : huge src2 = true := by simpa [isTable, hpr2] using htab2
            simp only [hhuge2, ↓reduceIte]
          · simp [hpr2]

end Create

/-! ### A machine after boot -/

/-- Sixteen free frames above 1 MiB. -/
def bootPmm : PmmAllocator := ⟨16, 0x100000, by decide⟩

/-- The machine after boot, with all managed frames free. -/
def bootMach : Mach := ⟨bootMem 0x1000 0x2000 0x3000, WordBitmap.fill 0#8, 0x1000⟩

theorem bootPmm_physical : bootPmm.Physical :=
  ⟨⟨by decide, by decide, by decide⟩, by decide⟩

theorem bootFrames : BootFrames 0x1000 0x2000 0x3000 :=
  ⟨⟨by decide, by decide⟩, ⟨by decide, by decide⟩, ⟨by decide, by decide⟩, by decide⟩

theorem bootMach_wellFormed : WellFormed bootPmm bootMach := by
  refine bootMem_wellFormed bootFrames rfl rfl ?_
  intro f hf hfree
  have hle := (PmmAllocator.managed_of_mem_freeFrames hfree).le
  simp only [bootPmm] at hle
  rcases List.mem_cons.mp hf with rfl | hf
  · omega
  · rcases List.mem_cons.mp hf with rfl | hf
    · omega
    · rw [List.mem_singleton] at hf
      omega

end Vibix.Paging
