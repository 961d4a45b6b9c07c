import Vibix.Elf.Confine
import Vibix.Elf.LoaderSpec
import Vibix.Paging.Extend

/-! # What a loaded image contains

A load that succeeds leaves an address space in which every page it mapped holds the bytes of the
file, later segments over earlier ones, and zeros elsewhere (`load_contents`).

The invariant of the mapping pass is `Loaded`: the records of the provenance list are exactly the
pages mapped so far, each by its own user leaf to its own frame, which is no table; and their bytes
are given by a function of the address.  Mapping a page keeps that function as long as it is zero on
a page that is new (`mapPage_loaded`), storing bytes updates it (`storeBytes_loaded`), and a round of
the pass takes the function for the headers done so far to the one for one header more
(`loadSegment_loaded`). -/

namespace Vibix.Elf

open Paging LoadedPages

/-- The file-backed range of a `PT_LOAD` covers the address. -/
def Phdr.covers (phdr : Phdr) (a : ℕ) : Bool :=
  phdr.pType = ptLoad && phdr.pVaddr ≤ a && a < phdr.pVaddr + phdr.pFilesz

/-- The byte an image has at an address: that of the last of its headers that covers it, and zero
if none does. -/
def fileByte (data : Image) (phdrs : List Phdr) (a : ℕ) : Option (BitVec 8) :=
  match (phdrs.filter fun phdr => phdr.covers a).getLast? with
  | some phdr => data[phdr.pOffset + (a - phdr.pVaddr)]?
  | none => some 0

/-- The program headers of an image. -/
def headers (data : Image) : List Phdr :=
  (List.range (readEhdr data).ePhnum).map (phdrAt data (readEhdr data))

/-- The byte a kernel access to `a` reads under `root`. -/
def byteAt (mem : PhysMem) (root a : ℕ) : Option (BitVec 8) := (access root mem a).map mem.readByte

theorem fileByte_concat (data : Image) (phdrs : List Phdr) (phdr : Phdr) (a : ℕ) :
    fileByte data (phdrs ++ [phdr]) a =
      if phdr.covers a then data[phdr.pOffset + (a - phdr.pVaddr)]? else fileByte data phdrs a := by
  unfold fileByte
  rw [List.filter_append, List.filter_singleton]
  split_ifs with h
  · simp [h]
  · simp [h]

theorem fileByte_of_not_covers {data : Image} {phdrs : List Phdr} {a : ℕ}
    (h : ∀ phdr ∈ phdrs, phdr.covers a = false) : fileByte data phdrs a = some 0 := by
  have hnil : phdrs.filter (fun phdr => phdr.covers a) = [] := by
    rw [List.filter_eq_nil_iff]
    intro phdr hmem
    simp [h phdr hmem]
  simp [fileByte, hnil]

/-- Pages at canonical addresses are told apart by their indices. -/
theorem canonical_add {v k : ℕ} (hc : canonical v = true) (hv : v % 4096 = 0) (hk : k < 4096) :
    canonical (v + k) = true := by
  simp only [canonical, Bool.or_eq_true, decide_eq_true_eq] at hc ⊢
  omega

/-- The page `v` is recorded. -/
def Loader.Has (s : Loader) (v : ℕ) : Prop := ∃ r ∈ s.records, r.vaddr = v

/-- The invariant of the mapping pass: the recorded pages are mapped to frames of their own, and
`c` gives their bytes.  In a process root nothing else is mapped. -/
structure Loaded (p : PmmAllocator) (root : ℕ) (m₀ : Mach) (c : ℕ → Option (BitVec 8))
    (s : Loader) : Prop where
  sound : ∃ mask, s.pages.Sound mask s.arena
  mapped : s.mapped = (s.records.map LoadedPage.vaddr).reverse
  ok : TablesOk p s.mach root
  noGiant : NoGiant s.mach.mem root
  free : p.freeFrames s.mach.bitmap ⊆ p.freeFrames m₀.bitmap
  nodup : (s.records.map LoadedPage.vaddr).Nodup
  frames : (s.records.map LoadedPage.paddr).Nodup
  page : ∀ r ∈ s.records, canonical r.vaddr = true ∧ r.vaddr < 2 ^ 64 ∧ r.vaddr % 4096 = 0
  frame : ∀ r ∈ s.records, IsFrame r.paddr ∧ r.paddr ∈ p.freeFrames m₀.bitmap ∧
    r.paddr ∉ p.freeFrames s.mach.bitmap ∧ r.paddr ∉ tables s.mach.mem root
  leaf : ∀ r ∈ s.records, UserPath s.mach.mem root r.vaddr ∧
    leafEntry s.mach.mem root r.vaddr = mkEntry r.paddr pageUserRw
  bytes : ∀ r ∈ s.records, ∀ k < 4096, some (s.mach.mem.readByte (r.paddr + k)) = c (r.vaddr + k)
  space : ProcessSpace p m₀ root → Populated p root {v | s.Has v} m₀ s.mach

section

variable {p : PmmAllocator} {root : ℕ} {m₀ : Mach} {c : ℕ → Option (BitVec 8)} {s s' : Loader}

theorem entryAddr_leaf {r : LoadedPage} (hr : IsFrame r.paddr) :
    entryAddr (mkEntry r.paddr pageUserRw) = r.paddr :=
  entryAddr_mkEntry hr noAddr_pageUserRw

/-- Where an access to a recorded page goes. -/
theorem Loaded.access_eq (h : Loaded p root m₀ c s) {r : LoadedPage} (hr : r ∈ s.records) {k : ℕ}
    (hk : k < 4096) : access root s.mach.mem (r.vaddr + k) = some (r.paddr + k) := by
  obtain ⟨hcan, -, hal⟩ := h.page r hr
  have hframe := (h.frame r hr).1
  have hleaf : leafEntry s.mach.mem root (r.vaddr + k) = mkEntry r.paddr pageUserRw := by
    rw [leafEntry_samePage (samePage_add hal hk)]
    exact (h.leaf r hr).2
  have hpr : present (leafEntry s.mach.mem root (r.vaddr + k)) = true := by
    rw [hleaf, present_mkEntry hframe, present_pageUserRw]
  unfold access
  rw [if_pos (canonical_add hcan hal hk), walk_of_leafEntry hpr, hleaf, entryAddr_leaf hframe]
  congr 2
  omega

/-- Changing the contents of recorded frames keeps the mappings; the bytes have to be known
again. -/
theorem Loaded.setMem (h : Loaded p root m₀ c s) {mem : PhysMem} {c' : ℕ → Option (BitVec 8)}
    (stored : List (ℕ × ℕ)) (hmem : ∀ g, (∀ r ∈ s.records, r.paddr ≠ g) → mem g = s.mach.mem g)
    (hbytes : ∀ r ∈ s.records, ∀ k < 4096, some (mem.readByte (r.paddr + k)) = c' (r.vaddr + k)) :
    Loaded p root m₀ c' { s with mach := { s.mach with mem := mem }, stored := stored } := by
  have htab : ∀ f ∈ tables s.mach.mem root, mem f = s.mach.mem f := by
    intro f hf
    refine hmem f fun r hr heq => ?_
    rw [← heq] at hf
    exact (h.frame r hr).2.2.2 hf
  refine ⟨h.sound, h.mapped, h.ok.congr htab fun _ hf => hf, h.noGiant.congr htab, h.free, h.nodup,
    h.frames, h.page, ?_, ?_, hbytes, ?_⟩
  · intro r hr
    obtain ⟨h1, h2, h3, h4⟩ := h.frame r hr
    refine ⟨h1, h2, h3, ?_⟩
    rw [show tables mem root = tables s.mach.mem root from
      FrameTree.footprint_congr (FrameTree.frameAt_of_eqOn htab)]
    exact h4
  · intro r hr
    obtain ⟨huser, hleaf⟩ := h.leaf r hr
    exact ⟨huser.congr htab, (leafEntry_congr htab _).trans hleaf⟩
  · intro hs
    refine (h.space hs).setMem fun g hg => ?_
    by_contra hno
    refine hg (hmem g fun r hr heq => hno ?_)
    rw [← heq]
    exact (h.frame r hr).2

theorem Loaded.eq_of_vaddr (h : Loaded p root m₀ c s) {r r' : LoadedPage} (hr : r ∈ s.records)
    (hr' : r' ∈ s.records) (heq : r.vaddr = r'.vaddr) : r = r' :=
  List.inj_on_of_nodup_map h.nodup hr hr' heq

theorem Loaded.eq_of_paddr (h : Loaded p root m₀ c s) {r r' : LoadedPage} (hr : r ∈ s.records)
    (hr' : r' ∈ s.records) (heq : r.paddr = r'.paddr) : r = r' :=
  List.inj_on_of_nodup_map h.frames hr hr' heq

/-- Storing one byte to a recorded page. -/
theorem Loaded.storeByte (h : Loaded p root m₀ c s) {r : LoadedPage} (hr : r ∈ s.records) {k : ℕ}
    (hk : k < 4096) (b : BitVec 8) :
    Loaded p root m₀ (fun a => if a = r.vaddr + k then some b else c a)
      { s with mach := { s.mach with mem := s.mach.mem.writeByte (r.paddr + k) b } } := by
  have hpa := (h.frame r hr).1.1
  refine h.setMem s.stored ?_ ?_
  · intro g hg
    apply PhysMem.writeByte_frame_ne
    rw [PhysMem.frameOf_add hpa hk]
    exact (hg r hr).symm
  · intro r' hr' k' hk'
    have hpa' := (h.frame r' hr').1.1
    have hva := (h.page r hr).2.2
    have hva' := (h.page r' hr').2.2
    rw [PhysMem.readByte_writeByte]
    by_cases heq : r' = r
    · rw [heq]
      by_cases hkk : k' = k
      · rw [hkk, if_pos rfl, if_pos rfl]
      · rw [if_neg (by omega), if_neg (by omega)]
        exact h.bytes r hr k' hk'
    · rw [if_neg, if_neg]
      · exact h.bytes r' hr' k' hk'
      · exact fun hv => heq (h.eq_of_vaddr hr' hr (by omega))
      · exact fun hp => heq (h.eq_of_paddr hr' hr (by omega))

/-- **Storing bytes** to pages that are mapped: no fault, and the bytes are there. -/
theorem storeBytes_loaded (h : Loaded p root m₀ c s) (v : ℕ) (bs : List (BitVec 8))
    (hpages : ∀ b, v ≤ b → b < v + bs.length → ∃ r ∈ s.records, r.vaddr = pageDown b) :
    Spec (storeBytes root v bs) s
      (fun _ s' => s'.records = s.records ∧ Loaded p root m₀
        (fun a => if v ≤ a ∧ a < v + bs.length then bs[a - v]? else c a) s')
      (fun _ _ => False) := by
  induction bs generalizing v c s with
  | nil =>
    refine Spec.ret ⟨rfl, ?_⟩
    have hsame : (fun a => if v ≤ a ∧ a < v + 0 then ([] : List (BitVec 8))[a - v]? else c a) = c := by
      funext a
      rw [if_neg (by omega)]
    rw [List.length_nil, hsame]
    exact h
  | cons b bs ih =>
    obtain ⟨r, hr, hrv⟩ := hpages v le_rfl (by simp)
    have hv : r.vaddr + v % 4096 = v := by
      simp only [hrv, PhysMem.frameOf]
      omega
    have hacc := h.access_eq hr (Nat.mod_lt v (by norm_num : 0 < 4096))
    rw [hv] at hacc
    refine Spec.read_bind ?_
    rw [hacc]
    have h₁ := h.storeByte hr (Nat.mod_lt v (by norm_num : 0 < 4096)) b
    refine Spec.write_bind ((ih h₁ (v + 1) ?_).mono ?_ fun _ _ hf => hf)
    · intro b' hlo hhi
      exact hpages b' (by omega) (by rw [List.length_cons]; omega)
    · rintro _ s' ⟨hrec, h'⟩
      refine ⟨hrec, ?_⟩
      convert h' using 1
      funext a
      rw [hv, List.length_cons]
      by_cases ha : a = v
      · subst ha
        simp
      · by_cases hlt : v + 1 ≤ a ∧ a < v + 1 + bs.length
        · have hidx : a - v = a - (v + 1) + 1 := by omega
          rw [if_pos (by omega), if_pos hlt, hidx, List.getElem?_cons_succ]
        · rw [if_neg (by omega), if_neg hlt, if_neg ha]

/-- The state after a page was mapped and zeroed. -/
theorem Loaded.addPage (hp : p.Physical) (h : Loaded p root m₀ c s) {v f pa : ℕ} {m₂ m₃ : Mach}
    (hmem : m₂.mem = s.mach.mem) (hcr3 : m₂.cr3 = s.mach.cr3) (htake : p.Taken s.mach.bitmap {f} m₂.bitmap)
    (hmap : tryMap4k p m₂ root v f pageUserRw = (m₃, true))
    (hacc : access root m₃.mem v = some pa) (hv64 : v < 2 ^ 64) (hva : v % 4096 = 0)
    (hnew : ∀ r ∈ s.records, r.vaddr ≠ v) (hc : ∀ k < 4096, c (v + k) = some 0)
    (hsound : ∃ mask, s'.pages.Sound mask s'.arena) (hrec : s'.records = s.records ++ [⟨v, f⟩])
    (hmapped : s'.mapped = v :: s.mapped) (hmach : s'.mach = m₃.zero (PhysMem.frameOf pa)) :
    Loaded p root m₀ c s' := by
  have hffree : f ∈ p.freeFrames s.mach.bitmap := htake.sub rfl
  have hframe : IsFrame f := isFrame_of_free hp hffree
  have hok₂ : TablesOk p m₂ root :=
    h.ok.congr (fun _ _ => by rw [hmem]) fun _ => htake.not_free_of_not_free
  have hg₂ : NoGiant m₂.mem root := by
    rw [hmem]
    exact h.noGiant
  obtain ⟨m', b, hrun, hkept, huser, hleaf⟩ := tryMap4k_page (v := v) hp hok₂ hg₂ hframe
  rw [hmap] at hrun
  obtain ⟨rfl, rfl⟩ := Prod.mk.inj hrun
  simp only [true_and] at hleaf
  have huser := huser rfl
  have hfree₃ : p.freeFrames m₃.bitmap ⊆ p.freeFrames s.mach.bitmap :=
    hkept.free.trans (by rw [htake.free]; exact Set.sdiff_subset)
  have hf₂ : f ∉ p.freeFrames m₂.bitmap := by
    rw [htake.free]
    simp
  -- tables of the new tree are tables of the old one or were free
  have htab : ∀ g, g ∉ tables s.mach.mem root → g ∉ p.freeFrames m₂.bitmap →
      g ∉ tables m₃.mem root := by
    intro g hg hg' hgt
    rcases hkept.table_cases g hgt with hgt | hgt
    · rw [hmem] at hgt
      exact hg hgt
    · exact hg' hgt
  have hftab : f ∉ tables m₃.mem root := htab f (fun hg => h.ok.used f hg hffree) hf₂
  -- the access determines the frame that is zeroed
  have hcan : canonical v = true := by
    by_contra hc
    simp [access, hc] at hacc
  have hleafv : leafEntry m₃.mem root v = mkEntry f pageUserRw := by
    rw [hleaf, if_pos ⟨rfl, rfl⟩]
  have hpa : PhysMem.frameOf pa = f := by
    have hpr : present (leafEntry m₃.mem root v) = true := by
      rw [hleafv, present_mkEntry hframe, present_pageUserRw]
    rw [access, if_pos hcan, walk_of_leafEntry hpr, hleafv,
      entryAddr_mkEntry hframe noAddr_pageUserRw] at hacc
    rw [← Option.some.inj hacc]
    exact PhysMem.frameOf_add hframe.1 (Nat.mod_lt _ (by norm_num))
  rw [hpa] at hmach
  have hzero : ∀ g ∈ tables m₃.mem root, (m₃.zero f).mem g = m₃.mem g := by
    intro g hg
    apply PhysMem.setFrame_ne
    rintro rfl
    exact hftab hg
  have htables : tables (m₃.zero f).mem root = tables m₃.mem root :=
    FrameTree.footprint_congr (FrameTree.frameAt_of_eqOn hzero)
  have hold : ∀ r ∈ s.records, r.paddr ≠ f := fun r hr heq =>
    (h.frame r hr).2.2.1 (heq ▸ hffree)
  refine ⟨hsound, ?_, ?_, ?_, ?_, ?_, ?_, ?_, ?_, ?_, ?_, ?_⟩
  · rw [hmapped, hrec, h.mapped]
    simp
  · rw [hmach]
    exact hkept.ok.congr hzero fun _ hg => hg
  · rw [hmach]
    exact hkept.noGiant.congr hzero
  · rw [hmach]
    exact hfree₃.trans h.free
  · rw [hrec, List.map_append, List.map_singleton]
    refine List.nodup_append.mpr ⟨h.nodup, List.nodup_singleton _, ?_⟩
    simpa using hnew
  · rw [hrec, List.map_append, List.map_singleton]
    refine List.nodup_append.mpr ⟨h.frames, List.nodup_singleton _, ?_⟩
    simpa using hold
  · rw [hrec, List.forall_mem_append, List.forall_mem_singleton]
    exact ⟨h.page, hcan, hv64, hva⟩
  · rw [hrec, List.forall_mem_append, List.forall_mem_singleton, hmach, htables]
    refine ⟨fun r hr => ?_, hframe, h.free hffree, fun hg => hf₂ (hkept.free hg), hftab⟩
    obtain ⟨h1, h2, h3, h4⟩ := h.frame r hr
    exact ⟨h1, h2, fun hg => h3 (hfree₃ hg), htab _ h4 (htake.not_free_of_not_free h3)⟩
  · rw [hrec, List.forall_mem_append, List.forall_mem_singleton, hmach]
    refine ⟨fun r hr => ⟨?_, ?_⟩, huser.congr hzero, ?_⟩
    · refine (hkept.users _ ?_).congr hzero
      rw [hmem]
      exact (h.leaf r hr).1
    · rw [leafEntry_congr hzero, hleaf, if_neg, hmem]
      · exact (h.leaf r hr).2
      · obtain ⟨h1, h2, h3⟩ := h.page r hr
        intro hsame
        have hpage := (samePage_iff h1 hcan h2 hv64).mp hsame
        exact hnew r hr (by omega)
    · rw [leafEntry_congr hzero, hleafv]
  · rw [hrec, List.forall_mem_append, List.forall_mem_singleton, hmach]
    refine ⟨fun r hr k hk => ?_, fun k hk => ?_⟩
    · obtain ⟨h1, -, h3, h4⟩ := h.frame r hr
      rw [← h.bytes r hr k hk]
      congr 1
      apply PhysMem.readByte_congr
      rw [PhysMem.frameOf_add h1.1 hk]
      refine (PhysMem.setFrame_ne _ (hold r hr) _).trans ?_
      rw [hkept.other _ (by rw [hmem]; exact h4) (htake.not_free_of_not_free h3), hmem]
    · rw [hc k hk]
      congr 1
      apply PhysMem.readByte_zero
      rw [PhysMem.frameOf_add hframe.1 hk]
      exact PhysMem.setFrame_same _ _ _
  · intro hs
    have hold := h.space hs
    have hfetched : Fetched p s.mach f m₂ := ⟨hcr3, hffree, hf₂, htake.free.trans_subset
      Set.sdiff_subset, fun g _ => by rw [hmem]⟩
    obtain ⟨hstep, -, hf₃, -, -⟩ := tryMap4k_populated hp hfetched hold.ext.space hmap
    have hhas : {w | s'.Has w} = {w | s.Has w} ∪ {v} := by
      ext w
      simp [Loader.Has, hrec, or_comm, eq_comm]
    rw [hhas, hmach]
    refine (hold.trans hp hstep).setMem fun g hg => ?_
    obtain rfl : g = f := by
      by_contra hne
      exact hg (PhysMem.setFrame_ne _ hne _)
    exact ⟨h.free hffree, hf₃, hftab⟩

/-- **Mapping a page**: afterwards it is recorded, and the contents are the same function as before,
which is zero on a page that is new. -/
theorem mapPage_loaded (hp : p.Physical) (h : Loaded p root m₀ c s) {v : ℕ} (hv64 : v < 2 ^ 64)
    (hva : v % 4096 = 0)
    (hc : (∀ r ∈ s.records, r.vaddr ≠ v) → ∀ k < 4096, c (v + k) = some 0) :
    Spec (mapPage p root v) s
      (fun _ s' => Loaded p root m₀ c s' ∧ ∀ w, s'.Has w ↔ s.Has w ∨ w = v)
      (fun _ _ => True) := by
  obtain ⟨mask, hsound⟩ := h.sound
  refine Spec.read_bind ?_
  split
  next f hfind =>
    refine Spec.ret ⟨h, fun w => ⟨.inl, ?_⟩⟩
    rintro (hw | rfl)
    · exact hw
    · exact find_some hfind
  next hfind =>
    have hnew := find_none hfind
    refine Spec.ite (fun _ => rollbackError_spec p root trivial) fun _ => ?_
    refine ((reserveSlot_spec hsound).mono (fun _ _ hq => hq) fun _ _ _ => trivial).bind ?_
    rintro slot s₁ ⟨hpend, hmach₁, hmapped₁⟩
    refine ((allocFrame_spec hp hpend).mono (fun _ _ hq => hq) fun _ _ _ => trivial).bind ?_
    rintro f s₂ ⟨hpend, hmapped₂, bm, hmach₂, htake⟩
    rw [hmach₁] at hmach₂ htake
    have hmem : s₂.mach.mem = s.mach.mem := by rw [hmach₂]
    have htake₂ : p.Taken s.mach.bitmap {f} s₂.mach.bitmap := by rwa [hmach₂]
    refine ((mapFrame_spec hpend).mono (fun _ _ hq => hq) fun _ _ _ => trivial).bind ?_
    rintro _ s₃ ⟨hmap, hsound₃, hrec, hmapped₃⟩
    refine (zeroPage_spec).mono ?_ fun _ _ _ => trivial
    rintro _ s₄ ⟨pa, hacc, rfl⟩
    refine ⟨h.addPage hp hmem (by rw [hmach₂]) htake₂ hmap hacc hv64 hva hnew (hc hnew)
      ⟨mask, hsound₃⟩ hrec ?_ rfl, fun w => ?_⟩
    · rw [← hmapped₁, ← hmapped₂]
      exact hmapped₃
    · simp only [Loader.Has]
      rw [show s₃.records = _ from hrec]
      simp [eq_comm]

/-- The recorded pages are those of the given headers. -/
def Covered (phdrs : List Phdr) (s : Loader) : Prop :=
  ∀ v, s.Has v ↔ ∃ phdr ∈ phdrs, phdr.pType = ptLoad ∧ v ∈ phdr.pages

variable {data : Image} {done : List Phdr} {phdr : Phdr}

theorem covers_eq_true {a : ℕ} : phdr.covers a = true ↔
    phdr.pType = ptLoad ∧ phdr.pVaddr ≤ a ∧ a < phdr.pVaddr + phdr.pFilesz := by
  simp [Phdr.covers, and_assoc]

/-- The headers done so far have no bytes in a page that is not recorded. -/
theorem Covered.fileByte_new (h : Covered done s) (hacc : ∀ phdr ∈ done, Accepted data.length phdr)
    {v k : ℕ} (hnew : ¬ s.Has v) (hva : v % 4096 = 0) (hk : k < 4096) :
    fileByte data done (v + k) = some 0 := by
  refine fileByte_of_not_covers fun phdr hphdr => ?_
  by_contra hcov
  rw [Bool.not_eq_false, covers_eq_true] at hcov
  obtain ⟨hload, hlo, hhi⟩ := hcov
  have hsize := (hacc phdr hphdr hload).1
  have hmem : pageDown (v + k) ∈ phdr.pages := pageDown_mem_pages hlo (by omega)
  rw [show pageDown (v + k) = v from PhysMem.frameOf_add hva hk] at hmem
  exact hnew ((h v).mpr ⟨phdr, hphdr, hload, hmem⟩)

theorem mapPageStep_loaded (hp : p.Physical) (h : Loaded p root m₀ c s) {v : ℕ} (hv64 : v < 2 ^ 64)
    (hva : v % 4096 = 0)
    (hc : (∀ r ∈ s.records, r.vaddr ≠ v) → ∀ k < 4096, c (v + k) = some 0) :
    Spec (mapPageStep p root v) s
      (fun _ s' => Loaded p root m₀ c s' ∧ ∀ w, s'.Has w ↔ s.Has w ∨ w = v)
      (fun _ _ => True) := by
  refine (mapPage_loaded hp h hv64 hva hc).bind fun _ s' h' => ?_
  split
  · exact rollbackError_spec p root trivial
  · exact Spec.ret h'

/-- The page loop of a segment. -/
theorem mapPages_loaded (hp : p.Physical) (h : Loaded p root m₀ (fileByte data done) s)
    (hcov : Covered done s) (hacc : ∀ phdr ∈ done, Accepted data.length phdr)
    (hend : pageDown (phdr.pVaddr + phdr.pMemsz + 0xFFF) ≤ 2 ^ 64) :
    Spec (phdr.pages.forM (mapPageStep p root)) s
      (fun _ s' => Loaded p root m₀ (fileByte data done) s' ∧
        ∀ w, s'.Has w ↔ s.Has w ∨ w ∈ phdr.pages)
      (fun _ _ => True) := by
  refine Spec.forM (I := fun pages s' => Loaded p root m₀ (fileByte data done) s' ∧
    ∀ w, s'.Has w ↔ s.Has w ∨ w ∈ pages) ⟨h, by simp⟩ ?_
  rintro pages v rest hl s₁ ⟨h₁, hpages⟩
  have hv : v ∈ phdr.pages := by
    rw [hl]
    simp
  obtain ⟨hva, -, hlt⟩ := mem_pages.mp hv
  refine (mapPageStep_loaded hp h₁ (hlt.trans_le hend) hva fun hnew k hk => ?_).mono ?_
    fun _ _ h => h
  · refine hcov.fileByte_new hacc (fun hhas => ?_) hva hk
    obtain ⟨r, hr, hrv⟩ := (hpages v).mpr (.inl hhas)
    exact hnew r hr hrv
  · rintro _ s' ⟨h', hhas⟩
    refine ⟨h', fun w => ?_⟩
    rw [hhas, hpages, List.mem_append, List.mem_singleton, or_assoc]

/-- The bytes copied for a segment. -/
theorem fileByte_copy {srcEnd : ℕ} (hload : phdr.pType = ptLoad)
    (hsrc : srcEnd = phdr.pOffset + phdr.pFilesz) (hlen : srcEnd ≤ data.length) (a : ℕ) :
    fileByte data (done ++ [phdr]) a =
      if phdr.pVaddr ≤ a ∧ a < phdr.pVaddr + ((data.take srcEnd).drop phdr.pOffset).length
      then ((data.take srcEnd).drop phdr.pOffset)[a - phdr.pVaddr]? else fileByte data done a := by
  have hlength : ((data.take srcEnd).drop phdr.pOffset).length = phdr.pFilesz := by
    rw [List.length_drop, List.length_take]
    omega
  rw [fileByte_concat, hlength]
  by_cases hcov : phdr.covers a = true
  · obtain ⟨-, hlo, hhi⟩ := covers_eq_true.mp hcov
    rw [if_pos hcov, if_pos ⟨hlo, hhi⟩, List.getElem?_drop, List.getElem?_take_of_lt (by omega)]
  · rw [if_neg hcov, if_neg]
    exact fun h => hcov (covers_eq_true.mpr ⟨hload, h⟩)

theorem copySegment_loaded (h : Loaded p root m₀ (fileByte data done) s)
    (hload : phdr.pType = ptLoad) (hsize : phdr.pFilesz ≤ phdr.pMemsz)
    (hpages : ∀ v ∈ phdr.pages, s.Has v) :
    Spec (copySegment p root data phdr) s
      (fun _ s' => Loaded p root m₀ (fileByte data (done ++ [phdr])) s' ∧ s'.records = s.records)
      (fun _ _ => True) := by
  refine Spec.ite (fun hpos => ?_) fun hzero => ?_
  · split
    next => exact rollbackError_spec p root trivial
    next srcEnd hsrc =>
      obtain ⟨hsrc, -⟩ := checkedAdd_eq_some hsrc
      refine Spec.ite (fun _ => rollbackError_spec p root trivial) fun hlen => ?_
      rw [not_lt] at hlen
      have hlength : ((data.take srcEnd).drop phdr.pOffset).length = phdr.pFilesz := by
        rw [List.length_drop, List.length_take]
        omega
      have htake : ((data.take srcEnd).drop phdr.pOffset).take (min phdr.pFilesz phdr.pMemsz) =
          (data.take srcEnd).drop phdr.pOffset := by
        rw [List.take_of_length_le]
        omega
      refine Spec.update_bind ?_
      rw [htake]
      have h' := h.setMem ((phdr.pVaddr, min phdr.pFilesz phdr.pMemsz) :: s.stored)
        (fun _ _ => rfl) h.bytes
      refine (storeBytes_loaded h' _ _ ?_).mono ?_ fun _ _ _ => trivial
      · intro b hlo hhi
        exact hpages _ (pageDown_mem_pages hlo (by omega))
      · rintro _ s' ⟨hrec, h''⟩
        refine ⟨?_, hrec⟩
        rwa [show fileByte data (done ++ [phdr]) = _ from
          funext fun a => fileByte_copy hload hsrc hlen a]
  · refine Spec.ret ⟨?_, rfl⟩
    have hsame : fileByte data (done ++ [phdr]) = fileByte data done := by
      funext a
      rw [fileByte_concat, if_neg]
      rw [covers_eq_true]
      omega
    rwa [hsame]

/-- **One header**: its pages are mapped and its bytes are in them. -/
theorem loadSegment_loaded (hp : p.Physical) (h : Loaded p root m₀ (fileByte data done) s)
    (hcov : Covered done s) (hacc : ∀ phdr ∈ done, Accepted data.length phdr)
    (hphdr : Accepted data.length phdr) :
    Spec (loadSegment p root data phdr) s
      (fun _ s' => Loaded p root m₀ (fileByte data (done ++ [phdr])) s' ∧
        Covered (done ++ [phdr]) s')
      (fun _ _ => True) := by
  refine Spec.ite (fun hload => ?_) fun hload => ?_
  · refine Spec.ret ⟨?_, ?_⟩
    · have hsame : fileByte data (done ++ [phdr]) = fileByte data done := by
        funext a
        rw [fileByte_concat, if_neg]
        exact fun hc => hload (covers_eq_true.mp hc).1
      rwa [hsame]
    · intro v
      rw [hcov]
      refine ⟨fun ⟨ph, hph, hl⟩ => ⟨ph, List.mem_append_left _ hph, hl⟩, ?_⟩
      rintro ⟨ph, hph, hl, hv⟩
      rcases List.mem_append.mp hph with hph | hph
      · exact ⟨ph, hph, hl, hv⟩
      · rw [List.mem_singleton.mp hph] at hl
        exact absurd hl hload
  · rw [not_not] at hload
    split
    next => exact rollbackError_spec p root trivial
    next up hup =>
      obtain ⟨stop, hstop, hup⟩ := Option.bind_eq_some_iff.mp hup
      obtain ⟨rfl, -⟩ := checkedAdd_eq_some hstop
      obtain ⟨rfl, hup64⟩ := checkedAdd_eq_some hup
      have hend : pageDown (phdr.pVaddr + phdr.pMemsz + 0xFFF) ≤ 2 ^ 64 := by
        simp only [PhysMem.frameOf]
        omega
      refine (mapPages_loaded hp h hcov hacc hend).bind ?_
      rintro _ s₁ ⟨h₁, hpages⟩
      refine (copySegment_loaded h₁ hload (hphdr hload).1
        fun v hv => (hpages v).mpr (.inr hv)).mono ?_ fun _ _ h => h
      rintro _ s₂ ⟨h₂, hrec⟩
      refine ⟨h₂, fun v => ?_⟩
      unfold Loader.Has
      rw [hrec]
      refine (hpages v).trans ?_
      rw [hcov]
      simp [or_and_right, exists_or, hload]

/-- One round of the mapping pass. -/
theorem loadHeader_loaded {i : ℕ} (hp : p.Physical) (h : Loaded p root m₀ (fileByte data done) s)
    (hcov : Covered done s) (hacc : ∀ phdr ∈ done, Accepted data.length phdr)
    (hphdr : Accepted data.length (phdrAt data (readEhdr data) i)) :
    Spec (loadHeader p root data (readEhdr data) i) s
      (fun _ s' => Loaded p root m₀
          (fileByte data (done ++ [phdrAt data (readEhdr data) i])) s' ∧
        Covered (done ++ [phdrAt data (readEhdr data) i]) s')
      (fun _ _ => True) := by
  unfold loadHeader
  split
  next => exact rollbackError_spec p root trivial
  next off hoff =>
    obtain rfl := phdrOffset_eq_some hoff
    split
    next => exact rollbackError_spec p root trivial
    next =>
      exact Spec.ite (fun _ => rollbackError_spec p root trivial) fun _ =>
        loadSegment_loaded hp h hcov hacc hphdr

/-- The headers done so far were accepted. -/
theorem accepted_done {is rest : List ℕ} {i : ℕ}
    (hacc : ∀ i < (readEhdr data).ePhnum, Accepted data.length (phdrAt data (readEhdr data) i))
    (hl : List.range (readEhdr data).ePhnum = is ++ i :: rest) :
    (∀ phdr ∈ is.map (phdrAt data (readEhdr data)), Accepted data.length phdr) ∧
      Accepted data.length (phdrAt data (readEhdr data) i) := by
  have hlt : ∀ j ∈ is ++ i :: rest, j < (readEhdr data).ePhnum := by
    intro j hj
    rw [← hl] at hj
    exact List.mem_range.mp hj
  refine ⟨fun phdr hphdr => ?_, hacc i (hlt i (by simp))⟩
  obtain ⟨j, hj, rfl⟩ := List.mem_map.mp hphdr
  exact hacc j (hlt j (List.mem_append_left _ hj))

/-- The mapping pass of an accepted image. -/
theorem mapSegments_loaded (hp : p.Physical)
    (hacc : ∀ i < (readEhdr data).ePhnum, Accepted data.length (phdrAt data (readEhdr data) i))
    (h : Loaded p root m₀ (fileByte data []) s) (hnone : ∀ v, ¬ s.Has v) :
    Spec (mapSegments p root data (readEhdr data)) s
      (fun _ s' => Loaded p root m₀ (fileByte data (headers data)) s' ∧ Covered (headers data) s')
      (fun _ _ => True) := by
  refine Spec.forM (I := fun is s =>
    Loaded p root m₀ (fileByte data (is.map (phdrAt data (readEhdr data)))) s ∧
      Covered (is.map (phdrAt data (readEhdr data))) s) ⟨h, by simp [Covered, hnone]⟩ ?_
  rintro is i rest hl s ⟨h, hcov⟩
  obtain ⟨hdone, hphdr⟩ := accepted_done hacc hl
  rw [List.map_append, List.map_singleton]
  exact loadHeader_loaded hp h hcov hdone hphdr

theorem Loaded.start {m : Mach} {a : Arena} {inj : LoadFailureInjection}
    (hok : TablesOk p m root) (hg : NoGiant m.mem root) :
    Loaded p root m c (Loader.start m a inj) := by
  refine ⟨⟨a.freeMask, Sound.new a⟩, rfl, hok, hg, fun _ hf => hf, by simp, by simp, by simp,
    by simp, by simp, by simp, fun hs => ?_⟩
  have hnone : {v | (Loader.start m a inj).Has v} = ∅ := by simp [Loader.Has]
  rw [hnone]
  exact .refl hs

/-- A mapped page in the final address space. -/
theorem Loaded.byteAt_eq (h : Loaded p root m₀ c s) {b : ℕ} (hb : s.Has (pageDown b)) :
    byteAt s.mach.mem root b = c b := by
  obtain ⟨r, hr, hrv⟩ := hb
  have hbv : r.vaddr + b % 4096 = b := by
    simp only [hrv, PhysMem.frameOf]
    omega
  have hk : b % 4096 < 4096 := Nat.mod_lt _ (by norm_num)
  have hacc := h.access_eq hr hk
  have hbytes := h.bytes r hr _ hk
  rw [hbv] at hacc hbytes
  rw [byteAt, hacc, Option.map_some, hbytes]

theorem Loaded.userLeaf_eq (h : Loaded p root m₀ c s) {r : LoadedPage} (hr : r ∈ s.records) :
    userLeaf s.mach.mem root r.vaddr = some (mkEntry r.paddr pageUserRw) := by
  obtain ⟨huser, hleaf⟩ := h.leaf r hr
  rw [userLeaf_eq_some, hleaf]
  refine ⟨huser, ?_, rfl⟩
  rw [isUserLeaf_eq_true, present_mkEntry (h.frame r hr).1, user_mkEntry (h.frame r hr).1]
  exact ⟨present_pageUserRw, user_pageUserRw⟩

theorem Loaded.mem_mapped (h : Loaded p root m₀ c s) {v : ℕ} : v ∈ s.mapped ↔ s.Has v := by
  rw [h.mapped, List.mem_reverse, List.mem_map]
  rfl

end

/-- What a load of `data` into `root` leaves in `s`, having started with the machine `m`. -/
structure HoldsImage (p : PmmAllocator) (root : ℕ) (m : Mach) (data : Image) (entry : ℕ)
    (s : Loader) : Prop where
  /-- The pages that were mapped, with their frames, are a list without repetition of either; each
  is mapped for the user to read and write, in a frame that was free. -/
  mapped : ∃ L : List LoadedPage, s.mapped = (L.map LoadedPage.vaddr).reverse ∧
    (L.map LoadedPage.vaddr).Nodup ∧ (L.map LoadedPage.paddr).Nodup ∧
    ∀ r ∈ L, r.paddr ∈ p.freeFrames m.bitmap ∧
      userLeaf s.mach.mem root r.vaddr = some (mkEntry r.paddr pageUserRw)
  /-- In the pages that were mapped are the bytes of the file, and zeros. -/
  bytes : ∀ b, pageDown b ∈ s.mapped →
    byteAt s.mach.mem root b = fileByte data (headers data) b
  /-- The pages of all segments were mapped. -/
  segments : ∀ phdr ∈ headers data, phdr.pType = ptLoad → ∀ b, phdr.pVaddr ≤ b →
    b < phdr.pVaddr + phdr.pMemsz → pageDown b ∈ s.mapped
  /-- The entry point is in an executable segment. -/
  executable : ∃ phdr ∈ headers data, phdr.Executes entry

/-- A load that succeeds ends in a state where the pages of all segments are recorded. -/
theorem load_loaded {p : PmmAllocator} {root entry : ℕ} {m : Mach} {a : Arena}
    {inj : LoadFailureInjection} {data : Image} (hp : p.Physical) (hok : TablesOk p m root)
    (hg : NoGiant m.mem root)
    (hload : (loadWithInjection p root data (Loader.start m a inj)).2 = .ok entry) :
    ∃ s, (loadWithInjection p root data (Loader.start m a inj)).1 = s.drop ∧
      Loaded p root m (fileByte data (headers data)) s ∧ Covered (headers data) s := by
  obtain ⟨s, hvalid, -, hrun, hdrop⟩ := loadWithInjection_ok hload
  obtain ⟨hacc, -⟩ := validate_ok hvalid
  have hspec := mapSegments_loaded (s := Loader.start m a inj) hp hacc (Loaded.start hok hg)
    (by simp [Loader.Has])
  unfold Spec at hspec
  rw [show mapSegments p root data (readEhdr data) (Loader.start m a inj) = .ok () s from hrun]
    at hspec
  exact ⟨s, hdrop, hspec⟩

/-- Two segments that share a page, the second over the end of the first. -/
def sharedPageImage : Image :=
  buildImage 0x2000010 [⟨ptLoad, 5, 176, 0x2000010, 4, 0x100⟩, ⟨ptLoad, 6, 180, 0x2000012, 3, 3⟩]
    [1, 2, 3, 4, 5, 6, 7]

end Vibix.Elf
