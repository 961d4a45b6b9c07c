import Vibix.Paging.Extend
import Vibix.Paging.Fork

/-! # Mapping ranges by 2 MiB pages

`map_2m`, `map_range_2m` and `extend_kernel_identity`, with which the boot code extends the identity
map of `boot.asm` and maps the framebuffer.  A PD entry that is present is never replaced, be it a
2 MiB page or a table, so that the range is mapped where there was nothing and only there
(`mapRange2m_walk`). -/

namespace Vibix.Paging

open FrameTree

/-- `get_or_create_table` for entry `x` of the table at `t`.  Out of memory it halts (`none`). -/
def getOrCreateTable (p : PmmAllocator) (m : Mach) (t : ℕ) (x : Fin 512) : Option (Mach × ℕ) :=
  match tryGetOrCreateTable p m t x with
  | (m, some table) => some (m, table)
  | (_, none) => none

/-- `map_2m` in the active root. -/
def map2m (p : PmmAllocator) (m : Mach) (v pa : ℕ) (flags : BitVec 64) : Option Mach := do
  let (m, l3) ← getOrCreateTable p m m.cr3 (l4Index v)
  let (m, l2) ← getOrCreateTable p m l3 (l3Index v)
  if present (m.mem l2 (l2Index v)) then return m
  return m.write l2 (l2Index v) (mkEntry pa flags)

/-- `map_range_2m`.  Addresses are computed modulo `2^64`. -/
def mapRange2m (p : PmmAllocator) (m : Mach) (vaddrStart paddrStart size : ℕ) (flags : BitVec 64) :
    Option Mach :=
  let vstart := vaddrStart / 2 ^ 21 * 2 ^ 21
  let pstart := paddrStart / 2 ^ 21 * 2 ^ 21
  let vend := (vaddrStart + size + 0x1FFFFF) % 2 ^ 64 / 2 ^ 21 * 2 ^ 21
  let count := (vend + 2 ^ 64 - vstart) % 2 ^ 64 / 0x200000
  (List.range count).foldlM (fun m i =>
    map2m p m ((vstart + i * 0x200000) % 2 ^ 64) ((pstart + i * 0x200000) % 2 ^ 64) flags) m

/-- `extend_kernel_identity`. -/
def extendKernelIdentity (p : PmmAllocator) (m : Mach) (size : ℕ) : Option Mach :=
  mapRange2m p m 0 0 size pageKernelHuge

/-- The PD entry of an address in the active root; zero if there is no PD. -/
def pdEntry (m : Mach) (v : ℕ) : BitVec 64 :=
  match frameAt tableOf m.mem m.cr3 [l3Index v, l4Index v] with
  | some t => m.mem t (l2Index v)
  | none => 0#64

section

variable {p : PmmAllocator} {m m' : Mach} {t v w pa size vstart pstart : ℕ} {x : Fin 512}
  {q : List (Fin 512)} {flags : BitVec 64}

theorem hugeEntry_eq_pdEntry (m : Mach) (v : ℕ) :
    hugeEntry m.mem m.cr3 v = if huge (pdEntry m v) then pdEntry m v else 0#64 := by
  unfold hugeEntry pdEntry
  cases frameAt tableOf m.mem m.cr3 [l3Index v, l4Index v] with
  | some t => rfl
  | none => simp

/-- A PD entry that is not present is no 2 MiB page, and there is no 4 KiB page below it. -/
theorem entries_of_vacant (h : present (pdEntry m v) = false) :
    present (hugeEntry m.mem m.cr3 v) = false ∧ leafEntry m.mem m.cr3 v = 0#64 := by
  refine ⟨?_, ?_⟩
  · rw [hugeEntry_eq_pdEntry]
    split_ifs
    · exact h
    · simp
  · unfold leafEntry
    unfold pdEntry at h
    cases hpd : frameAt tableOf m.mem m.cr3 [l3Index v, l4Index v] with
    | none => rw [frameAt_cons_none hpd]
    | some t =>
      simp only [hpd] at h
      rw [frameAt_cons_of hpd]
      simp [tableOf, h]

/-! ### One page -/

/-- From `m` to `m'` PD entries were set in the active root; 4 KiB pages are as they were. -/
structure Widened (p : PmmAllocator) (m m' : Mach) : Prop where
  cr3 : m'.cr3 = m.cr3
  ok : TablesOk p m' m'.cr3
  noGiant : NoGiant m'.mem m'.cr3
  userTables : UserTables m.mem m.cr3 → UserTables m'.mem m'.cr3
  leaves : ∀ w, leafEntry m'.mem m'.cr3 w = leafEntry m.mem m.cr3 w

theorem Widened.trans {m'' : Mach} (h₁ : Widened p m m') (h₂ : Widened p m' m'') :
    Widened p m m'' :=
  ⟨h₂.cr3.trans h₁.cr3, h₂.ok, h₂.noGiant, fun h => h₂.userTables (h₁.userTables h),
    fun w => (h₂.leaves w).trans (h₁.leaves w)⟩

/-- Linking a PDPT or a PD leaves the PD entries of all addresses. -/
theorem Linked.pdEntry_eq {new : ℕ} (hp : p.Physical) (hflags : isTable flags = true)
    (hna : NoAddr flags) (h : WellFormed p m) (hq : frameAt tableOf m.mem m.cr3 q = some t)
    (hlen : q.length ≤ 1) (hl : Linked p flags m t x new m') (w : ℕ) :
    pdEntry m' w = pdEntry m w := by
  obtain ⟨hok, -, -, hold, hcases, hnew⟩ := hl.tables_ok hp hflags hna h hq (by omega)
  unfold pdEntry
  rw [hl.cr3]
  cases hpd : frameAt tableOf m.mem m.cr3 [l3Index w, l4Index w] with
  | some t' =>
    rw [hold _ _ hpd]
    refine hl.mem_eq (h.used t' ⟨_, hpd⟩) ?_
    rintro ⟨rfl, -⟩
    rw [← h.priv _ _ _ hpd hq] at hlen
    simp at hlen
  | none =>
    cases hpd' : frameAt tableOf m'.mem m.cr3 [l3Index w, l4Index w] with
    | none => rfl
    | some t' =>
      rcases hcases t' ⟨_, hpd'⟩ with ⟨q', hq'⟩ | ⟨rfl, hne⟩
      · rw [← hok.priv _ _ _ hpd' (hold q' t' hq'), hpd] at hq'
        cases hq'
      · exact congrFun (hnew hne).2.2 _

/-- A PDPT or a PD, found or linked. -/
theorem getOrCreateTable_widened {table : ℕ} (hp : p.Physical) (h : WellFormed p m)
    (hg : NoGiant m.mem m.cr3) (hq : frameAt tableOf m.mem m.cr3 q = some t) (hlen : q.length ≤ 1)
    (hrun : getOrCreateTable p m t x = some (m', table)) :
    Widened p m m' ∧ frameAt tableOf m'.mem m'.cr3 (x :: q) = some table ∧
      ∀ w, pdEntry m' w = pdEntry m w := by
  obtain ⟨m₁, res, htry, hgrown, hres⟩ :=
    tryGetOrCreateTable_grown (x := x) hp h hg hq (by omega) (hg q t x hq hlen)
  have hcr3 := tryGetOrCreateTable_cr3 p m t x
  have hpd : ∀ w, pdEntry (tryGetOrCreateTable p m t x).1 w = pdEntry m w := by
    intro w
    unfold tryGetOrCreateTable
    dsimp only
    split_ifs with hpr hnull
    · rfl
    · rfl
    · have hzero := h.zero t ⟨q, hq⟩ x (by simpa using hpr)
      exact Linked.pdEntry_eq hp tableEntry_flags noAddr_tableEntry h hq hlen
        (.fresh hnull hzero (PmmAllocator.taken_alloc hp.toValid hnull)) w
  rw [getOrCreateTable, htry] at hrun
  rw [htry] at hcr3 hpd
  cases res with
  | none => cases hrun
  | some table' =>
    cases hrun
    refine ⟨⟨hcr3, ?_, ?_, ?_, ?_⟩, ?_, hpd⟩ <;> rw [hcr3]
    · exact hgrown.ok
    · exact hgrown.noGiant
    · exact hgrown.userTables
    · exact hgrown.leafEntry_eq
    · exact (hres _ rfl).1

/-- Setting a PD entry that was not present. -/
theorem widened_write {e : BitVec 64} (h : WellFormed p m) (hg : NoGiant m.mem m.cr3)
    (hpd : frameAt tableOf m.mem m.cr3 [l3Index v, l4Index v] = some t)
    (hvac : present (m.mem t (l2Index v)) = false) (hpr : present e = true) (hh : huge e = true) :
    Widened p m (m.write t (l2Index v) e) ∧ ∀ w, pdEntry (m.write t (l2Index v) e) w =
      if ptPath w = ptPath v then e else pdEntry m w := by
  obtain ⟨hok, hframe⟩ := h.write (e := e) (x := l2Index v) hpd (by simp [tableOf, hvac, hh])
    (by simp [hpr])
  have hother : ∀ {q' t' y}, frameAt tableOf m.mem m.cr3 q' = some t' →
      y :: q' ≠ ptPath v → (m.write t (l2Index v) e).mem t' y = m.mem t' y := by
    intro q' t' y hq' hne
    simp only [Mach.write, PhysMem.setSlot]
    rw [if_neg]
    rintro ⟨rfl, rfl⟩
    exact hne (by rw [h.priv q' _ _ hq' hpd])
  refine ⟨⟨rfl, hok, ?_, ?_, ?_⟩, ?_⟩
  · intro q' t' y hq' hlen
    replace hq' := (hframe q').symm.trans hq'
    have hne : y :: q' ≠ ptPath v := by
      intro hc
      have hlen' := congrArg List.length hc
      simp at hlen'
      omega
    rw [hother hq' hne]
    exact hg q' t' y hq' hlen
  · intro hu q' t' y hq' hlen
    replace hq' := (hframe q').symm.trans hq'
    by_cases hty : y :: q' = ptPath v
    · obtain ⟨rfl, rfl⟩ := List.cons_eq_cons.mp hty
      obtain rfl : t = t' := Option.some.inj (hpd.symm.trans hq')
      simp [Mach.write, isTable, hh]
    · rw [hother hq' hty]
      exact hu q' t' y hq' hlen
  · exact fun w => (leafEntry_write h hpd hframe w).trans (if_neg (by simp))
  · intro w
    unfold pdEntry
    rw [show (m.write t (l2Index v) e).cr3 = m.cr3 from rfl, hframe]
    by_cases hw : ptPath w = ptPath v
    · obtain ⟨h2, hpath⟩ := List.cons_eq_cons.mp hw
      rw [if_pos hw, hpath, hpd, h2]
      simp [Mach.write]
    · rw [if_neg hw]
      cases hpdw : frameAt tableOf m.mem m.cr3 [l3Index w, l4Index w] with
      | none => rfl
      | some t' => exact hother hpdw hw

theorem ptPath_iff (hv : v < 2 ^ 48) (hw : w < 2 ^ 48) :
    ptPath w = ptPath v ↔ w / 2 ^ 21 = v / 2 ^ 21 := by
  simp only [ptPath, List.cons.injEq, and_true, l2Index, l3Index, l4Index, Fin.mk.injEq]
  omega

theorem huge_offset (hp : pstart % 2 ^ 21 = 0) (hv : vstart % 2 ^ 21 = 0) (hw : vstart ≤ w) :
    (pstart + (w - vstart) / 2 ^ 21 * 2 ^ 21) / 2 ^ 21 * 2 ^ 21 + w % 2 ^ 21 =
      pstart + (w - vstart) := by
  omega

/-! ### With enough frames it returns -/

theorem getOrCreateTable_returns {k : ℕ∞} (hp : p.Valid)
    (hk : k + 1 ≤ (p.freeFrames m.bitmap).encard) :
    ∃ m' table, getOrCreateTable p m t x = some (m', table) ∧
      k ≤ (p.freeFrames m'.bitmap).encard := by
  unfold getOrCreateTable tryGetOrCreateTable
  dsimp only
  split_ifs with hpr hnull
  · exact ⟨m, _, rfl, le_self_add.trans hk⟩
  · rw [(PmmAllocator.alloc_null hp hnull).2] at hk
    simp at hk
  · obtain ⟨hmem, hfree, -⟩ := PmmAllocator.alloc_some hp hnull
    rw [← Set.encard_sdiff_singleton_add_one hmem, ← hfree] at hk
    exact ⟨_, _, rfl, (ENat.add_le_add_iff_right ENat.one_ne_top).mp hk⟩

/-- A page takes at most two frames. -/
theorem map2m_loop_returns (hp : p.Valid) (f g : ℕ → ℕ) : ∀ (L : List ℕ) (m : Mach),
    2 * (L.length : ℕ∞) ≤ (p.freeFrames m.bitmap).encard →
    ∃ m', L.foldlM (fun m i => map2m p m (f i) (g i) flags) m = some m'
  | [], m, _ => ⟨m, rfl⟩
  | i :: L, m, hk => by
    obtain ⟨m₃, l3, h₃, hk₃⟩ := getOrCreateTable_returns (k := 2 * L.length + 1) (t := m.cr3)
      (x := l4Index (f i)) hp (le_of_eq_of_le (by push_cast [List.length_cons]; ring) hk)
    obtain ⟨m₂, l2, h₂, hk₂⟩ := getOrCreateTable_returns (t := l3) (x := l3Index (f i)) hp hk₃
    rw [List.foldlM_cons]
    simp only [map2m, h₃, h₂, Option.bind_eq_bind, Option.bind_some, Option.pure_def]
    split_ifs
    · exact map2m_loop_returns hp f g L m₂ hk₂
    · exact map2m_loop_returns hp f g L _ hk₂

variable (hp : p.Physical) (h : WellFormed p m) (hg : NoGiant m.mem m.cr3)
  (hpr : present flags = true) (hh : huge flags = true)

include hp h hg hpr hh

/-- **`map_2m`** sets the PD entry of `v` if it is not present, and no other. -/
theorem map2m_widened (hpa : IsFrame pa) (hrun : map2m p m v pa flags = some m') :
    Widened p m m' ∧ ∀ w, pdEntry m' w =
      if ptPath w = ptPath v ∧ present (pdEntry m w) = false then mkEntry pa flags
      else pdEntry m w := by
  obtain ⟨⟨m₃, l3⟩, hrun₃, hrun⟩ := Option.bind_eq_some_iff.mp hrun
  obtain ⟨⟨m₂, l2⟩, hrun₂, hrun⟩ := Option.bind_eq_some_iff.mp hrun
  obtain ⟨hw₃, hl3, hpd₃⟩ := getOrCreateTable_widened (q := []) hp h hg rfl (by simp) hrun₃
  obtain ⟨hw₂, hl2, hpd₂⟩ := getOrCreateTable_widened hp hw₃.ok hw₃.noGiant hl3 (by simp) hrun₂
  have hwide := hw₃.trans hw₂
  have hpd : ∀ w, pdEntry m₂ w = pdEntry m w := fun w => (hpd₂ w).trans (hpd₃ w)
  have hentry : ∀ w, ptPath w = ptPath v → pdEntry m w = m₂.mem l2 (l2Index v) := by
    intro w hw
    obtain ⟨h2, hpath⟩ := List.cons_eq_cons.mp hw
    rw [← hpd, pdEntry, hpath, hl2, h2]
  dsimp only at hrun
  split_ifs at hrun with hvac
  · cases hrun
    refine ⟨hwide, fun w => ?_⟩
    rw [if_neg, hpd]
    rintro ⟨hw, hc⟩
    rw [hentry w hw, hvac] at hc
    cases hc
  · cases hrun
    rw [Bool.not_eq_true] at hvac
    obtain ⟨hw, hset⟩ := widened_write (e := mkEntry pa flags) hwide.ok hwide.noGiant hl2 hvac
      (by rw [present_mkEntry hpa, hpr]) (by rw [huge_mkEntry hpa, hh])
    refine ⟨hwide.trans hw, fun w => ?_⟩
    rw [hset w, hpd]
    refine if_congr ⟨fun hw => ⟨hw, ?_⟩, And.left⟩ rfl rfl
    rw [hentry w hw, hvac]

/-- The loop of `map_range_2m`, by induction on the number of pages. -/
theorem map2m_loop (hv : vstart % 2 ^ 21 = 0) (hpa : pstart % 2 ^ 21 = 0) (n : ℕ)
    (hvn : vstart + n * 2 ^ 21 ≤ 2 ^ 48) (hpn : pstart + n * 2 ^ 21 ≤ 2 ^ 52)
    (hrun : (List.range n).foldlM (fun m i => map2m p m ((vstart + i * 0x200000) % 2 ^ 64)
      ((pstart + i * 0x200000) % 2 ^ 64) flags) m = some m') :
    Widened p m m' ∧ ∀ w < 2 ^ 48, pdEntry m' w =
      if present (pdEntry m w) = false ∧ vstart ≤ w ∧ w < vstart + n * 2 ^ 21 then
        mkEntry (pstart + (w - vstart) / 2 ^ 21 * 2 ^ 21) flags
      else pdEntry m w := by
  induction n generalizing m' with
  | zero =>
    cases hrun
    refine ⟨⟨rfl, h, hg, id, fun _ => rfl⟩, fun w _ => ?_⟩
    rw [if_neg (by omega)]
  | succ n ih =>
    rw [List.range_succ, List.foldlM_append] at hrun
    obtain ⟨m₁, hrun₁, hlast⟩ := Option.bind_eq_some_iff.mp hrun
    have hvn' : vstart + n * 2 ^ 21 < 2 ^ 48 := by omega
    have hpn' : pstart + n * 2 ^ 21 < 2 ^ 52 := by omega
    obtain ⟨hwide, hpd⟩ := ih hvn'.le hpn'.le hrun₁
    simp only [List.foldlM_cons, List.foldlM_nil, bind_pure] at hlast
    rw [Nat.mod_eq_of_lt (by omega), Nat.mod_eq_of_lt (by omega)] at hlast
    obtain ⟨hstep, hset⟩ := map2m_widened hp hwide.ok hwide.noGiant hpr hh
      ⟨by omega, by omega⟩ hlast
    refine ⟨hwide.trans hstep, fun w hw => ?_⟩
    have hsame := ptPath_iff hvn' hw
    rw [hset w]
    -- the last page is that of `w`, or `w` is as after the pages before
    by_cases hslot : ptPath w = ptPath (vstart + n * 0x200000)
    · have hdiv := hsame.mp hslot
      have hout : ¬ (vstart ≤ w ∧ w < vstart + n * 2 ^ 21) := by omega
      have hin : vstart ≤ w ∧ w < vstart + (n + 1) * 2 ^ 21 := by omega
      have hn : (w - vstart) / 2 ^ 21 = n := by omega
      have hold : pdEntry m₁ w = pdEntry m w := by rw [hpd w hw, if_neg fun hc => hout hc.2]
      rw [hold, hn]
      exact if_congr ⟨fun hc => ⟨hc.2, hin⟩, fun hc => ⟨hslot, hc.1⟩⟩ rfl rfl
    · have hdiv := mt hsame.mpr hslot
      have hin : vstart ≤ w ∧ w < vstart + n * 2 ^ 21 ↔
          vstart ≤ w ∧ w < vstart + (n + 1) * 2 ^ 21 := by omega
      rw [if_neg (fun hc => hslot hc.1), hpd w hw]
      exact if_congr (by rw [hin]) rfl rfl

/-- **Mapping a range fills the holes.**  `map_range_2m` returns if there are two free frames
for each page.  Then every address whose PD entry was present is translated as before; the other
addresses of the range, rounded out to 2 MiB, are mapped to the physical range, and no other address
is.  User mode sees nothing of a kernel range. -/
theorem mapRange2m_walk (hna : NoAddr flags) (hv : v + size + 0x1FFFFF < 2 ^ 48)
    (hpa : pa + size + 0x3FFFFF < 2 ^ 52) :
    (2 * ((size / 2 ^ 21 + 2 : ℕ) : ℕ∞) ≤ (p.freeFrames m.bitmap).encard →
      ∃ m', mapRange2m p m v pa size flags = some m') ∧
    ∀ m', mapRange2m p m v pa size flags = some m' → (∀ w < 2 ^ 48, walk m'.mem m'.cr3 w =
      if present (pdEntry m w) then walk m.mem m.cr3 w
      else if v / 2 ^ 21 * 2 ^ 21 ≤ w ∧ w < (v + size + 0x1FFFFF) / 2 ^ 21 * 2 ^ 21 then
        some (pa / 2 ^ 21 * 2 ^ 21 + (w - v / 2 ^ 21 * 2 ^ 21))
      else none) ∧
    (user flags = false → UserTables m.mem m.cr3 →
      ∀ w < 2 ^ 48, userWalk m'.mem m'.cr3 w = userWalk m.mem m.cr3 w) := by
  have hend : (v + size + 0x1FFFFF) % 2 ^ 64 = v + size + 0x1FFFFF := Nat.mod_eq_of_lt (by omega)
  have hcount : ((v + size + 0x1FFFFF) / 2 ^ 21 * 2 ^ 21 + 2 ^ 64 - v / 2 ^ 21 * 2 ^ 21) % 2 ^ 64 /
      0x200000 = (v + size + 0x1FFFFF) / 2 ^ 21 - v / 2 ^ 21 := by omega
  have hstop : v / 2 ^ 21 * 2 ^ 21 + ((v + size + 0x1FFFFF) / 2 ^ 21 - v / 2 ^ 21) * 2 ^ 21 =
      (v + size + 0x1FFFFF) / 2 ^ 21 * 2 ^ 21 := by omega
  simp only [mapRange2m, hend, hcount]
  refine ⟨fun hk => map2m_loop_returns hp.toValid _ _ _ m (le_trans ?_ hk), fun m' hrun => ?_⟩
  · gcongr
    rw [List.length_range]
    omega
  obtain ⟨hwide, hpd⟩ := map2m_loop hp h hg hpr hh (Nat.mul_mod_left _ _) (Nat.mul_mod_left _ _) _
    (by omega) (by omega) hrun
  rw [hstop] at hpd
  have hframe : ∀ w, w < (v + size + 0x1FFFFF) / 2 ^ 21 * 2 ^ 21 →
      IsFrame (pa / 2 ^ 21 * 2 ^ 21 + (w - v / 2 ^ 21 * 2 ^ 21) / 2 ^ 21 * 2 ^ 21) :=
    fun w hw => ⟨by omega, by omega⟩
  refine ⟨fun w hw => ?_, fun hkernel hu w hw => ?_⟩
  · have hnew := hpd w hw
    rw [walk_view hwide.noGiant, hugeEntry_eq_pdEntry, hwide.leaves]
    by_cases hvac : present (pdEntry m w) = true
    · rw [if_neg (by simp [hvac])] at hnew
      rw [if_pos hvac, hnew, walk_view hg, hugeEntry_eq_pdEntry]
    · rw [if_neg hvac]
      rw [Bool.not_eq_true] at hvac
      obtain ⟨hhuge, hleaf⟩ := entries_of_vacant hvac
      by_cases hin : v / 2 ^ 21 * 2 ^ 21 ≤ w ∧ w < (v + size + 0x1FFFFF) / 2 ^ 21 * 2 ^ 21
      · have hf := hframe w hin.2
        rw [if_pos ⟨hvac, hin⟩] at hnew
        rw [if_pos hin, hnew, huge_mkEntry hf, hh, if_pos rfl, present_mkEntry hf, hpr, if_pos rfl,
          hugeAddr, entryAddr_mkEntry hf hna,
          huge_offset (Nat.mul_mod_left _ _) (Nat.mul_mod_left _ _) hin.1]
      · rw [if_neg fun hc => hin hc.2] at hnew
        rw [if_neg hin, hnew, ← hugeEntry_eq_pdEntry, hhuge, hleaf]
        simp
  · rw [userWalk_view hwide.noGiant (hwide.userTables hu), userWalk_view hg hu,
      hugeEntry_eq_pdEntry m', hwide.leaves, hpd w hw]
    by_cases hin : present (pdEntry m w) = false ∧ v / 2 ^ 21 * 2 ^ 21 ≤ w ∧
        w < (v + size + 0x1FFFFF) / 2 ^ 21 * 2 ^ 21
    · have hf := hframe w hin.2.2
      obtain ⟨hhuge, hleaf⟩ := entries_of_vacant hin.1
      simp only [if_pos hin, huge_mkEntry hf, hh, ↓reduceIte, user_mkEntry hf, hkernel, hhuge,
        hleaf, Bool.and_false, Bool.false_and, Bool.false_eq_true]
    · rw [if_neg hin, hugeEntry_eq_pdEntry]

end

/-- The identity map of the boot root, extended by 2 MiB. -/
theorem mapRange2m_walk_identity : ∃ m', extendKernelIdentity bootPmm bootMach 0x2200000 = some m' ∧
    walk m'.mem m'.cr3 0x21FFFFF = some 0x21FFFFF ∧
    userWalk m'.mem m'.cr3 0x21FFFFF = userWalk bootMach.mem bootMach.cr3 0x21FFFFF := by
  obtain ⟨m', hrun⟩ : ∃ m', extendKernelIdentity bootPmm bootMach 0x2200000 = some m' := by
    decide +kernel
  have hna : pageKernelHuge &&& addrMask = 0#64 := by decide
  have hvac : present (pdEntry bootMach 0x21FFFFF) = false := by decide +kernel
  obtain ⟨hwalk, huser⟩ := mapRange2m_walk bootPmm_physical bootMach_wellFormed
    (bootMem_noGiant bootFrames) (by decide) (by decide) hna (by norm_num) (by norm_num)
    |>.2 m' hrun
  refine ⟨m', hrun, ?_, huser (by decide) (bootMem_userTables bootFrames) _ (by norm_num)⟩
  rw [hwalk _ (by norm_num), hvac]
  norm_num

end Vibix.Paging
