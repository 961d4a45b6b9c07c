import Vibix.Multiboot
import Vibix.Lib.Digits

/-! # The walk over the memory map

The map is walked three times at boot: once by `print_mmap`, and twice by `apply_mmap_to_pmm`.  Each
time the next entry is where the `size` of the one before says, in 32-bit arithmetic that wraps around.

The three loops go over the same entries (`mmapLoop_of_leaves`), and they end exactly if the offset
never comes back to one where it was (`mmap_walk_ends_iff`): there are only finitely many offsets below
the length of the map, and from an offset that was visited before, the walk repeats itself.  An entry
with a `size` of `0xFFFFFFFC` is its own successor, and the kernel hangs (`mmap_walk_stuck`). -/

namespace Vibix
namespace Multiboot

/-! ### `print_mmap` -/

/-- `hex_buf`. -/
def hexBuf (v : ℕ) : String :=
  "0x" ++ String.ofList ((Digits.digits 16 8 v).map fun d =>
    if d < 10 then Char.ofNat (48 + d) else Char.ofNat (55 + d))

/-- `type_name`. -/
def typeName : ℕ → String
  | 1 => "Available"
  | 2 => "Reserved"
  | 3 => "ACPI reclaim"
  | 4 => "ACPI NVS"
  | _ => "Bad RAM"

/-- The line for an entry. -/
def printEntry (e : MmapEntry) : String :=
  "  base=" ++ hexBuf (e.base / 2 ^ 32) ++ "_" ++ hexBuf (e.base % 2 ^ 32) ++
    "  len=" ++ hexBuf (e.length / 2 ^ 32) ++ "_" ++ hexBuf (e.length % 2 ^ 32) ++
    "  " ++ typeName e.regionType ++ "\n"

/-- The loop of `print_mmap`, on what has been printed. -/
def printLoop (mem : ℕ → BitVec 8) (map : Mmap) (fuel : ℕ) (out : String) : Option String :=
  mmapLoop mem map (fun out e => some (out ++ printEntry e)) fuel 0 out

/-- `print_mmap`: what is printed. -/
def printMmap (fuel : ℕ) (mem : ℕ → BitVec 8) (mbi : ℕ) : Option String :=
  if hasMmap mem mbi = false then some "VIBIX: No Multiboot memory map available.\n"
  else printLoop mem (mmapAt mem mbi) fuel "VIBIX: Multiboot memory map:\n"

/-! ### Offsets -/

/-- The offset of the entry after the one at `offset`. -/
def nextOffset (mem : ℕ → BitVec 8) (map : Mmap) (offset : ℕ) : ℕ :=
  (offset + ((readEntry mem ((map.addr + offset) % 2 ^ 32)).size + 4) % 2 ^ 32) % 2 ^ 32

/-- The offset after `n` rounds of a loop. -/
def offsetAt (mem : ℕ → BitVec 8) (map : Mmap) (n : ℕ) : ℕ := (nextOffset mem map)^[n] 0

/-- The entries of `n` rounds from an offset on. -/
def visited (mem : ℕ → BitVec 8) (map : Mmap) : ℕ → ℕ → List MmapEntry
  | 0, _ => []
  | n + 1, offset =>
    readEntry mem ((map.addr + offset) % 2 ^ 32) :: visited mem map n (nextOffset mem map offset)

/-- **The three loops end**, and go over the same entries. -/
def PassesEnd (mem : ℕ → BitVec 8) (map : Mmap) : Prop :=
  ∃ fuel es, (∀ out, printLoop mem map fuel out = some (es.foldl (fun out e => out ++ printEntry e) out)) ∧
    mmapLoop mem map (fun s e => some (scanEntry s e)) fuel 0 (none, 0) = some (scan es) ∧
    ∀ (p : PmmAllocator) (stop : ℕ) (bm : Bitmap), ∃ bm',
      mmapLoop mem map (releaseEntry p p.memoryStart stop) fuel 0 bm = some bm' ∧
        es.foldlM (releaseEntry p p.memoryStart stop) bm = some bm'

section Walk

variable {σ : Type*} {mem : ℕ → BitVec 8} {map : Mmap} {body : σ → MmapEntry → Option σ} {s t : σ}
  {n fuel offset i j : ℕ}

theorem mmapLoop_succ : mmapLoop mem map body (fuel + 1) offset s =
    if offset < map.length then
      (body s (readEntry mem ((map.addr + offset) % 2 ^ 32))).bind fun s' =>
        mmapLoop mem map body fuel (nextOffset mem map offset) s'
    else some s := rfl

/-- **A walk that leaves the map** after `n` rounds goes over the entries of these rounds. -/
theorem mmapLoop_of_leaves (hbelow : ∀ i < n, (nextOffset mem map)^[i] offset < map.length)
    (hleaves : map.length ≤ (nextOffset mem map)^[n] offset) (hfuel : n ≤ fuel) :
    mmapLoop mem map body fuel offset s = (visited mem map n offset).foldlM body s := by
  induction n generalizing fuel offset s with
  | zero =>
    have hstop : ¬ offset < map.length := not_lt.mpr hleaves
    cases fuel with
    | zero => exact if_neg hstop
    | succ fuel => exact if_neg hstop
  | succ n ih =>
    obtain ⟨fuel, rfl⟩ := Nat.exists_eq_add_of_le' (Nat.one_le_of_lt hfuel)
    have hhere : offset < map.length := hbelow 0 n.succ_pos
    rw [mmapLoop_succ, if_pos hhere, visited, List.foldlM_cons]
    cases body s (readEntry mem ((map.addr + offset) % 2 ^ 32)) with
    | none => rfl
    | some s' =>
      rw [Function.iterate_succ_apply] at hleaves
      refine ih (fun i hi => ?_) hleaves (by omega)
      rw [← Function.iterate_succ_apply]
      exact hbelow (i + 1) (by omega)

/-- A loop that ends has left the map. -/
theorem leaves_of_mmapLoop (h : mmapLoop mem map body fuel offset s = some t) :
    ∃ n, map.length ≤ (nextOffset mem map)^[n] offset := by
  induction fuel generalizing offset s with
  | zero =>
    by_cases hhere : offset < map.length
    · rw [mmapLoop, if_pos hhere] at h
      cases h
    · exact ⟨0, not_lt.mp hhere⟩
  | succ fuel ih =>
    by_cases hhere : offset < map.length
    · rw [mmapLoop_succ, if_pos hhere] at h
      obtain ⟨s', -, hrest⟩ := Option.bind_eq_some_iff.mp h
      obtain ⟨n, hn⟩ := ih hrest
      refine ⟨n + 1, ?_⟩
      rwa [Function.iterate_succ_apply]
    · exact ⟨0, not_lt.mp hhere⟩

/-- A loop at an entry that is its own successor does not end. -/
theorem mmapLoop_stuck (hstuck : nextOffset mem map offset = offset) (hhere : offset < map.length)
    (fuel : ℕ) : mmapLoop mem map body fuel offset s = none := by
  rw [Option.eq_none_iff_forall_ne_some]
  intro t hloop
  obtain ⟨n, hn⟩ := leaves_of_mmapLoop hloop
  rw [Function.iterate_fixed hstuck] at hn
  omega

/-- An offset that comes back keeps coming back. -/
theorem offsetAt_add (h : offsetAt mem map i = offsetAt mem map j) (k : ℕ) :
    offsetAt mem map (k + i) = offsetAt mem map (k + j) := by
  unfold offsetAt at h ⊢
  rw [Function.iterate_add_apply, Function.iterate_add_apply, h]

/-- From then on, the walk stays in the map. -/
theorem offsetAt_lt (hij : i < j) (hback : offsetAt mem map i = offsetAt mem map j)
    (hbelow : ∀ k ≤ j, offsetAt mem map k < map.length) (n : ℕ) : offsetAt mem map n < map.length := by
  induction n using Nat.strong_induction_on with
  | _ n ih =>
    by_cases hn : n ≤ j
    · exact hbelow n hn
    · -- the same offset was visited `j - i` rounds before
      have hearlier := offsetAt_add hback (n - j)
      rw [show n - j + j = n by omega] at hearlier
      rw [← hearlier]
      exact ih (n - j + i) (by omega)

/-- **The walk ends exactly if no offset comes back.** -/
theorem leaves_iff : (∃ n, map.length ≤ offsetAt mem map n) ↔
    ∀ i j, i < j → (∀ k ≤ j, offsetAt mem map k < map.length) →
      offsetAt mem map i ≠ offsetAt mem map j := by
  constructor
  · rintro ⟨n, hn⟩ i j hij hbelow hback
    exact absurd (offsetAt_lt hij hback hbelow n) (not_lt.mpr hn)
  · intro hnever
    by_contra hin
    push Not at hin
    refine not_injective_infinite_finite
      (fun n => (⟨offsetAt mem map n, hin n⟩ : Fin map.length)) fun i j heq => ?_
    have hback : offsetAt mem map i = offsetAt mem map j := congrArg Fin.val heq
    rcases lt_trichotomy i j with hlt | heq | hlt
    · exact absurd hback (hnever i j hlt fun k _ => hin k)
    · exact heq
    · exact absurd hback.symm (hnever j i hlt fun k _ => hin k)

end Walk

/-- **The walks over the memory map end**, over the same entries in each pass, exactly if the offset does
not come back to where it was. -/
theorem mmap_walk_ends_iff (mem : ℕ → BitVec 8) (map : Mmap) :
    PassesEnd mem map ↔ ∀ i j, i < j → (∀ k ≤ j, offsetAt mem map k < map.length) →
      offsetAt mem map i ≠ offsetAt mem map j := by
  rw [← leaves_iff]
  constructor
  · rintro ⟨fuel, es, -, hscan, -⟩
    exact leaves_of_mmapLoop hscan
  · intro hleaves
    have hfirst := Nat.find_spec hleaves
    have hbelow : ∀ i < Nat.find hleaves, offsetAt mem map i < map.length := fun i hi =>
      not_le.mp (Nat.find_min hleaves hi)
    generalize Nat.find hleaves = n at hfirst hbelow
    refine ⟨n, visited mem map n 0, fun out => ?_, ?_, fun p stop bm => ?_⟩
    · rw [printLoop, mmapLoop_of_leaves hbelow hfirst le_rfl]
      exact List.foldlM_pure
    · rw [mmapLoop_of_leaves hbelow hfirst le_rfl]
      exact List.foldlM_pure
    · obtain ⟨bm', hfold, -⟩ := release_test p stop (visited mem map n 0) bm
      exact ⟨bm', (mmapLoop_of_leaves hbelow hfirst le_rfl).trans hfold, hfold⟩

/-- A map with one entry whose `size` is `0xFFFFFFFC`. -/
def stuckMap (a : ℕ) : BitVec 8 :=
  let word := match a - a % 4 with
    | 0x9000 => 0x40
    | 0x902C => 24
    | 0x9030 => 0xA000
    | 0xA000 => 0xFFFFFFFC
    | 0xA014 => 1
    | _ => 0
  BitVec.ofNat 8 (word >>> (8 * (a % 4)))

/-- **The kernel hangs at boot**: no number of rounds suffices. -/
theorem mmap_walk_stuck :
    (∀ fuel, printMmap fuel stuckMap 0x9000 = none ∧
      ∀ pmm bm, applyMmapToPmm fuel stuckMap pmm bm 0x9000 = none) ∧
    ¬ PassesEnd stuckMap (mmapAt stuckMap 0x9000) := by
  have hstuck : nextOffset stuckMap (mmapAt stuckMap 0x9000) 0 = 0 := by decide
  have hhere : 0 < (mmapAt stuckMap 0x9000).length := by decide
  have hmap : ¬ hasMmap stuckMap 0x9000 = false := by decide
  refine ⟨fun fuel => ⟨?_, fun pmm bm => ?_⟩, ?_⟩
  · rw [printMmap, if_neg hmap]
    exact mmapLoop_stuck hstuck hhere fuel
  · rw [applyMmapToPmm, if_neg hmap]
    dsimp only
    rw [mmapLoop_stuck hstuck hhere fuel]
    rfl
  · rintro ⟨fuel, es, -, hscan, -⟩
    rw [mmapLoop_stuck hstuck hhere fuel] at hscan
    cases hscan

end Multiboot
end Vibix
