import Vibix.Proc.Holdings

/-! # The offsets of open files

Only a transfer on a descriptor moves the offset of an open file.  `OftKeeps` says of two tables of
open files that every file of the second is new or is a file of the first, with the same vnode and the
same offset.  Moves of references have this property (`moves_keep`), and hence every call that is not a
transfer (`Call.run_oftKeeps`).  Interrupts, signals and the scheduler are calm. -/

namespace Vibix.Proc

open Vfs RefCount OpenFileTable

/-- Every file in `t'` is new, or is in `t` with the same vnode and offset. -/
structure OftKeeps (t t' : OpenFileTable) : Prop where
  opened : t.opened.length ≤ t'.opened.length
  entry : ∀ i file', t'.get i = some file' →
    (t.opened.length ≤ file'.serial ∧ file'.serial < t'.opened.length ∧ file'.offset = 0) ∨
      ∃ file, t.get i = some file ∧ file.serial = file'.serial ∧ file.vnode = file'.vnode ∧
        file.offset = file'.offset

section Tables

variable {t t' t'' : OpenFileTable} {i : ℕ}

theorem OftKeeps.refl (t : OpenFileTable) : OftKeeps t t :=
  ⟨le_rfl, fun _ file' h => .inr ⟨file', h, rfl, rfl, rfl⟩⟩

theorem OftKeeps.of_eq (h : t' = t) : OftKeeps t t' := h ▸ .refl t

theorem OftKeeps.trans (h : OftKeeps t t') (h' : OftKeeps t' t'') : OftKeeps t t'' := by
  refine ⟨h.opened.trans h'.opened, fun i file'' hget => ?_⟩
  have hle := h.opened
  have hle' := h'.opened
  rcases h'.entry i file'' hget with ⟨hnew, hlt, hzero⟩ | ⟨file', hget', hserial, hvnode, hoffset⟩
  · exact .inl ⟨by omega, hlt, hzero⟩
  · rcases h.entry i file' hget' with ⟨hnew, hlt, hzero⟩ | ⟨file, hfile, hserial', hvnode', hoffset'⟩
    · exact .inl ⟨by omega, by omega, by omega⟩
    · exact .inr ⟨file, hfile, hserial'.trans hserial, hvnode'.trans hvnode,
        hoffset'.trans hoffset⟩

theorem oftAlloc_keeps {vnode : Vnode} {flags mode : ℕ}
    (h : t.oftAlloc vnode flags mode = some (t', i)) : OftKeeps t t' := by
  obtain ⟨-, hnew, hother, hopened, -⟩ := OpenFileTable.oftAlloc_eq_some h
  have hlen : t'.opened.length = t.opened.length + 1 := by
    rw [hopened, List.length_append, List.length_singleton]
  refine ⟨by omega, fun j file' hget => ?_⟩
  by_cases hj : j = i
  · subst hj
    rw [hnew] at hget
    cases hget
    exact .inl ⟨le_rfl, hlen ▸ Nat.lt_succ_self _, rfl⟩
  · rw [hother j hj] at hget
    exact .inr ⟨file', hget, rfl, rfl, rfl⟩

/-- An entry is removed, or replaced by one that is the same for its count. -/
theorem put_keeps {o : Option OpenFile} {t' : OpenFileTable} (hopened : t'.opened = t.opened)
    (hget : ∀ j, t'.get j = (t.put i o).get j)
    (ho : ∀ file', o = some file' → ∃ file, t.get i = some file ∧ file.serial = file'.serial ∧
      file.vnode = file'.vnode ∧ file.offset = file'.offset) : OftKeeps t t' := by
  refine ⟨by rw [hopened], fun j file' hj => .inr ?_⟩
  rw [hget, OpenFileTable.get_put] at hj
  split_ifs at hj with hji
  · obtain ⟨rfl, -⟩ := hji
    exact ho file' hj
  · exact ⟨file', hj, rfl, rfl, rfl⟩

theorem oftDecref_keeps (t : OpenFileTable) (i : ℕ) : OftKeeps t (t.oftDecref i) := by
  unfold OpenFileTable.oftDecref
  cases hget : t.get i with
  | none => exact .refl t
  | some file =>
    dsimp only
    by_cases hlast : file.refcount - 1 = 0
    · rw [if_pos hlast]
      exact put_keeps rfl (fun _ => rfl) nofun
    · rw [if_neg hlast]
      refine put_keeps rfl (fun _ => rfl) fun file' h => ?_
      cases h
      exact ⟨file, hget, rfl, rfl, rfl⟩

theorem oftIncref_keeps (t : OpenFileTable) (i : ℕ) : OftKeeps t (t.oftIncref i) := by
  unfold OpenFileTable.oftIncref
  cases hget : t.get i with
  | none => exact .refl t
  | some file =>
    refine put_keeps rfl (fun _ => rfl) fun file' h => ?_
    cases h
    exact ⟨file, hget, rfl, rfl, rfl⟩

/-- Moves of references leave the offsets of the files that stay open. -/
theorem moves_keep {V : Set Vnode} {x y : References} (h : Moves V x y) : OftKeeps x.1 y.1 := by
  induction h with
  | refl => exact .refl _
  | tail _ hlast ih =>
    cases hlast with
    | alloc _ new => exact ih.trans (oftAlloc_keeps new)
    | incref => exact ih.trans (oftIncref_keeps _ _)
    | decref => exact ih.trans (oftDecref_keeps _ _)
    | row => exact ih

end Tables

/-- **Every call but a transfer** leaves the offsets of the files that stay open. -/
theorem Call.run_oftKeeps {s s' : System} {call : Call} {rc : ℤ} (hrun : call.run s = .ok (s', rc))
    (hne : ∀ idx offset rc, call ≠ .transfer idx offset rc) : OftKeeps s.oft s'.oft := by
  rcases call.run_moves (Set.subset_univ _) hrun with hmoves | ⟨idx, offset, hcall, -⟩
  · exact moves_keep hmoves
  · exact absurd hcall (hne idx offset rc)

end Vibix.Proc
