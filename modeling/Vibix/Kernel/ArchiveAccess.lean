import Vibix.Kernel.Exec
import Vibix.Proc.Cursor

/-! # What is read of the archive

`readFootprint` are the addresses that `initramfs_read` copies from (`readOp_congr`) and
`execFootprint` those of the slices that `sys_exec` makes (`execMemory_congr`); no other byte has an
influence on the two.  They are in the archive if the last entry of the table is, the four bytes that
`sys_exec` takes for the magic number of a file included (`archive_contained_iff`). -/

namespace Vibix.Kernel

open Proc Vfs

/-! ### Footprints -/

/-- The addresses of the slices in `sys_exec`: the magic number, and the contents for the loader. -/
def execFootprint (data size : ℕ) : Set ℕ :=
  {a | size ≠ 0 ∧ ∃ i < max 4 size, a = data + i}

/-! ### The archive -/

/-- The entries of the table, and what is read of them, are in the archive. -/
structure Contained (ar : Archive) (kmalloc : Bool) : Prop where
  entry : ∀ entry ∈ ar.initramfsInit kmalloc, ∃ off,
    entry.data = ar.data + off ∧ off + entry.size ≤ ar.len
  read : ∀ entry ∈ ar.initramfsInit kmalloc, ∀ len offset,
    readFootprint entry.data entry.size len offset ⊆ ar.addresses
  exec : ∀ entry ∈ ar.initramfsInit kmalloc, execFootprint entry.data entry.size ⊆ ar.addresses

theorem contained_of_fits {ar : Archive} {kmalloc : Bool}
    (h : ∀ entry ∈ ar.initramfsInit kmalloc, ar.Fits entry) : Contained ar kmalloc := by
  have hdata : ∀ entry ∈ ar.initramfsInit kmalloc, ar.data ≤ entry.data := by
    intro entry hentry
    obtain ⟨o, rfl⟩ := (initramfsInit_spec ar kmalloc).1 entry hentry
    exact Nat.le_trans (Nat.le_add_right _ _) (Nat.le_add_right _ _)
  refine ⟨fun entry hentry => ?_, fun entry hentry len offset a ha => ?_, fun entry hentry a ha => ?_⟩
  · obtain ⟨off, hoff⟩ := Nat.exists_eq_add_of_le (hdata entry hentry)
    have hfits := (h entry hentry).1
    exact ⟨off, hoff, by omega⟩
  · obtain ⟨i, hi, rfl⟩ := ha
    have hle := hdata entry hentry
    have hfits := (h entry hentry).1
    exact ⟨by omega, by omega⟩
  · obtain ⟨hsize, i, hi, rfl⟩ := ha
    have hle := hdata entry hentry
    obtain ⟨hfits, hmagic⟩ := h entry hentry
    have hmagic := hmagic (Nat.pos_of_ne_zero hsize)
    exact ⟨by omega, by omega⟩

/-- An archive that ends before its time. -/
def cutAt (len : ℕ) : Archive := { inMemory (namedFile [0x61]) with len := len }

end Vibix.Kernel
