import Vibix.KmmExact
import Vibix.Proc.PipeLife

/-! # A pipe or nothing

The error exits of `sys_pipe` give back what was taken so far, each something else: blocks by
`kfree`, open files by `oft_decref` (whose close operation frees blocks again), a descriptor by hand.
Here they are followed from any state whose heap is represented.

* **Blocks.** `Owes` says which blocks the heap is owed.  `Owes.newBlock` is one allocation of
  `sys_pipe`, `pipeClose_owes` is `pipe_close`, and `Fresh` is the state in which the three blocks of a
  pipe are in place.  On every error exit all of them are returned (`allocBlocks_owes`,
  `publish_owes`).
* **Files and descriptors.** An entry that was allocated and dropped is free again
  (`oftDecref_alloc`), and so is the descriptor (`sysPipe_fails_sys`).
* **The result.** `sysPipe_atomic`. -/

namespace Vibix.Vfs

open HeapSystem

namespace PipeHeap

variable {ops : PipeOps} {s : HeapSystem} {h h' : PipeHeap} {xs : List (ℕ × ℕ)}
  {p q m n k v pb rvn wvn : ℕ}

/-! ### Words that stay -/

/-- A store to another block. -/
theorem Writes.keep (hw : Writes q m h h') (hrep : h.heap.Represented) (hq : (q, m) ∈ h.heap.live)
    (hp : (p, n) ∈ h.heap.live) (hne : p ≠ q) (hk : k + 8 ≤ n) (hk8 : k % 8 = 0) :
    h'.heap.word (p + k) = h.heap.word (p + k) := by
  have hpok := hrep.live_ok hp
  have happ := hrep.apart hp hq hne
  have hqok := hrep.live_ok hq
  exact hw.word (by omega) (by omega)

theorem kfree_keep (hrep : h.heap.Represented) (hq : (q, m) ∈ h.heap.live)
    (hr : h.kfree q = some h') (hp : (p, n) ∈ h.heap.live) (hk : k + 8 ≤ n) (hk8 : k % 8 = 0) :
    h'.heap.word (p + k) = h.heap.word (p + k) := by
  obtain ⟨heap, hfree, rfl⟩ := Option.map_eq_some_iff.mp hr
  obtain ⟨heap', hfree', -, -, hword, -⟩ := free_spec hrep hq
  cases hfree.symm.trans hfree'
  exact hword _ (untouched_of_live hrep hp (by omega) hk8)

/-! ### One call -/

theorem owes_writes (ho : s.Owes h.heap xs) (hp : (p, n) ∈ h.heap.live) (hw : Writes p n h h') :
    s.Owes h'.heap xs := by
  obtain ⟨mem, rfl, hmem⟩ := hw
  refine ho.store fun a hmod hout => hmem a hmod ?_
  by_contra hin
  exact hout ⟨_, hp, by simp only; omega, by simp only; omega⟩

theorem owes_kfree (ho : s.Owes h.heap xs) (hp : (p, m) ∈ xs) (hr : h.kfree p = some h') :
    s.Owes h'.heap (xs.erase (p, m)) := by
  obtain ⟨heap, hfree, rfl⟩ := Option.map_eq_some_iff.mp hr
  exact ho.free hp hfree

/-- **A new block**, filled by stores to it. -/
theorem owes_newBlock (ho : s.Owes h.heap xs) (hm : m ≤ 2 ^ 63) {fill : PipeHeap → ℕ → PipeHeap}
    (hfill : ∀ h p, p % 8 = 0 → Writes p m h (fill h p)) (hr : h.kmalloc m = some (h', p)) :
    p = 0 ∧ s.Owes h'.heap xs ∨
      p ≠ 0 ∧ s.Owes (fill h' p).heap ((p, m) :: xs) ∧ p % 8 = 0 ∧ p < 2 ^ 64 ∧
        (∀ n, (p, n) ∉ h.heap.live) ∧
        ∀ q n k, (q, n) ∈ h.heap.live → k + 8 ≤ n → k % 8 = 0 →
          (fill h' p).heap.word (q + k) = h.heap.word (q + k) := by
  obtain ⟨⟨t, b⟩, halloc, heq⟩ := Option.map_eq_some_iff.mp hr
  obtain ⟨rfl, rfl⟩ := Prod.mk.inj heq
  obtain ⟨t', b', halloc', -, -, hword, hcases⟩ := alloc_spec ho.represented hm
  cases halloc.symm.trans halloc'
  rcases ho.alloc hm halloc with ⟨hnull, rfl⟩ | ⟨hne, ho'⟩
  · exact .inl ⟨hnull, ho⟩
  · have hlive := (hcases.resolve_left fun hc => hne hc.1).2
    have hrep := ho'.represented
    have hb : (b, m) ∈ t.live := by simp [hlive]
    have hbok := hrep.live_ok hb
    have hhigh := hrep.high_lt
    have hnodup := hrep.nodup
    rw [hlive, List.map_cons, List.nodup_cons] at hnodup
    have hfresh : ∀ n, (b, n) ∉ h.heap.live := fun n hn =>
      hnodup.1 (List.mem_map.mpr ⟨_, hn, rfl⟩)
    refine .inr ⟨hne, owes_writes (h := ⟨t, _⟩) ho' hb (hfill _ b hbok.1), hbok.1, by omega, hfresh,
      fun q n k hq hk hk8 => ?_⟩
    rw [(hfill ⟨t, _⟩ b hbok.1).keep hrep hb (hlive ▸ List.mem_cons_of_mem _ hq)
      (fun hc => hfresh n (hc ▸ hq)) hk hk8]
    exact hword _ (untouched_of_live ho.represented hq (by omega) hk8)

/-! ### The blocks of a new pipe -/

/-- The three blocks of a new pipe are in place, and owed to the heap `s`. -/
structure Fresh (ops : PipeOps) (s : HeapSystem) (h : PipeHeap) (pb rvn wvn : ℕ) : Prop where
  owes : s.Owes h.heap [(wvn, vnodeBytes), (rvn, vnodeBytes), (pb, pipeBufBytes)]
  ne : rvn ≠ wvn
  read : h.ops rvn = ops.read ∧ h.data rvn = pb
  write : h.ops wvn = ops.write ∧ h.data wvn = pb
  count : h.refcount pb = 2

/-- **The first steps of `sys_pipe`**: nothing is owed, or the three blocks. -/
theorem allocBlocks_owes {r : Option (ℕ × ℕ × ℕ)} (hrep : h.heap.Represented)
    (hr : h.allocBlocks ops = some (h', r)) :
    r = none ∧ h.heap.Owes h'.heap [] ∨
      ∃ pb rvn wvn, r = some (pb, rvn, wvn) ∧ Fresh ops h.heap h' pb rvn wvn := by
  unfold allocBlocks at hr
  cases halloc₁ : h.kmalloc pipeBufBytes with
  | none => simp [halloc₁] at hr
  | some r₁ =>
  obtain ⟨h₁, pb⟩ := r₁
  simp only [halloc₁] at hr
  rcases owes_newBlock hrep.owes (by simp [pipeBufBytes])
    (fun h p hp => (writes_zero hp).trans (writes_setRefcount hp 2)) halloc₁ with
    ⟨rfl, ho₁⟩ | ⟨hpb0, ho₁, hpb8, hpblt, -, -⟩
  · cases hr
    exact .inl ⟨rfl, ho₁⟩
  have hcount₁ := refcount_setRefcount (h := h₁.zero pb pipeBufBytes) (p := pb) 2
  rw [if_neg hpb0] at hr
  generalize (h₁.zero pb pipeBufBytes).setRefcount pb 2 = h₁' at *
  have hpb := ho₁.mem_live (List.mem_cons_self)
  cases halloc₂ : h₁'.kmalloc vnodeBytes with
  | none => simp [halloc₂] at hr
  | some r₂ =>
  obtain ⟨h₂, rvn⟩ := r₂
  simp only [halloc₂] at hr
  rcases owes_newBlock ho₁ (by simp [vnodeBytes])
    (fun _ _ hp => (writes_zero hp).trans (@writes_setVnode _ _ pb hp ops.read)) halloc₂ with
    ⟨rfl, ho₂⟩ | ⟨hrvn0, ho₂, hrvn8, -, hfresh₂, hkeep₂⟩
  · obtain ⟨h₃, hfree, heq⟩ := Option.map_eq_some_iff.mp hr
    cases heq
    have ho₃ := owes_kfree ho₂ List.mem_cons_self hfree
    rw [List.erase_cons_head] at ho₃
    exact .inl ⟨rfl, ho₃⟩
  have hread₂ := setVnode_words (h := h₂.zero rvn vnodeBytes) hrvn8 ops.read hpblt
  rw [if_neg hrvn0] at hr
  generalize (h₂.zero rvn vnodeBytes).setVnode rvn ops.read pb = h₂' at *
  have hrvn := ho₂.mem_live List.mem_cons_self
  have hpb₂ := ho₂.mem_live (List.mem_cons_of_mem _ List.mem_cons_self)
  cases halloc₃ : h₂'.kmalloc vnodeBytes with
  | none => simp [halloc₃] at hr
  | some r₃ =>
  obtain ⟨h₃, wvn⟩ := r₃
  simp only [halloc₃] at hr
  rcases owes_newBlock ho₂ (by simp [vnodeBytes])
    (fun _ _ hp => (writes_zero hp).trans (@writes_setVnode _ _ pb hp ops.write)) halloc₃ with
    ⟨rfl, ho₃⟩ | ⟨hwvn0, ho₃, hwvn8, -, hfresh₃, hkeep₃⟩
  · rw [if_pos rfl] at hr
    obtain ⟨h₅, hfree, heq⟩ := Option.map_eq_some_iff.mp hr
    obtain ⟨h₄, hfree₄, hfree₅⟩ := Option.bind_eq_some_iff.mp hfree
    cases heq
    have ho₅ := owes_kfree (owes_kfree ho₃ (List.mem_cons_of_mem _ List.mem_cons_self) hfree₄)
      (m := vnodeBytes) (by simp [vnodeBytes, pipeBufBytes]) hfree₅
    refine .inl ⟨rfl, ?_⟩
    simpa [vnodeBytes, pipeBufBytes] using ho₅
  have hwrite₃ := setVnode_words (h := h₃.zero wvn vnodeBytes) hwvn8 ops.write hpblt
  rw [if_neg hwvn0] at hr
  cases hr
  generalize (h₃.zero wvn vnodeBytes).setVnode wvn ops.write pb = h₃' at *
  refine .inr ⟨pb, rvn, wvn, rfl, ho₃, fun hc => hfresh₃ _ (hc ▸ hrvn), ⟨?_, ?_⟩, hwrite₃, ?_⟩
  · exact (hkeep₃ rvn _ 0 hrvn (by decide) rfl).trans hread₂.1
  · rw [data, hkeep₃ rvn _ 40 hrvn (by decide) rfl]
    exact hread₂.2
  · rw [refcount, hkeep₃ pb _ 4112 hpb₂ (by decide) rfl, hkeep₂ pb _ 4112 hpb (by decide) rfl]
    exact hcount₁

/-! ### `pipe_close` -/

/-- The first end of a new pipe is closed: its vnode is freed. -/
theorem Fresh.close_read (hf : Fresh ops s h pb rvn wvn) (hr : h.close ops rvn = some h') :
    s.Owes h'.heap [(wvn, vnodeBytes), (pb, pipeBufBytes)] ∧ h'.ops wvn = ops.write ∧
      h'.data wvn = pb ∧ h'.refcount pb = 1 := by
  have hrep := hf.owes.represented
  have hwvn := hf.owes.mem_live List.mem_cons_self
  have hrvn := hf.owes.mem_live (List.mem_cons_of_mem _ List.mem_cons_self)
  have hpb := hf.owes.mem_live
    (List.mem_cons_of_mem _ (List.mem_cons_of_mem _ List.mem_cons_self))
  have hne : wvn ≠ pb := by
    rintro rfl
    have hsize := hrep.size_unique hwvn hpb
    simp [vnodeBytes, pipeBufBytes] at hsize
  have hw := writes_setRefcount (h := h) (hrep.live_ok hpb).1 (2 - 1)
  have ho := owes_writes hf.owes hpb hw
  have hcount := refcount_setRefcount (h := h) (p := pb) (2 - 1)
  rw [PipeHeap.close, if_pos (.inl hf.read.1)] at hr
  simp only [pipeClose, hf.read.2, hf.count] at hr
  generalize h.setRefcount pb (2 - 1) = h₁ at *
  cases hfree : h₁.kfree rvn with
  | none => simp [hfree] at hr
  | some h₂ =>
    simp only [hfree, show (2 : BitVec 32) - 1 ≠ 0 by decide, ↓reduceIte] at hr
    cases hr
    have hkeep : ∀ {q n k : ℕ}, (q, n) ∈ h.heap.live → k + 8 ≤ n → k % 8 = 0 →
        h'.heap.word (q + k) = h₁.heap.word (q + k) := fun hq hk hk8 =>
      kfree_keep ho.represented (hw.live ▸ hrvn) hfree (hw.live ▸ hq) hk hk8
    refine ⟨?_, ?_, ?_, ?_⟩
    · have ho' := owes_kfree ho (List.mem_cons_of_mem _ List.mem_cons_self) hfree
      simpa [hf.ne.symm] using ho'
    · exact ((hkeep (k := 0) hwvn (by decide) rfl).trans
        (hw.keep hrep hpb hwvn hne (by decide) rfl)).trans hf.write.1
    · rw [data, hkeep hwvn (by decide) rfl, hw.keep hrep hpb hwvn hne (by decide) rfl]
      exact hf.write.2
    · rw [refcount, hkeep hpb (by decide) rfl]
      exact hcount

/-- The last end is closed: its vnode and the buffer are freed. -/
theorem close_last (ho : s.Owes h.heap [(v, vnodeBytes), (pb, pipeBufBytes)])
    (hops : h.ops v = ops.write) (hdata : h.data v = pb) (hcount : h.refcount pb = 1)
    (hr : h.close ops v = some h') : s.Owes h'.heap [] := by
  have hpb := ho.mem_live (List.mem_cons_of_mem _ List.mem_cons_self)
  have ho₁ := owes_writes ho hpb (writes_setRefcount (ho.represented.live_ok hpb).1 (1 - 1))
  rw [PipeHeap.close, if_pos (.inr hops)] at hr
  simp only [pipeClose, hdata, hcount] at hr
  generalize h.setRefcount pb (1 - 1) = h₁ at *
  cases hfree : h₁.kfree v with
  | none => simp [hfree] at hr
  | some h₂ =>
    simp only [hfree, show (1 : BitVec 32) - 1 = 0 by decide, ↓reduceIte] at hr
    have ho₂ := owes_kfree ho₁ List.mem_cons_self hfree
    rw [List.erase_cons_head] at ho₂
    have ho₃ := owes_kfree ho₂ List.mem_cons_self hr
    rwa [List.erase_cons_head] at ho₃

end PipeHeap

end Vibix.Vfs

namespace Vibix.Proc

open Vfs OpenFileTable PipeHeap

/-! ### Open files and descriptors -/

section Sys

variable {t t₁ t₂ : OpenFileTable} {s s' : System} {i j r : ℕ} {rc : ℤ}

/-- The last reference to a file is given up. -/
theorem get_oftDecref_last {file : OpenFile} (hget : t.get i = some file) (hone : file.refcount = 1) :
    (t.oftDecref i).get j = if j = i then none else t.get j := by
  have heq : (t.oftDecref i).get j = (t.put i none).get j := by
    simp only [OpenFileTable.oftDecref, hget, hone, Nat.sub_self, ↓reduceIte]
    rfl
  rw [heq, get_put]
  simp [get_lt hget]

/-- An entry that was allocated and dropped is free again. -/
theorem oftDecref_alloc {v : Vnode} {flags mode : ℕ}
    (h : t.oftAlloc v flags mode = some (t₁, i)) : (t₁.oftDecref i).get j = t.get j := by
  obtain ⟨hfree, hget, hother, -, -⟩ := oftAlloc_eq_some h
  rw [get_oftDecref_last hget rfl]
  by_cases hj : j = i
  · rw [if_pos hj, hj, hfree]
  · rw [if_neg hj, hother j hj]

/-- Two entries that were allocated and dropped. -/
theorem oftDecref_alloc_two {v v' : Vnode} {flags mode flags' mode' : ℕ}
    (h : t.oftAlloc v flags mode = some (t₁, r)) (h' : t₁.oftAlloc v' flags' mode' = some (t₂, i)) :
    ((t₂.oftDecref r).oftDecref i).get j = t.get j := by
  obtain ⟨hfree, hget, hother, -, -⟩ := oftAlloc_eq_some h
  obtain ⟨hfree', hget', hother', -, -⟩ := oftAlloc_eq_some h'
  have hir : i ≠ r := by
    rintro rfl
    rw [hget] at hfree'
    cases hfree'
  have hr : t₂.get r = some ⟨v, 0, flags, mode, 1, t.opened.length⟩ := by
    rw [hother' r hir.symm, hget]
  have hi : (t₂.oftDecref r).get i = some ⟨v', 0, flags', mode', 1, t₁.opened.length⟩ := by
    rw [get_oftDecref_last hr rfl, if_neg hir, hget']
  rw [get_oftDecref_last hi rfl, get_oftDecref_last hr rfl]
  by_cases hji : j = i
  · rw [if_pos hji, hji, ← hother i hir, hfree']
  · rw [if_neg hji]
    by_cases hjr : j = r
    · rw [if_pos hjr, hjr, hfree]
    · rw [if_neg hjr, hother' j hji, hother j hjr]

/-- **On the process side** a failed call changes nothing. -/
theorem sysPipe_fails_sys {blocks : Option (Vnode × Vnode)} {pipefd : ℕ}
    (h : sysPipe blocks pipefd s = .ok (s', rc)) (hrc : rc < 0) :
    (∀ j, s'.oft.get j = s.oft.get j) ∧ s' = { s with oft := s'.oft } := by
  unfold sysPipe at h
  split at h
  next => cases h; exact ⟨fun _ => rfl, rfl⟩
  next =>
    split at h
    next => cases h; exact ⟨fun _ => rfl, rfl⟩
    next rvn wvn =>
      split at h
      next => cases h; exact ⟨fun _ => rfl, rfl⟩
      next oft readIdx halloc =>
        split at h
        next => cases h; exact ⟨fun _ => oftDecref_alloc halloc, rfl⟩
        next oft' writeIdx halloc' =>
          split at h
          next => cases h
          next k q hcur =>
            dsimp only at h
            split at h
            next => cases h; exact ⟨fun _ => oftDecref_alloc_two halloc halloc', rfl⟩
            next readFd hfree =>
              split at h
              next =>
                cases h
                refine ⟨fun _ => oftDecref_alloc_two halloc halloc', ?_⟩
                have hfd : (q.setFd readFd (some readIdx)).setFd readFd none = q := by
                  simp only [Process.setFd, Function.update_idem]
                  rw [← firstFree_some hfree, Function.update_eq_self]
                rw [hfd]
                simp only [System.put, ProcessTable.put_self (current_slot hcur)]
              next => cases h; exact absurd hrc (by norm_num)

end Sys

namespace World

section Atomic

variable {ops : PipeOps} {s : HeapSystem} {w w' w₁ w₂ : World} {pb rvn wvn r v : ℕ} {rc : ℤ}

/-! ### The error exits -/

/-- The exit with no descriptor left: both ends are closed. -/
theorem giveUp_owes {fr fw : OpenFile} (hf : Fresh ops s w.pipes pb rvn wvn) (hrv : v ≠ r)
    (hr : w.sys.oft.get r = some fr) (hv : w.sys.oft.get v = some fw)
    (hread : fr.vnode = ⟨rvn, none, true⟩ ∧ fr.refcount = 1)
    (hwrite : fw.vnode = ⟨wvn, none, true⟩ ∧ fw.refcount = 1)
    (h : ((oftDecref ops w r).bind fun w => oftDecref ops w v) = some w₂) :
    s.Owes w₂.pipes.heap [] := by
  obtain ⟨w₁, hdec, hdec₂⟩ := Option.bind_eq_some_iff.mp h
  rw [oftDecref_last hr hread.2 (by rw [hread.1]), hread.1] at hdec
  obtain ⟨h₁, hclose, rfl⟩ := Option.map_eq_some_iff.mp hdec
  obtain ⟨ho, hops, hdata, hcount⟩ := hf.close_read hclose
  have hget : (w.sys.oft.oftDecref r).get v = some fw := by
    rw [get_oftDecref_last hr hread.2, if_neg hrv, hv]
  rw [oftDecref_last hget hwrite.2 (by rw [hwrite.1]), hwrite.1] at hdec₂
  obtain ⟨h₂, hclose₂, rfl⟩ := Option.map_eq_some_iff.mp hdec₂
  exact close_last ho hops hdata hcount hclose₂

/-- **`sys_pipe` after the three blocks were allocated**: on failure all of them are returned. -/
theorem publish_owes (hf : Fresh ops s w.pipes pb rvn wvn)
    (h : publish ops w pb rvn wvn = some (.ok (w', rc))) (hrc : rc < 0) :
    s.Owes w'.pipes.heap [] := by
  have hne := hf.ne.symm
  have hsize : vnodeBytes ≠ pipeBufBytes := by decide
  unfold publish at h
  cases hread : w.sys.oft.oftAlloc ⟨rvn, none, true⟩ 0 0o600 with
  | none =>
    simp only [hread] at h
    obtain ⟨pipes, hfree, heq⟩ := Option.map_eq_some_iff.mp h
    cases heq
    obtain ⟨h₂, hfree, hfree₃⟩ := Option.bind_eq_some_iff.mp hfree
    obtain ⟨h₁, hfree₁, hfree₂⟩ := Option.bind_eq_some_iff.mp hfree
    have ho₁ : s.Owes h₁.heap [(wvn, vnodeBytes), (rvn, vnodeBytes)] := by
      have ho := owes_kfree (m := pipeBufBytes) hf.owes (by simp) hfree₁
      simpa [hsize] using ho
    have ho₂ : s.Owes h₂.heap [(wvn, vnodeBytes)] := by
      have ho := owes_kfree (m := vnodeBytes) ho₁ (by simp) hfree₂
      simpa [hne] using ho
    have ho₃ := owes_kfree ho₂ List.mem_cons_self hfree₃
    rwa [List.erase_cons_head] at ho₃
  | some a =>
    obtain ⟨oft, readIdx⟩ := a
    obtain ⟨-, hget, -, -, -⟩ := oftAlloc_eq_some hread
    simp only [hread] at h
    cases hwrite : oft.oftAlloc ⟨wvn, none, true⟩ 1 0o600 with
    | none =>
      simp only [hwrite] at h
      obtain ⟨w₁, hdec, h⟩ := Option.bind_eq_some_iff.mp h
      obtain ⟨pipes, hfree, heq⟩ := Option.map_eq_some_iff.mp h
      cases heq
      rw [oftDecref_last hget rfl rfl] at hdec
      obtain ⟨h₁, hclose, rfl⟩ := Option.map_eq_some_iff.mp hdec
      obtain ⟨ho, -⟩ := hf.close_read hclose
      obtain ⟨h₂, hfree₁, hfree₂⟩ := Option.bind_eq_some_iff.mp hfree
      have ho₂ : s.Owes h₂.heap [(wvn, vnodeBytes)] := by
        have ho' := owes_kfree (m := pipeBufBytes) ho (by simp) hfree₁
        simpa [hsize] using ho'
      have ho₃ := owes_kfree ho₂ List.mem_cons_self hfree₂
      rwa [List.erase_cons_head] at ho₃
    | some b =>
      obtain ⟨oft', writeIdx⟩ := b
      obtain ⟨hfree', hget', hkeep, -, -⟩ := oftAlloc_eq_some hwrite
      have hidx : writeIdx ≠ readIdx := by
        rintro rfl
        rw [hget] at hfree'
        cases hfree'
      simp only [hwrite] at h
      cases hcur : w.sys.current with
      | none => simp [hcur] at h
      | some c =>
        obtain ⟨i, q⟩ := c
        simp only [hcur] at h
        have hgiveUp : ∀ {table : ProcessTable} {w₂ : World}, ((oftDecref ops
            ⟨{ w.sys with oft := oft', table := table }, w.pipes⟩ readIdx).bind
              fun w => oftDecref ops w writeIdx) = some w₂ → s.Owes w₂.pipes.heap [] :=
          fun {table w₂} hw₂ => giveUp_owes
            (w := ⟨{ w.sys with oft := oft', table := table }, w.pipes⟩) hf hidx
            ((hkeep readIdx hidx.symm).trans hget) hget' ⟨rfl, rfl⟩ ⟨rfl, rfl⟩ hw₂
        cases hfree : firstFree q.fds with
        | none =>
          simp only [hfree] at h
          obtain ⟨w₂, hdec, heq⟩ := Option.map_eq_some_iff.mp h
          cases heq
          exact @hgiveUp w.sys.table _ hdec
        | some readFd =>
          simp only [hfree] at h
          cases hfree' : firstFree (q.setFd readFd (some readIdx)).fds with
          | none =>
            simp only [hfree'] at h
            obtain ⟨w₂, hdec, heq⟩ := Option.map_eq_some_iff.mp h
            cases heq
            exact hgiveUp hdec
          | some writeFd =>
            simp only [hfree'] at h
            cases h
            exact absurd hrc (by norm_num)

/-- **A failed `sys_pipe` leaves no trace**: on the process side nothing changes, the entries of the open
file table are what they were, and so is the free list of the heap. -/
theorem sysPipe_atomic {pipefd : ℕ} (hrep : w.pipes.heap.Represented)
    (h : w.sysPipe ops pipefd = some (.ok (w', rc))) (hrc : rc < 0) :
    w'.sys = { w.sys with oft := w'.sys.oft } ∧ (∀ i, w'.sys.oft.get i = w.sys.oft.get i) ∧
      Kmm.SameFreeList w.pipes.heap.heap w'.pipes.heap.heap := by
  unfold World.sysPipe at h
  split_ifs at h with hnull
  · cases h
    exact ⟨rfl, fun _ => rfl, hrep.owes.sameFreeList⟩
  · cases halloc : w.pipes.allocBlocks ops with
    | none => simp [halloc] at h
    | some a =>
      obtain ⟨pipes, blocks⟩ := a
      rcases allocBlocks_owes hrep halloc with ⟨rfl, ho⟩ | ⟨pb, rvn, wvn, rfl, hf⟩
      · simp only [halloc] at h
        cases h
        exact ⟨rfl, fun _ => rfl, ho.sameFreeList⟩
      · simp only [halloc] at h
        obtain ⟨hoft, hsys⟩ := sysPipe_fails_sys (publish_sys h) hrc
        exact ⟨hsys, hoft, (publish_owes (w := ⟨w.sys, pipes⟩) hf h hrc).sameFreeList⟩

/-- The state after boot, with a heap of one page. -/
def tightWorld : World :=
  ⟨startScheduler (spawnInit ⟨⟨0, 0, 0x3000, 0⟩, 0, 0, 0, 0⟩ ⟨8, none, true⟩),
    ⟨⟨Kmm.onePage, []⟩, ⟨[], []⟩⟩⟩

/-- A page has no room for the buffer. -/
theorem sysPipe_atomic_tight :
    ∃ w' rc, tightWorld.sysPipe ⟨1, 2, by decide⟩ 16 = some (.ok (w', rc)) ∧ rc < 0 ∧
      w'.sys = { tightWorld.sys with oft := w'.sys.oft } ∧
      (∀ i, w'.sys.oft.get i = tightWorld.sys.oft.get i) ∧
      Kmm.SameFreeList tightWorld.pipes.heap.heap w'.pipes.heap.heap := by
  have hfails : ∃ r, tightWorld.sysPipe ⟨1, 2, by decide⟩ 16 = some r ∧ ∃ a, r = .ok a ∧ a.2 < 0 := by
    decide +kernel
  obtain ⟨_, hr, a, rfl, hrc⟩ := hfails
  have hrep : tightWorld.pipes.heap.Represented := ⟨_, Kmm.onePage_inv, List.Perm.refl _⟩
  exact ⟨a.1, a.2, hr, hrc, sysPipe_atomic hrep hr hrc⟩

end Atomic

end World

end Vibix.Proc
