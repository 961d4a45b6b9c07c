import Vibix.Proc.Call

/-! # Descriptors and open files

What the system calls do to the open file table and to the descriptors of processes.  Each comes down
to moves of references between the table, the kernel and a row of descriptors (`Move`), so each keeps
the balance between the counts of the table and the descriptors of all processes (`System.FilesOk`).
The calls on descriptors change nothing else (`Refiled`). -/

namespace Vibix.Proc

open Vfs RefCount OpenFileTable Relation

/-- The counts of the open file table balance the descriptors of all processes. -/
def System.FilesOk (s : System) : Prop := s.oft.Consistent s.table.descriptors []

/-- The open file table and the descriptors of all processes. -/
abbrev System.files (s : System) : References := (s.oft, s.table.descriptors, [])

/-- Moves of references, in which only vnodes in `V` are opened. -/
abbrev FileMoves (V : Set Vnode) (s s' : System) : Prop := Moves V s.files s'.files

/-- Only the open file table and descriptors of the current process have changed. -/
inductive Refiled (s : System) : System → Prop
  | oft (oft : OpenFileTable) : Refiled s { s with oft := oft }
  | fds {i : Fin 64} {q : Process} (current : s.current = some (i, q)) (oft : OpenFileTable)
      (fds : Fin 16 → Option ℕ) : Refiled s ({ s with oft := oft }.put i { q with fds := fds })

section Moves

variable {V : Set Vnode} {T : ProcessTable} {oft : OpenFileTable} {L L' : List ℕ} {i : Fin 64}
  {q q' : Process} {fd : Fin 16} {idx : ℕ}

theorem firstFree_some {fds : Fin 16 → Option ℕ} (h : firstFree fds = some fd) : fds fd = none := by
  have hnone := List.find?_some (p := fun fd => (fds fd).isNone) h
  simpa using hnone

/-- References move to or from the descriptors of a process. -/
theorem move_put (hi : T.slots i = some q)
    (h : ∀ j, inRow q'.fds j + L'.count j = inRow q.fds j + L.count j) :
    Move V (oft, T.descriptors, L) (oft, (T.put i (some q')).descriptors, L') := by
  rw [ProcessTable.descriptors_put_some]
  refine .row i q'.fds fun j => ?_
  rw [ProcessTable.descriptors_some hi]
  exact h j

/-- A reference in transit is stored in a free descriptor. -/
theorem move_fill (hi : T.slots i = some q) (hfree : q.fds fd = none) :
    Move V (oft, T.descriptors, idx :: L)
      (oft, (T.put i (some (q.setFd fd (some idx)))).descriptors, L) := by
  refine move_put hi fun j => ?_
  have hup := inRow_update (i := j) q.fds fd (some idx)
  rw [List.count_cons]
  simp only [Process.setFd, hfree, Option.some.injEq, beq_iff_eq, reduceCtorEq,
    ↓reduceIte] at hup ⊢
  omega

/-- A reference is taken out of a descriptor. -/
theorem move_clear (hi : T.slots i = some q) (hfd : q.fds fd = some idx) :
    Move V (oft, T.descriptors, L)
      (oft, (T.put i (some (q.setFd fd none))).descriptors, idx :: L) := by
  refine move_put hi fun j => ?_
  have hup := inRow_update (i := j) q.fds fd none
  rw [List.count_cons]
  simp only [Process.setFd, hfd, Option.some.injEq, beq_iff_eq, reduceCtorEq,
    ↓reduceIte] at hup ⊢
  omega

theorem setFd_fds (o : Option ℕ) : (q.setFd fd o).fds = Function.update q.fds fd o := rfl

theorem setFd_self : q.setFd fd (q.fds fd) = q := by
  rw [Process.setFd, Function.update_eq_self]

theorem put_put (o o' : Option Process) : (T.put i o).put i o' = T.put i o' := by
  simp only [ProcessTable.put, Function.update_idem]

theorem setFd_setFd (o o' : Option ℕ) : (q.setFd fd o).setFd fd o' = q.setFd fd o' := by
  simp only [Process.setFd, Function.update_idem]

end Moves

section Calls

variable {V : Set Vnode} {s s' : System} {rc : ℤ}

theorem FileMoves.files (h : FileMoves V s s') (hs : s.FilesOk) : s'.FilesOk := h.consistent hs

theorem FileMoves.of_eq (hoft : s'.oft = s.oft) (hfds : s'.table.descriptors = s.table.descriptors) :
    FileMoves V s s' := by
  unfold FileMoves System.files
  rw [hoft, hfds]

theorem Refiled.refl (s : System) : Refiled s s := .oft s.oft

theorem current_slot {i : Fin 64} {q : Process} (h : s.current = some (i, q)) :
    s.table.slots i = some q := (ProcessTable.find_some h).1

theorem sysOpen_moves {resolved : Except ℤ Vnode} {openRc : ℤ} {flags mode : ℕ}
    (hV : ∀ v, resolved = .ok v → v ∈ V)
    (hrun : sysOpen resolved openRc flags mode s = .ok (s', rc)) :
    Refiled s s' ∧ FileMoves V s s' := by
  unfold sysOpen at hrun
  split at hrun
  next => cases hrun; exact ⟨.refl s, .refl⟩
  next vnode =>
  split at hrun
  next => cases hrun; exact ⟨.refl s, .refl⟩
  split at hrun
  next => cases hrun; exact ⟨.refl s, .refl⟩
  next oft idx halloc =>
  have hmove : Moves V s.files (oft, s.table.descriptors, [idx]) :=
    .single (.alloc (hV vnode rfl) halloc)
  split at hrun
  next => cases hrun
  next i q hcur =>
    split at hrun
    next fd hfree =>
      cases hrun
      exact ⟨.fds hcur _ _, hmove.tail (move_fill (current_slot hcur) (firstFree_some hfree))⟩
    next => cases hrun; exact ⟨.oft _, hmove.tail .decref⟩

theorem sysClose_moves {fd : ℕ} (hrun : sysClose fd s = .ok (s', rc)) :
    Refiled s s' ∧ FileMoves V s s' := by
  unfold sysClose at hrun
  split at hrun
  next hfd =>
    split at hrun
    next => cases hrun
    next i q hcur =>
      split at hrun
      next => cases hrun; exact ⟨.refl s, .refl⟩
      next idx hidx =>
        cases hrun
        exact ⟨.fds hcur _ _, .tail (.single (move_clear (current_slot hcur) hidx)) .decref⟩
  next => cases hrun; exact ⟨.refl s, .refl⟩

theorem descriptors_of_fd {i : Fin 64} {q : Process} {fd : Fin 16} {idx : ℕ}
    (hi : s.table.slots i = some q) (hidx : q.fds fd = some idx) :
    s.table.descriptors i fd = some idx := by
  rw [ProcessTable.descriptors_some hi, hidx]

theorem sysDup_moves {oldFd : ℕ} (hrun : sysDup oldFd s = .ok (s', rc)) :
    Refiled s s' ∧ FileMoves V s s' := by
  unfold sysDup at hrun
  split at hrun
  next hfd =>
    split at hrun
    next => cases hrun
    next i q hcur =>
      have hi := current_slot hcur
      split at hrun
      next => cases hrun; exact ⟨.refl s, .refl⟩
      next idx hidx =>
        split at hrun
        next fd hfree =>
          cases hrun
          exact ⟨.fds hcur _ _, .tail (.single (.incref (descriptors_of_fd hi hidx) (by simp)))
            (move_fill hi (firstFree_some hfree))⟩
        next => cases hrun; exact ⟨.refl s, .refl⟩
  next => cases hrun; exact ⟨.refl s, .refl⟩

theorem sysDup2_moves {oldFd newFd : ℕ} (hrun : sysDup2 oldFd newFd s = .ok (s', rc)) :
    Refiled s s' ∧ FileMoves V s s' := by
  unfold sysDup2 at hrun
  split at hrun
  next hlt =>
    split at hrun
    next => cases hrun
    next i q hcur =>
      have hi := current_slot hcur
      split at hrun
      next => cases hrun; exact ⟨.refl s, .refl⟩
      next idx hidx =>
        split_ifs at hrun with hgone heq
        · cases hrun; exact ⟨.refl s, .refl⟩
        · cases hrun; exact ⟨.refl s, .refl⟩
        · cases hrun
          refine ⟨.fds hcur _ _, ?_⟩
          have hne : (⟨oldFd, hlt.1⟩ : Fin 16) ≠ ⟨newFd, hlt.2⟩ := fun hc => heq (Fin.mk.inj hc)
          cases hnew : q.fds ⟨newFd, hlt.2⟩ with
          | none =>
            exact .tail (.single (.incref (descriptors_of_fd hi hidx) (by simp))) (move_fill hi hnew)
          | some old =>
            -- the descriptor is emptied, its reference given up, and a new one stored
            have hheld : (s.table.put i (some (q.setFd ⟨newFd, hlt.2⟩ none))).descriptors i
                ⟨oldFd, hlt.1⟩ = some idx := by
              rw [ProcessTable.descriptors_some ProcessTable.put_same, setFd_fds,
                Function.update_of_ne hne, hidx]
            have hempty : (q.setFd ⟨newFd, hlt.2⟩ none).fds ⟨newFd, hlt.2⟩ = none := by
              rw [setFd_fds, Function.update_self]
            have hmoves : Moves V s.files _ := (((ReflTransGen.single (move_clear hi hnew)).tail
              .decref).tail (.incref hheld (by simp))).tail (move_fill ProcessTable.put_same hempty)
            rwa [put_put, setFd_setFd] at hmoves
  next => cases hrun; exact ⟨.refl s, .refl⟩

theorem sysPipe_moves {blocks : Option (Vnode × Vnode)} {pipefd : ℕ}
    (hV : ∀ rvn wvn, blocks = some (rvn, wvn) → rvn ∈ V ∧ wvn ∈ V)
    (hrun : sysPipe blocks pipefd s = .ok (s', rc)) : Refiled s s' ∧ FileMoves V s s' := by
  unfold sysPipe at hrun
  split at hrun
  next => cases hrun; exact ⟨.refl s, .refl⟩
  split at hrun
  next => cases hrun; exact ⟨.refl s, .refl⟩
  next rvn wvn =>
  obtain ⟨hr, hw⟩ := hV rvn wvn rfl
  split at hrun
  next => cases hrun; exact ⟨.refl s, .refl⟩
  next oft₁ readIdx hread =>
  have h₁ : Moves V s.files (oft₁, s.table.descriptors, [readIdx]) := .single (.alloc hr hread)
  split at hrun
  next => cases hrun; exact ⟨.oft _, h₁.tail .decref⟩
  next oft₂ writeIdx hwrite =>
  have h₂ := (h₁.tail (.alloc hw hwrite)).tail (.perm (.swap readIdx writeIdx []))
  split at hrun
  next => cases hrun
  next i q hcur =>
    have hi := current_slot hcur
    split at hrun
    next => cases hrun; exact ⟨.oft _, (h₂.tail .decref).tail .decref⟩
    next readFd hfree =>
      have hrfree := firstFree_some hfree
      dsimp only at hrun
      split at hrun
      next =>
        cases hrun
        rw [setFd_setFd, ← hrfree, setFd_self]
        refine ⟨.fds hcur _ q.fds, ?_⟩
        unfold FileMoves System.files System.put
        rw [ProcessTable.put_self hi]
        exact (h₂.tail .decref).tail .decref
      next writeFd hfree' =>
        cases hrun
        have h₄ := (h₂.tail (move_fill hi hrfree)).tail
          (move_fill ProcessTable.put_same (firstFree_some hfree'))
        rw [put_put] at h₄
        exact ⟨.fds hcur _ _, h₄⟩

/-! ### Processes -/

theorem mem_entries {fds : Fin 16 → Option ℕ} {idx : ℕ} (h : idx ∈ entries fds) :
    ∃ fd, fds fd = some idx := by
  obtain ⟨fd, -, hfd⟩ := List.mem_filterMap.mp h
  exact ⟨fd, hfd⟩

theorem length_entries (fds : Fin 16 → Option ℕ) : (entries fds).length ≤ 16 :=
  (List.length_filterMap_le _ _).trans (by simp)

theorem exec_fds {q : Process} {image : UserImage} :
    (q.exec image).fds = fun fd => if fd.val < 3 then q.fds fd else none := rfl

theorem addChild_moves {base root : ℕ} {o : Option ℕ} (hrun : addChild base root s = .ok (s', o)) :
    FileMoves V s s' := by
  unfold addChild at hrun
  split at hrun
  next => cases hrun
  next k parent hcur =>
    have hk := current_slot hcur
    dsimp only at hrun
    split at hrun
    next => cases hrun; exact .refl
    next i hfree =>
      cases hrun
      have hnone : s.table.slots i = none := by
        simpa using List.find?_some (p := fun i => (s.table.slots i).isNone) hfree
      have hincs : Moves V s.files _ := .increfs (L := entries parent.fds) s.oft (fun idx hidx => ?_)
        (by simpa using (length_entries parent.fds).trans (by norm_num))
      · refine hincs.tail ?_
        change Move V _ (_, (s.table.put i (some (forkChild s parent base root))).descriptors, [])
        rw [ProcessTable.descriptors_put_some]
        refine .row i parent.fds fun j => ?_
        rw [ProcessTable.descriptors_none hnone, inRow_none, List.append_nil,
          (List.reverse_perm _).count_eq, count_entries, List.count_nil]
        omega
      · obtain ⟨fd, hfd⟩ := mem_entries hidx
        exact ⟨k, fd, descriptors_of_fd hk hfd⟩

theorem sysFork_moves {memory : ForkMemory} (hrun : sysFork memory s = .ok (s', rc)) :
    FileMoves V s s' := by
  unfold sysFork at hrun
  split at hrun
  next => cases hrun; exact .refl
  next => cases hrun; exact .refl
  next base root =>
    split at hrun
    next => cases hrun
    next hadd => cases hrun; exact addChild_moves hadd
    next hadd => cases hrun; exact addChild_moves hadd

theorem sysExec_moves {built : Except ℤ UserImage} (hrun : sysExec built s = .ok (s', rc)) :
    FileMoves V s s' := by
  unfold sysExec at hrun
  split at hrun
  next => cases hrun
  next i q hcur =>
    split at hrun
    next => cases hrun; exact .refl
    next image =>
      cases hrun
      refine .head (move_put (current_slot hcur) fun j => ?_) (Moves.decrefs _ _)
      have hsplit := inRow_split q.fds (fun fd => fd.val < 3) j
      rw [List.append_nil, count_entries, List.count_nil, exec_fds]
      omega

theorem sysWaitpid_moves {requested flags : ℕ} {reaped : Option Process}
    (hrun : sysWaitpid requested flags s = .ok (s', rc, reaped)) : FileMoves V s s' := by
  unfold sysWaitpid at hrun
  split at hrun
  next => cases hrun; exact .refl
  next child hchild =>
    split at hrun
    next =>
      split at hrun
      next => cases hrun
      next i q hfind =>
        cases hrun
        refine .head ?_ (Moves.decrefs _ _)
        change Move V _ (_, (s.table.put i none).descriptors, _)
        rw [ProcessTable.descriptors_put_none]
        refine .row i _ fun j => ?_
        rw [ProcessTable.descriptors_some (ProcessTable.find_some hfind).1, List.append_nil,
          count_entries, inRow_none, List.count_nil]
        omega
    next =>
      split at hrun
      next => cases hrun; exact .refl
      split at hrun
      next => cases hrun
      next i q hcur =>
        cases hrun
        exact .of_eq rfl (ProcessTable.descriptors_put_same (current_slot hcur) rfl)

/-- Changing a process but not its descriptors keeps the balance. -/
theorem System.FilesOk.put {i : Fin 64} {q q' : Process} (h : s.FilesOk)
    (hi : s.table.slots i = some q) (hfds : q'.fds = q.fds) : (s.put i q').FilesOk := by
  unfold System.FilesOk System.put
  rw [ProcessTable.descriptors_put_same hi hfds]
  exact h

theorem moveOffset_files (idx offset : ℕ) (h : s.FilesOk) : (moveOffset idx offset s).FilesOk := by
  cases hget : s.oft.get idx with
  | none =>
    unfold System.FilesOk moveOffset
    rw [hget, Option.map_none]
    change (s.oft.put idx none).Consistent s.table.descriptors []
    rw [OpenFileTable.put_none hget]
    exact h
  | some file =>
    unfold System.FilesOk moveOffset
    rw [hget, Option.map_some]
    exact OpenFileTable.Consistent.replace h hget rfl rfl rfl

theorem ok_of_map {α β : Type} {r : Except Halt α} {f : α → β} {b : β}
    (h : r.map f = .ok b) : ∃ a, r = .ok a ∧ f a = b := by
  cases r with
  | error e => cases h
  | ok a =>
    cases h
    exact ⟨a, rfl, rfl⟩

end Calls

/-! ### Boot -/

/-- The descriptors of init after `spawn_init`. -/
def ttyFds : Fin 16 → Option ℕ := fun fd => if fd.val < 3 then some 0 else none

theorem inRow_ttyFds (j : ℕ) : inRow ttyFds j = if j = 0 then 3 else 0 := by
  by_cases hj : j = 0
  · subst hj
    decide
  · have hne : ∀ fd, ttyFds fd ≠ some j := by
      intro fd hfd
      simp only [ttyFds] at hfd
      split_ifs at hfd
      exact hj (Option.some.inj hfd).symm
    simp [inRow, hne, hj]

theorem spawnInit_files (b : BootImage) (ttyVnode : Vnode) : (spawnInit b ttyVnode).FilesOk := by
  obtain ⟨oft, halloc⟩ : ∃ oft, OpenFileTable.new.oftAlloc ttyVnode 2 0o666 = some (oft, 0) :=
    ⟨_, rfl⟩
  obtain ⟨-, hnew, hother, -, -⟩ := oftAlloc_eq_some halloc
  have hrefs : (spawnInit b ttyVnode).table.descriptors =
      Function.update (fun _ _ => none) 0 ttyFds := by
    simp only [spawnInit, halloc]
    rw [ProcessTable.descriptors_put_some, ProcessTable.descriptors_put_some]
    funext k fd
    by_cases h1 : k = 1
    · subst h1
      simp [bootProcess]
    · by_cases h0 : k = 0
      · subst h0
        simp [bootProcess, ttyFds]
      · simp [h0, h1, ProcessTable.descriptors]
  have hoft : (spawnInit b ttyVnode).oft =
      oft.put 0 (some ⟨ttyVnode, 0, 2, 0o666, 3, 0⟩) := by
    simp only [spawnInit, halloc, hnew]
    rfl
  have hhist := (OpenFileTable.History.new.alloc halloc).recount hnew 3
  refine ⟨?_, by rw [hoft]; exact hhist⟩
  intro j
  rw [hrefs, hoft]
  have hrows : inRows (Function.update (fun _ _ => none) (0 : Fin 64) ttyFds) j =
      if j = 0 then 3 else 0 := by
    have hup := inRows_update (i := j) (fun _ _ => none) (0 : Fin 64) ttyFds
    have hzero : inRows (fun (_ : Fin 64) (_ : Fin 16) => (none : Option ℕ)) j = 0 := by
      simp [inRows]
    rw [inRow_none, hzero, inRow_ttyFds] at hup
    omega
  rw [hrows, List.count_nil]
  by_cases hj : j = 0
  · subst hj
    rw [OpenFileTable.count, get_put_same (by norm_num)]
    rfl
  · rw [OpenFileTable.count, get_put_ne hj, hother j hj]
    simp [hj, counted, OpenFileTable.new, OpenFileTable.get]

theorem startScheduler_files {s : System} (h : s.FilesOk) : (startScheduler s).FilesOk := by
  unfold startScheduler
  split
  next => exact h
  next i q hfind =>
    exact System.FilesOk.put (s := { s with .. }) h (ProcessTable.find_some hfind).1 rfl

end Vibix.Proc
