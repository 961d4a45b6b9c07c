import Mathlib.Data.List.Basic

/-! # Runs of labelled transition systems

A system is a relation `step : σ → ι → σ → Prop`: from a state, under a label (the operation
performed, with its arguments), to a state.  `Run step s as t` says that performing the labels
`as` in order leads from `s` to `t`.

The invariant rules are the only way the developments below reason about runs:

* `Run.invariant`: a property kept by every step holds at the end of every run;
* `Run.mono` and `Run.append`: runs of a subsystem are runs, and runs compose;
* `Run.foldlM_iff`: runs of executable systems can be computed, so that what holds after a given run can be
  decided. -/

instance decidableSome {α : Type*} (o : Option α) : Decidable (∃ a, o = some a) :=
  decidable_of_iff (o.isSome = true) Option.isSome_iff_exists

instance decidableSomeAnd {α : Type*} {p : α → Prop} [DecidablePred p] :
    ∀ o : Option α, Decidable (∃ a, o = some a ∧ p a)
  | none => isFalse nofun
  | some a => decidable_of_iff (p a) (by simp)

instance decidableOk {ε α : Type*} : ∀ x : Except ε α, Decidable (∃ a, x = .ok a)
  | .error _ => isFalse nofun
  | .ok a => isTrue ⟨a, rfl⟩

instance decidableOkAnd {ε α : Type*} {p : α → Prop} [DecidablePred p] :
    ∀ x : Except ε α, Decidable (∃ a, x = .ok a ∧ p a)
  | .error _ => isFalse nofun
  | .ok a => decidable_of_iff (p a) (by simp)

/-- A result of which the second component is given. -/
instance decidableOkPair {ε α β : Type*} {p : α → Prop} {b : β} [DecidableEq β] [DecidablePred p] :
    ∀ x : Except ε (α × β), Decidable (∃ a, x = .ok (a, b) ∧ p a)
  | .error _ => isFalse nofun
  | .ok (a, b') => decidable_of_iff (b' = b ∧ p a) (by simp [and_comm])

/-- `Run step s as t`: the labels `as`, performed in order, lead from `s` to `t`. -/
inductive Run {σ ι : Type*} (step : σ → ι → σ → Prop) : σ → List ι → σ → Prop
  | nil (s : σ) : Run step s [] s
  | snoc {s t u : σ} {as : List ι} {a : ι} :
      Run step s as t → step t a u → Run step s (as ++ [a]) u

namespace Run

variable {σ ι : Type*} {step : σ → ι → σ → Prop} {s t u : σ} {as bs : List ι} {a : ι}

/-- **The invariant rule.** -/
theorem invariant {P : σ → Prop} (hs : P s) (hstep : ∀ t a u, P t → step t a u → P u)
    (h : Run step s as t) : P t := by
  induction h with
  | nil => exact hs
  | snoc _ hlast ih => exact hstep _ _ _ ih hlast

/-- A run that is a single step. -/
theorem single (h : step s a t) : Run step s [a] t := Run.snoc (Run.nil s) h

/-- A run of a system is a run of any system that has its steps. -/
theorem mono {step' : σ → ι → σ → Prop} (hstep : ∀ t a u, step t a u → step' t a u)
    (h : Run step s as t) : Run step' s as t := by
  induction h with
  | nil => exact Run.nil _
  | snoc _ hlast ih => exact Run.snoc ih (hstep _ _ _ hlast)

/-- A run whose labels satisfy `P`. -/
theorem restrict {P : ι → Prop} (h : Run step s as t) (hP : ∀ a ∈ as, P a) :
    Run (fun s a t => step s a t ∧ P a) s as t := by
  induction h with
  | nil => exact Run.nil _
  | snoc _ hlast ih =>
    rw [List.forall_mem_append] at hP
    exact Run.snoc (ih hP.1) ⟨hlast, hP.2 _ (List.mem_singleton_self _)⟩

/-- Runs compose. -/
theorem append (h₁ : Run step s as t) (h₂ : Run step t bs u) : Run step s (as ++ bs) u := by
  induction h₂ with
  | nil => simpa using h₁
  | snoc _ hlast ih =>
    rw [← List.append_assoc]
    exact Run.snoc ih hlast

section Computed

variable {f : σ → ι → Option σ}

theorem of_foldlM (h : as.foldlM f s = some t) : Run (fun s a t => f s a = some t) s as t := by
  induction as generalizing s with
  | nil =>
    cases h
    exact Run.nil _
  | cons a as ih =>
    rw [List.foldlM_cons] at h
    obtain ⟨u, hu, hrest⟩ := Option.bind_eq_some_iff.mp h
    exact (single hu).append (ih hrest)

/-- A run of a system that is given by a function, computed. -/
theorem foldlM_iff : Run (fun s a t => f s a = some t) s as t ↔ as.foldlM f s = some t := by
  refine ⟨fun h => ?_, of_foldlM⟩
  induction h with
  | nil => rfl
  | snoc _ hlast ih => simp [List.foldlM_append, ih, hlast]

instance decidableExists : Decidable (∃ t, Run (fun s a t => f s a = some t) s as t) :=
  decidable_of_iff (∃ t, as.foldlM f s = some t) (by simp [foldlM_iff])

instance decidableExistsAnd {p : σ → Prop} [DecidablePred p] :
    Decidable (∃ t, Run (fun s a t => f s a = some t) s as t ∧ p t) :=
  decidable_of_iff (∃ t, as.foldlM f s = some t ∧ p t) (by simp [foldlM_iff])

end Computed

end Run
