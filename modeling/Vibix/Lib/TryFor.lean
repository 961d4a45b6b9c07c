import Mathlib.Data.List.Basic
import Mathlib.Tactic

/-! # Loops with an early exit

`tryFor f L s` runs the body `f` for the elements of `L` in order.  The body may abort the loop
by returning `false` with the state it reached, or not return at all (`none`).  The one rule
needed, `tryFor_spec`, is an invariant indexed by the elements already done, together with what
holds whenever the body aborts; it also shows that the loop returns if the body always does. -/

/-- A `for` loop whose body may abort (`false`) or never return (`none`). -/
def tryFor {ι σ : Type*} (f : ι → σ → Option (σ × Bool)) : List ι → σ → Option (σ × Bool)
  | [], s => some (s, true)
  | x :: L, s =>
    match f x s with
    | none => none
    | some (s', true) => tryFor f L s'
    | some (s', false) => some (s', false)

section

variable {ι σ : Type*} {f : ι → σ → Option (σ × Bool)}

/-- The invariant rule, from the elements already done. -/
theorem tryFor_spec_from {P : List ι → σ → Prop} {Q : σ → Prop} :
    ∀ (L done : List ι) (s : σ),
      (∀ d x rest s, done ++ L = d ++ x :: rest → P d s →
        ∃ s' b, f x s = some (s', b) ∧ (b = true → P (d ++ [x]) s') ∧ (b = false → Q s')) →
      P done s →
      ∃ s' b, tryFor f L s = some (s', b) ∧ (b = true → P (done ++ L) s') ∧ (b = false → Q s')
  | [], done, s, _, h => ⟨s, true, rfl, by simpa using h, by simp⟩
  | x :: L, done, s, hstep, h => by
      obtain ⟨s', b, hf, htrue, hfalse⟩ := hstep done x L s rfl h
      cases b with
      | false => exact ⟨s', false, by simp [tryFor, hf], by simp, hfalse⟩
      | true =>
        have hstep' : ∀ d y rest s, (done ++ [x]) ++ L = d ++ y :: rest → P d s →
            ∃ s' b, f y s = some (s', b) ∧ (b = true → P (d ++ [y]) s') ∧ (b = false → Q s') := by
          intro d y rest t heq
          exact hstep d y rest t (by simpa using heq)
        obtain ⟨s'', b, hrun, ht, hq⟩ :=
          tryFor_spec_from L (done ++ [x]) s' hstep' (htrue rfl)
        exact ⟨s'', b, by simpa [tryFor, hf] using hrun, by simpa using ht, hq⟩

/-- **The invariant rule** for loops with an early exit. -/
theorem tryFor_spec {P : List ι → σ → Prop} {Q : σ → Prop} {L : List ι} {s : σ}
    (hstep : ∀ d x rest s, L = d ++ x :: rest → P d s →
      ∃ s' b, f x s = some (s', b) ∧ (b = true → P (d ++ [x]) s') ∧ (b = false → Q s'))
    (h : P [] s) :
    ∃ s' b, tryFor f L s = some (s', b) ∧ (b = true → P L s') ∧ (b = false → Q s') := by
  simpa using tryFor_spec_from L [] s (by simpa using hstep) h

end
