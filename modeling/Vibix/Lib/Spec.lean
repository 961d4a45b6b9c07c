import Mathlib.Tactic

/-! # Pre- and postconditions of programs with state and exceptions

Programs are terms of `EStateM ε σ`: an exception keeps the state it was thrown in.  `Spec x s Q E`
says that `x`, started in `s`, ends normally in a state of `Q` or with an exception in a state of
`E`.  There is one rule per construct; the rule for loops, `Spec.forM`, asks for an invariant over
the elements done so far. -/

variable {ε σ α β ι : Type}

/-- Started in `s`, the program `x` ends normally with `Q` or with an exception with `E`. -/
def Spec (x : EStateM ε σ α) (s : σ) (Q : α → σ → Prop) (E : ε → σ → Prop) : Prop :=
  match x s with
  | .ok a s' => Q a s'
  | .error e s' => E e s'

namespace Spec

variable {x : EStateM ε σ α} {s : σ} {Q : α → σ → Prop} {E : ε → σ → Prop}

theorem ret {a : α} (h : Q a s) : Spec (pure a) s Q E := h

theorem raise {e : ε} (h : E e s) : Spec (throw e) s Q E := h

theorem write {t : σ} {Q : PUnit → σ → Prop} (h : Q ⟨⟩ t) : Spec (set t) s Q E := h

theorem read_bind {f : σ → EStateM ε σ α} (h : Spec (f s) s Q E) : Spec (get >>= f) s Q E := h

theorem write_bind {t : σ} {f : PUnit → EStateM ε σ α} (h : Spec (f ⟨⟩) t Q E) :
    Spec (set t >>= f) s Q E := h

theorem update_bind {g : σ → σ} {f : PUnit → EStateM ε σ α} (h : Spec (f ⟨⟩) (g s) Q E) :
    Spec (modify g >>= f) s Q E := h

theorem ite {c : Prop} [Decidable c] {y : EStateM ε σ α} (hx : c → Spec x s Q E)
    (hy : ¬ c → Spec y s Q E) : Spec (if c then x else y) s Q E := by
  split
  next hc => exact hx hc
  next hc => exact hy hc

theorem mono {Q' : α → σ → Prop} {E' : ε → σ → Prop} (h : Spec x s Q E)
    (hQ : ∀ a s', Q a s' → Q' a s') (hE : ∀ e s', E e s' → E' e s') : Spec x s Q' E' := by
  unfold Spec at h ⊢
  split at h
  · exact hQ _ _ h
  · exact hE _ _ h

theorem bind {f : α → EStateM ε σ β} {R : α → σ → Prop} {Q : β → σ → Prop} (hx : Spec x s R E)
    (hf : ∀ a s', R a s' → Spec (f a) s' Q E) : Spec (x >>= f) s Q E := by
  unfold Spec at hx ⊢
  change (match EStateM.bind x f s with
    | .ok a s' => Q a s'
    | .error e s' => E e s')
  unfold EStateM.bind
  split at hx
  next a s' hrun =>
    rw [hrun]
    exact hf a s' hx
  next e s' hrun =>
    rw [hrun]
    exact hx

/-- **Loops**: an invariant over the elements done so far, kept by every round. -/
theorem forM {l : List ι} {f : ι → EStateM ε σ PUnit} {I : List ι → σ → Prop} (h0 : I [] s)
    (hstep : ∀ done i rest, l = done ++ i :: rest → ∀ s, I done s →
      Spec (f i) s (fun _ s' => I (done ++ [i]) s') E) :
    Spec (l.forM f) s (fun _ s' => I l s') E := by
  suffices hrest : ∀ rest done s, l = done ++ rest → I done s →
      Spec (rest.forM f) s (fun _ s' => I l s') E from hrest l [] s rfl h0
  intro rest
  induction rest with
  | nil =>
    intro done s hl hI
    rw [List.append_nil] at hl
    rw [hl]
    exact ret hI
  | cons i rest ih =>
    intro done s hl hI
    refine bind (hstep done i rest hl s hI) fun _ s' hI' => ?_
    exact ih (done ++ [i]) s' (by rw [hl]; simp) hI'

end Spec
