import Mathlib.Data.List.Basic
import Mathlib.Data.List.Nodup
import Mathlib.Data.Nat.Notation

/-! # Singly linked lists in a store

`Chain next p L` says that following the links `next` from the pointer `p` visits the nodes
`L` in order and then ends.  Pointers are options, `none` being the null pointer; the store
is the function `next`, so that a proof about an update only needs to know at which nodes the
link function changed.

* `Chain.congr`: a chain only depends on the links of its own nodes (the frame rule);
* `Chain.unique`, `Chain.nodup`: the nodes are determined by the head, so a chain is acyclic;
* `lastOr`: the node before an insertion point, or a default when there is none;
* `Chain.relink`: replacing the tail of a chain by re-pointing the last node kept;
* `collect`: the nodes met from a head by a loop of bounded length, all of them if the bound is at
  least the length of the chain (`Chain.collect_eq`). -/

/-- Following `next` from `p` visits exactly the nodes `L`, in order. -/
def Chain {α : Type*} (next : α → Option α) : Option α → List α → Prop
  | p, [] => p = none
  | p, a :: L => p = some a ∧ Chain next (next a) L

/-- The last element of a list, or `d` if it is empty. -/
def lastOr {α : Type*} (d : Option α) : List α → Option α
  | [] => d
  | a :: L => lastOr (some a) L

/-- The nodes met from `p` in at most `fuel` steps. -/
def collect {α : Type*} (next : α → Option α) : ℕ → Option α → List α
  | 0, _ => []
  | _ + 1, none => []
  | fuel + 1, some a => a :: collect next fuel (next a)

section LastOr

variable {α : Type*} {d : Option α} {a : α} {L : List α}

@[simp] theorem lastOr_nil : lastOr d [] = d := rfl

@[simp] theorem lastOr_cons : lastOr d (a :: L) = lastOr (some a) L := rfl

@[simp] theorem lastOr_concat : ∀ (L : List α) (d : Option α), lastOr d (L ++ [a]) = some a
  | [], _ => rfl
  | b :: L, _ => lastOr_concat L (some b)

/-- The last node is either the default of an empty list or the end of the list. -/
theorem lastOr_cases (L : List α) :
    (L = [] ∧ lastOr d L = d) ∨ ∃ M a, L = M ++ [a] ∧ lastOr d L = some a := by
  rcases List.eq_nil_or_concat L with rfl | ⟨M, a, rfl⟩
  · exact Or.inl ⟨rfl, rfl⟩
  · rw [List.concat_eq_append]
    exact Or.inr ⟨M, a, rfl, lastOr_concat M d⟩

end LastOr

namespace Chain

variable {α : Type*} {next next' : α → Option α} {p q : Option α} {a b : α} {L M N : List α}

@[simp] theorem nil_iff : Chain next p [] ↔ p = none := Iff.rfl

@[simp] theorem cons_iff : Chain next p (a :: L) ↔ p = some a ∧ Chain next (next a) L := Iff.rfl

/-- **The frame rule**: a chain only reads the links of its own nodes. -/
theorem congr : ∀ {L : List α} {p : Option α}, Chain next p L →
    (∀ a ∈ L, next' a = next a) → Chain next' p L
  | [], _, h, _ => h
  | a :: L, _, ⟨hp, htail⟩, hsame => by
      refine ⟨hp, ?_⟩
      rw [hsame a List.mem_cons_self]
      exact congr htail fun b hb => hsame b (List.mem_cons_of_mem _ hb)

/-- The head and the links determine the nodes. -/
theorem unique : ∀ {L M : List α} {p : Option α}, Chain next p L → Chain next p M → L = M
  | [], [], _, _, _ => rfl
  | [], _ :: _, _, hL, hM => by simp_all
  | _ :: _, [], _, hL, hM => by simp_all
  | a :: L, b :: M, _, ⟨hp, hL⟩, ⟨hq, hM⟩ => by
      have hab : a = b := Option.some.inj (hp.symm.trans hq)
      subst hab
      rw [unique hL hM]

/-- The rest of a chain after a prefix. -/
theorem drop : ∀ {L : List α} {p : Option α}, Chain next p (L ++ M) → ∃ q, Chain next q M
  | [], p, h => ⟨p, h⟩
  | _ :: L, _, ⟨_, h⟩ => drop (L := L) h

/-- From the link of a node inside a chain, the rest of the chain follows. -/
theorem after : ∀ {L : List α} {p : Option α}, Chain next p (L ++ a :: M) →
    Chain next (next a) M
  | [], _, ⟨_, h⟩ => h
  | _ :: L, _, ⟨_, h⟩ => after (L := L) h

/-- **A chain is acyclic.** -/
theorem nodup : ∀ {L : List α} {p : Option α}, Chain next p L → L.Nodup
  | [], _, _ => List.nodup_nil
  | a :: L, _, ⟨_, htail⟩ => by
      refine List.nodup_cons.mpr ⟨?_, nodup htail⟩
      intro hmem
      obtain ⟨L₁, L₂, rfl⟩ := List.append_of_mem hmem
      have hlater : Chain next (next a) L₂ := htail.after
      have hlen := congrArg List.length (htail.unique hlater)
      simp at hlen
      omega

/-- **Relinking**: keep the prefix `L` of a chain and continue with the chain `N` instead.
The link that changes is that of the last node of `L`, or the head pointer if `L` is empty. -/
theorem relink : ∀ {L : List α} {p p' q : Option α}, Chain next p (L ++ M) →
    (∀ a ∈ L, lastOr none L ≠ some a → next' a = next a) →
    (∀ a, lastOr none L = some a → next' a = q) →
    (L = [] → p' = q) → (L ≠ [] → p' = p) →
    Chain next' q N → Chain next' p' (L ++ N)
  | [], _, _, _, _, _, _, hp', _, hN => by
      rw [hp' rfl]
      exact hN
  | [a], _, _, _, ⟨hp, _⟩, _, hlast, _, hkeep, hN => by
      refine ⟨(hkeep (by simp)).trans hp, ?_⟩
      rw [hlast a rfl]
      exact hN
  | a :: b :: L, p, p', q, h, hsame, hlast, _, hkeep, hN => by
      obtain ⟨hp, htail⟩ := h
      refine ⟨(hkeep (by simp)).trans hp, ?_⟩
      have hnd := nodup (L := (a :: b :: L) ++ M) ⟨hp, htail⟩
      have hne : lastOr none (a :: b :: L) ≠ some a := by
        intro hEq
        rcases lastOr_cases (d := some a) (b :: L) with ⟨hnil, _⟩ | ⟨K, c, hK, hc⟩
        · simp at hnil
        · have hca : c = a := Option.some.inj (hc.symm.trans hEq)
          have hin : a ∈ (b :: L) ++ M := by
            rw [hK, hca]
            simp
          exact (List.nodup_cons.mp hnd).1 hin
      have ha : next' a = next a := hsame a List.mem_cons_self hne
      refine relink (L := b :: L) (p := next a) htail ?_ ?_ (by simp) (fun _ => ha) hN
      · intro c hc hcne
        exact hsame c (List.mem_cons_of_mem _ hc) hcne
      · intro c hc
        exact hlast c hc

theorem collect_eq {fuel : ℕ} (h : Chain next p L) (hlen : L.length ≤ fuel) :
    collect next fuel p = L := by
  induction fuel generalizing p L with
  | zero =>
    cases L with
    | nil => rfl
    | cons a L => simp at hlen
  | succ fuel ih =>
    cases L with
    | nil =>
      rw [nil_iff.mp h]
      rfl
    | cons a L =>
      obtain ⟨rfl, htail⟩ := h
      unfold collect
      rw [ih htail (by simpa using hlen)]

end Chain
