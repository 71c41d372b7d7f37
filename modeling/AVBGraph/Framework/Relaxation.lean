import Mathlib.Data.List.Basic
import Mathlib.Order.Lattice
import Mathlib.Logic.Relation
import Mathlib.Data.List.FinRange
import Mathlib.Order.BoundedOrder.Lattice
import Mathlib.Tactic

namespace AVBGraph.Framework

open Function

variable {α β : Type*}

section Carries

variable {es fs : List (α × α)} {e : α × α} {u v w : α}

end Carries

section Relax

variable [DecidableEq α] [LinearOrder β]

/-- One relaxation: the end of the edge takes the label of its start if that is smaller. -/
def relax (c : α → β) (e : α × α) : α → β := update c e.2 (min (c e.2) (c e.1))

theorem relax_apply (c : α → β) (e : α × α) (v : α) :
    relax c e v = if v = e.2 then min (c v) (c e.1) else c v := by
  rw [relax, update_apply]
  split
  · rw [‹v = e.2›]
  · rfl

theorem relax_le (c : α → β) (e : α × α) (v : α) : relax c e v ≤ c v := by
  rw [relax_apply]
  split
  · exact min_le_left _ _
  · exact le_refl _

theorem foldl_relax_le (es : List (α × α)) (c : α → β) (v : α) : es.foldl relax c v ≤ c v := by
  induction es generalizing c with
  | nil => exact le_refl _
  | cons e es ih => exact (ih _).trans (relax_le c e v)

/-- The least label spreads only along an edge that starts at it. -/
theorem relax_eq_bot [OrderBot β] {c : α → β} {e : α × α} {v : α} (h : relax c e v = ⊥) :
    c v = ⊥ ∨ v = e.2 ∧ c e.1 = ⊥ := by
  rw [relax_apply] at h
  split at h
  · rcases min_eq_bot.mp h with hv | he
    · exact .inl hv
    · exact .inr ⟨‹_›, he⟩
  · exact .inl h

/-- A sequence without effect has none when it is repeated. -/
theorem foldl_relax_replicate {es : List (α × α)} {c : α → β} (h : es.foldl relax c = c) (n : Nat) :
    (List.replicate n es).flatten.foldl relax c = c := by
  induction n with
  | zero => rfl
  | succ n ih => rw [List.replicate_succ, List.flatten_cons, List.foldl_append, h, ih]

end Relax

/-- What every round of a loop over the numbers below `n` carries on holds after it. -/
theorem foldl_finRange_induction {σ : Type*} {n : Nat} {f : σ → Fin n → σ} {P : Nat → σ → Prop}
    (hstep : ∀ (u : Fin n) s, P u s → P (u + 1) (f s u)) {s : σ} (h : P 0 s) :
    P n ((List.finRange n).foldl f s) := by
  induction n with
  | zero => exact h
  | succ n ih =>
    rw [List.finRange_succ_last, List.foldl_append, List.foldl_map]
    exact hstep (Fin.last n) _ (ih (f := fun s u => f s u.castSucc) fun u s => hstep u.castSucc s)

end AVBGraph.Framework
