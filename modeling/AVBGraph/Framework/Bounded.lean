import Mathlib.Data.List.Basic
import Mathlib.Logic.Function.Basic

namespace AVBGraph.Framework

variable {α β : Type*}

/-- A read of an array of `size` cells; outside it there is no value. -/
def load (size : Nat) (f : Nat → α) (i : Nat) : Option α := if i < size then some (f i) else none

/-- A write to an array of `size` cells. -/
def store (size : Nat) (f : Nat → α) (i : Nat) (x : α) : Option (Nat → α) :=
  if i < size then some (Function.update f i x) else none

theorem load_of_lt {size i : Nat} {f : Nat → α} (h : i < size) : load size f i = some (f i) :=
  if_pos h

theorem store_of_lt {size i : Nat} {f : Nat → α} {x : α} (h : i < size) :
    store size f i x = some (Function.update f i x) := if_pos h

/-- A loop over indices whose rounds succeed under an invariant is the loop without failures. -/
theorem foldlM_range {f : β → Nat → Option β} {g : β → Nat → β} {I : Nat → β → Prop} {b : β}
    {n : Nat} (h0 : I 0 b) (hstep : ∀ i c, i < n → I i c → f c i = some (g c i) ∧ I (i + 1) (g c i)) :
    (List.range n).foldlM f b = some ((List.range n).foldl g b) ∧ I n ((List.range n).foldl g b) := by
  induction n with
  | zero => exact ⟨rfl, h0⟩
  | succ n ih =>
    obtain ⟨heq, hI⟩ := ih fun i c hi => hstep i c (by omega)
    obtain ⟨hlast, hnext⟩ := hstep n _ (by omega) hI
    rw [List.range_succ, List.foldlM_append, heq, List.foldl_append]
    exact ⟨by simpa using hlast, hnext⟩

end AVBGraph.Framework
