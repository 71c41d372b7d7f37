import Mathlib.Data.List.Sort
import Mathlib.Order.Basic
import Mathlib.Tactic

namespace AVBGraph.Framework

/-- The requirement of std::sort on a comparator. -/
structure StrictWeak (lt : Nat → Nat → Bool) : Prop where
  asymm : ∀ a b, lt a b = true → lt b a = false
  trans : ∀ a b c, lt b a = false → lt c b = false → lt c a = false

theorem strictWeak_of_key {α : Type*} [LinearOrder α] {lt : Nat → Nat → Bool} (key : Nat → α)
    (h : ∀ a b, lt a b = true ↔ key a < key b) : StrictWeak lt := by
  have hf : ∀ a b, lt a b = false ↔ key b ≤ key a := by
    intro a b
    rw [← Bool.not_eq_true, h, not_lt]
  refine ⟨fun a b hab => (hf b a).mpr ((h a b).mp hab).le, fun a b c hba hcb => ?_⟩
  exact (hf c a).mpr (((hf b a).mp hba).trans ((hf c b).mp hcb))

/-- std::sort on the indices below n: a permutation, sorted for a valid comparator. The
order of equivalent elements is left open. -/
structure StdSort where
  sort : Nat → (Nat → Nat → Bool) → List Nat
  perm : ∀ n lt, (sort n lt).Perm (List.range n)
  sorted : ∀ n lt, StrictWeak lt → (sort n lt).Pairwise fun a b => lt b a = false

namespace StdSort

theorem mem (S : StdSort) {n k : Nat} {lt : Nat → Nat → Bool} : k ∈ S.sort n lt ↔ k < n := by
  rw [(S.perm n lt).mem_iff, List.mem_range]

theorem length (S : StdSort) (n : Nat) (lt : Nat → Nat → Bool) : (S.sort n lt).length = n := by
  rw [(S.perm n lt).length_eq, List.length_range]

theorem nodup (S : StdSort) (n : Nat) (lt : Nat → Nat → Bool) : (S.sort n lt).Nodup :=
  (S.perm n lt).nodup_iff.mpr List.nodup_range

theorem sorted_key (S : StdSort) {α : Type*} [LinearOrder α] {lt : Nat → Nat → Bool}
    (key : Nat → α) (h : ∀ a b, lt a b = true ↔ key a < key b) (n : Nat) :
    (S.sort n lt).Pairwise fun a b => key a ≤ key b := by
  refine (S.sorted n lt (strictWeak_of_key key h)).imp fun {a b} hab => ?_
  rw [← not_lt, ← h, hab]
  exact Bool.false_ne_true

theorem map_getD_range {α : Type*} [Inhabited α] (l : List α) :
    ((List.range l.length).map fun i => l.getD i default) = l := by
  refine List.ext_getElem (by simp) fun i _ hi => ?_
  simp [List.getElem?_eq_getElem hi]

/-- The elements of a list in the order of their sorted positions. -/
theorem perm_map_getD (S : StdSort) {α : Type*} [Inhabited α] (l : List α)
    (lt : Nat → Nat → Bool) : ((S.sort l.length lt).map fun i => l.getD i default).Perm l := by
  have h := (S.perm l.length lt).map fun i => l.getD i default
  rwa [map_getD_range] at h

private theorem sorted_insertionSort {lt : Nat → Nat → Bool} (h : StrictWeak lt) (l : List Nat) :
    (l.insertionSort fun a b => lt b a = false).Pairwise fun a b => lt b a = false := by
  have : Std.Total fun a b => lt b a = false := by
    refine ⟨fun a b => ?_⟩
    cases hba : lt b a with
    | false => exact Or.inl rfl
    | true => exact Or.inr (h.asymm b a hba)
  have : IsTrans Nat fun a b => lt b a = false := ⟨h.trans⟩
  exact l.pairwise_insertionSort _

/-- Insertion sort, which keeps equivalent elements in order. -/
def stable : StdSort where
  sort n lt := (List.range n).insertionSort fun a b => lt b a = false
  perm _ _ := List.perm_insertionSort _ _
  sorted _ _ h := sorted_insertionSort h _

end StdSort

end AVBGraph.Framework
