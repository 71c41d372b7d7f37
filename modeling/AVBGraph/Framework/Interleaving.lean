import Mathlib.Algebra.BigOperators.Group.Finset.Piecewise
import Mathlib.Algebra.BigOperators.Group.Multiset.Basic
import Mathlib.Algebra.Order.BigOperators.Group.Finset
import Mathlib.Algebra.Order.Group.Multiset
import Mathlib.Data.Fintype.Basic

namespace AVBGraph.Framework

variable {ι α : Type*} [DecidableEq ι]

/-- What one party has added to a log in which every entry names its party. -/
def entriesOf (log : List (ι × α)) (t : ι) : List α :=
  (log.filter fun entry => entry.1 = t).map Prod.snd

@[simp] theorem entriesOf_nil (t : ι) : entriesOf ([] : List (ι × α)) t = [] := rfl

theorem entriesOf_append (log log' : List (ι × α)) (t : ι) :
    entriesOf (log ++ log') t = entriesOf log t ++ entriesOf log' t := by
  simp [entriesOf]

/-- A whole batch of one party. -/
theorem entriesOf_batch (xs : List α) (t u : ι) :
    entriesOf (xs.map fun x => (t, x)) u = if u = t then xs else [] := by
  unfold entriesOf
  rw [List.filter_map, List.map_map]
  by_cases hu : u = t
  · subst u
    simp [Function.comp_def]
  · simp [Function.comp_def, Ne.symm hu, hu]

/-- Every party finds its entries in its own order. -/
theorem entriesOf_sublist (log : List (ι × α)) (t : ι) :
    (entriesOf log t).Sublist (log.map Prod.snd) :=
  List.filter_sublist.map Prod.snd

/-- The log holds the entries of all parties and nothing else. -/
theorem sum_entriesOf [Fintype ι] (log : List (ι × α)) :
    ∑ t, (entriesOf log t : Multiset α) = (log.map Prod.snd : List α) := by
  induction log with
  | nil => simp
  | cons entry log ih =>
    have hcons (t : ι) : (entriesOf (entry :: log) t : Multiset α) =
        (if t = entry.1 then {entry.2} else 0) + (entriesOf log t : Multiset α) := by
      unfold entriesOf
      by_cases ht : t = entry.1
      · subst t
        simp
      · simp [ht, Ne.symm ht]
    simp only [hcons, Finset.sum_add_distrib, ih]
    simp

theorem length_eq_sum_entriesOf [Fintype ι] (log : List (ι × α)) :
    log.length = ∑ t, (entriesOf log t).length := by
  have h := congrArg Multiset.card (sum_entriesOf log)
  simpa [map_sum] using h.symm

omit [DecidableEq ι] in
/-- Where the parties' lists together have nothing twice, no list has. -/
theorem nodup_of_sum_nodup [Fintype ι] {work : ι → List α}
    (h : (∑ t, (work t : Multiset α)).Nodup) (t : ι) : (work t).Nodup :=
  have hle := Finset.single_le_sum_of_canonicallyOrdered (f := fun t => (work t : Multiset α))
    (Finset.mem_univ t)
  Multiset.coe_nodup.mp (Multiset.nodup_of_le hle h)

/-- Where the parties' lists together have nothing twice, every element has one party. -/
theorem party_unique [Fintype ι] {work : ι → List α} (h : (∑ t, (work t : Multiset α)).Nodup)
    {t u : ι} {x : α} (ht : x ∈ work t) (hu : x ∈ work u) : t = u := by
  by_contra hne
  have hpair : (work t : Multiset α) + work u ≤ ∑ t, (work t : Multiset α) := by
    rw [← Finset.sum_pair (f := fun v => (work v : Multiset α)) hne]
    exact Finset.sum_le_sum_of_subset (Finset.subset_univ _)
  have hdisjoint := (Multiset.nodup_add.mp (Multiset.nodup_of_le hpair h)).2.2
  exact Multiset.disjoint_left.mp hdisjoint (Multiset.mem_coe.mpr ht) (Multiset.mem_coe.mpr hu)

omit [DecidableEq ι] in
/-- Every party filters its part. -/
theorem sum_filter [Fintype ι] {work : ι → List α} {all : List α}
    (h : ∑ t, (work t : Multiset α) = all) (p : α → Bool) :
    ∑ t, ((work t).filter p : Multiset α) = (all.filter p : List α) := by
  let filtered : Multiset α →+ Multiset α :=
    ⟨⟨Multiset.filter fun x => p x = true, Multiset.filter_zero _⟩, Multiset.filter_add _⟩
  have hlist (l : List α) : filtered l = (l.filter p : Multiset α) :=
    (Multiset.filter_coe _ l).trans (by simp)
  have hsum := congrArg filtered h
  rw [map_sum] at hsum
  simpa only [hlist] using hsum

/-- One party has everything. -/
theorem sum_alone [Fintype ι] (xs : List α) (t : ι) :
    ∑ u, ((if u = t then xs else [] : List α) : Multiset α) = xs := by
  rw [Finset.sum_eq_single t]
  · simp
  · intro u _ hu
    simp [hu]
  · simp

/-- A sum over all parties when one of them changes. -/
theorem sum_update_add {β M : Type*} [Fintype ι] [AddCommMonoid M] (f : ι → β) (g : β → M) (t : ι)
    (x : β) : ∑ u, g (Function.update f t x u) + g (f t) = ∑ u, g (f u) + g x := by
  have hrest : ∑ u ∈ Finset.univ.erase t, g (Function.update f t x u) =
      ∑ u ∈ Finset.univ.erase t, g (f u) :=
    Finset.sum_congr rfl fun u hu => by rw [Function.update_of_ne (Finset.ne_of_mem_erase hu)]
  rw [← Finset.add_sum_erase _ _ (Finset.mem_univ t),
    ← Finset.add_sum_erase _ (fun u => g (f u)) (Finset.mem_univ t), hrest, Function.update_self]
  ac_rfl

end AVBGraph.Framework
