import Mathlib.Data.Finset.Card
import Mathlib.Data.Finset.Filter

namespace AVBGraph.Framework

variable {α : Type*} (adj : α → α → Prop) (root : α)

/-- A walk from the root, with its number of edges. -/
inductive Walk : Nat → α → Prop
  | root : Walk 0 root
  | step {k : Nat} {u v : α} : Walk k u → adj u v → Walk (k + 1) v

/-- The least number of edges from the root. -/
def Hop (k : Nat) (v : α) : Prop := Walk adj root k v ∧ ∀ j < k, ¬Walk adj root j v

variable {adj : α → α → Prop} {root : α} {j k : Nat} {v : α}

theorem Walk.exists_hop (h : Walk adj root k v) : ∃ j ≤ k, Hop adj root j v := by
  induction k using Nat.strongRecOn with
  | ind k ih =>
    by_cases hmin : ∃ j < k, Walk adj root j v
    · obtain ⟨j, hj, hw⟩ := hmin
      obtain ⟨i, hi, hhop⟩ := ih j hj hw
      exact ⟨i, Nat.le_trans hi (Nat.le_of_lt hj), hhop⟩
    · exact ⟨k, Nat.le_refl k, h, fun j hj hw => hmin ⟨j, hj, hw⟩⟩

theorem Hop.unique (h : Hop adj root j v) (h' : Hop adj root k v) : j = k := by
  rcases Nat.lt_trichotomy j k with hlt | heq | hlt
  · exact absurd h.1 (h'.2 j hlt)
  · exact heq
  · exact absurd h'.1 (h.2 k hlt)

theorem hop_zero : Hop adj root 0 v ↔ v = root := by
  constructor
  · rintro ⟨hw, -⟩
    cases hw
    rfl
  · rintro rfl
    exact ⟨.root, fun j hj => absurd hj (Nat.not_lt_zero j)⟩

/-- The next level: the neighbours of the last one that no level has yet. -/
theorem hop_succ : Hop adj root (k + 1) v ↔
    (∃ u, Hop adj root k u ∧ adj u v) ∧ ∀ j ≤ k, ¬Hop adj root j v := by
  constructor
  · rintro ⟨hw, hmin⟩
    refine ⟨?_, fun j hj hhop => hmin j (Nat.lt_succ_of_le hj) hhop.1⟩
    cases hw with
    | @step _ u _ hu huv =>
      refine ⟨u, ⟨hu, fun j hj hj' => ?_⟩, huv⟩
      exact hmin (j + 1) (Nat.succ_lt_succ hj) (hj'.step huv)
  · rintro ⟨⟨u, hu, huv⟩, hno⟩
    refine ⟨hu.1.step huv, fun j hj hw => ?_⟩
    obtain ⟨i, hi, hhop⟩ := hw.exists_hop
    exact hno i (Nat.le_trans hi (Nat.le_of_lt_succ hj)) hhop

/-- No level is left out. -/
theorem Hop.exists_of_le (h : Hop adj root k v) (hj : j ≤ k) : ∃ u, Hop adj root j u := by
  induction k generalizing v with
  | zero => exact ⟨v, Nat.le_zero.mp hj ▸ h⟩
  | succ k ih =>
    obtain ⟨⟨u, hu, -⟩, -⟩ := hop_succ.mp h
    rcases Nat.le_succ_iff.mp hj with hle | rfl
    · exact ih hu hle
    · exact ⟨v, h⟩

open Classical in
variable (adj root) in
/-- The vertices that no level up to `k` has. -/
noncomputable def beyond (s : Finset α) (k : Nat) : Finset α :=
  s.filter fun v => ∀ j ≤ k, ¬Hop adj root j v

variable {s : Finset α}

theorem mem_beyond : v ∈ beyond adj root s k ↔ v ∈ s ∧ ∀ j ≤ k, ¬Hop adj root j v := by
  simp [beyond]

theorem beyond_subset (hj : j ≤ k) : beyond adj root s k ⊆ beyond adj root s j := by
  intro w hw
  rw [mem_beyond] at hw ⊢
  exact ⟨hw.1, fun i hi => hw.2 i (Nat.le_trans hi hj)⟩

theorem beyond_card_lt (hv : v ∈ s) (hhop : Hop adj root k v) (hj : j < k) :
    (beyond adj root s k).card < (beyond adj root s j).card := by
  apply Finset.card_lt_card
  rw [Finset.ssubset_iff_of_subset (beyond_subset hj.le)]
  refine ⟨v, mem_beyond.mpr ⟨hv, fun i hi hhop' => ?_⟩, fun hmem => ?_⟩
  · have := hhop'.unique hhop
    omega
  · exact (mem_beyond.mp hmem).2 k (Nat.le_refl k) hhop

theorem beyond_card_lt_card (hr : root ∈ s) : (beyond adj root s k).card < s.card := by
  have hsub : beyond adj root s k ⊆ s := fun w hw => (mem_beyond.mp hw).1
  apply Finset.card_lt_card
  rw [Finset.ssubset_iff_of_subset hsub]
  refine ⟨root, hr, fun hmem => ?_⟩
  exact (mem_beyond.mp hmem).2 0 (Nat.zero_le k) (hop_zero.mpr rfl)

end AVBGraph.Framework
