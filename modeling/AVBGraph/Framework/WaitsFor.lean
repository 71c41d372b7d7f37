import Mathlib.Logic.Function.Basic
import Mathlib.Logic.Relation
import Mathlib.Order.Basic

namespace AVBGraph.Framework

open Relation

/-- Exclusive locks: the party that holds a lock, and the one lock that a party waits for. -/
structure Locking (τ ρ : Type*) where
  holder : ρ → Option τ
  wants : τ → Option ρ

namespace Locking

variable {τ ρ β : Type*} {l l' : Locking τ ρ}

/-- The waits-for graph. A party that waits for its own lock waits for itself. -/
def WaitsFor (l : Locking τ ρ) (t u : τ) : Prop :=
  ∃ r, l.wants t = some r ∧ l.holder r = some u

def DeadlockFree (l : Locking τ ρ) : Prop := ∀ t, ¬TransGen l.WaitsFor t t

theorem deadlockFree_of_idle (h : ∀ t, l.wants t = none) : l.DeadlockFree := by
  intro t ht
  obtain ⟨u, ⟨r, hr, -⟩, -⟩ := TransGen.head'_iff.mp ht
  simp [h t] at hr

theorem DeadlockFree.mono (h : l.DeadlockFree) (hsub : ∀ t u, l'.WaitsFor t u → l.WaitsFor t u) :
    l'.DeadlockFree :=
  fun t ht => h t (TransGen.mono hsub t t ht)

/-- Edges into a party that waits for nothing close no cycle. -/
theorem DeadlockFree.sink (h : l.DeadlockFree) {t : τ} (ht : l'.wants t = none)
    (hsub : ∀ a b, l'.WaitsFor a b → l.WaitsFor a b ∨ b = t) : l'.DeadlockFree := by
  have hout : ∀ b, ¬l'.WaitsFor t b := by
    rintro b ⟨r, hr, -⟩
    simp [ht] at hr
  have hpath : ∀ a b, TransGen l'.WaitsFor a b → TransGen l.WaitsFor a b ∨ b = t := by
    intro a b hab
    induction hab with
    | single hab => exact (hsub a _ hab).imp_left .single
    | tail _ hbc ih =>
      rcases ih with ih | rfl
      · exact (hsub _ _ hbc).imp_left ih.tail
      · exact absurd hbc (hout _)
  intro a ha
  rcases hpath a a ha with hold | rfl
  · exact h a hold
  · obtain ⟨b, hb, -⟩ := TransGen.head'_iff.mp ha
    exact hout b hb

section Request

variable [DecidableEq τ] {t : τ} {r : ρ}

/-- Party `t` starts to wait for lock `r`. -/
def request (l : Locking τ ρ) (t : τ) (r : ρ) : Locking τ ρ :=
  { l with wants := Function.update l.wants t (some r) }

/-- The request of `t` for `r` closes a cycle. -/
def ClosesCycle (l : Locking τ ρ) (t : τ) (r : ρ) : Prop :=
  ∃ u, l.holder r = some u ∧ ReflTransGen l.WaitsFor u t

theorem waitsFor_request_self {u : τ} : (l.request t r).WaitsFor t u ↔ l.holder r = some u := by
  simp [WaitsFor, request]

theorem waitsFor_request_of_ne {a u : τ} (h : a ≠ t) :
    (l.request t r).WaitsFor a u ↔ l.WaitsFor a u := by
  simp [WaitsFor, request, h]

theorem DeadlockFree.request (h : l.DeadlockFree) (hr : ¬l.ClosesCycle t r) :
    (l.request t r).DeadlockFree := by
  -- a new path is an old one, or it uses the new edge
  have hpath : ∀ a b, TransGen (l.request t r).WaitsFor a b → TransGen l.WaitsFor a b ∨
      (ReflTransGen l.WaitsFor a t ∧ ∃ u, l.holder r = some u ∧ ReflTransGen l.WaitsFor u b) := by
    intro a b hab
    induction hab with
    | single hab =>
      by_cases ha : a = t
      · subst ha
        exact Or.inr ⟨.refl, _, waitsFor_request_self.mp hab, .refl⟩
      · exact Or.inl (.single ((waitsFor_request_of_ne ha).mp hab))
    | @tail b c _ hbc ih =>
      by_cases hb : b = t
      · subst hb
        have hc := waitsFor_request_self.mp hbc
        rcases ih with ih | ⟨ha, -⟩
        · exact Or.inr ⟨ih.to_reflTransGen, c, hc, .refl⟩
        · exact Or.inr ⟨ha, c, hc, .refl⟩
      · have hbc := (waitsFor_request_of_ne hb).mp hbc
        rcases ih with ih | ⟨ha, u, hu, hub⟩
        · exact Or.inl (ih.tail hbc)
        · exact Or.inr ⟨ha, u, hu, hub.tail hbc⟩
  intro a ha
  rcases hpath a a ha with hold | ⟨hat, u, hu, hua⟩
  · exact h a hold
  · exact hr ⟨u, hu, hua.trans hat⟩

/-- A party that waits for nothing deadlocks by a request that closes a cycle. -/
theorem ClosesCycle.deadlock (h : l.ClosesCycle t r) (ht : l.wants t = none) :
    ¬(l.request t r).DeadlockFree := by
  obtain ⟨u, hu, hut⟩ := h
  have hsub : ∀ a b, l.WaitsFor a b → (l.request t r).WaitsFor a b := by
    intro a b hab
    have ha : a ≠ t := by
      rintro rfl
      obtain ⟨r', hr', -⟩ := hab
      simp [ht] at hr'
    exact (waitsFor_request_of_ne ha).mpr hab
  intro hfree
  exact hfree t (TransGen.head' (waitsFor_request_self.mpr hu) (ReflTransGen.mono hsub u t hut))

end Request

section Rank

variable [Preorder β] {rank : ρ → β}

/-- Every party waits for a lock above those that it holds. -/
def Ranked (l : Locking τ ρ) (rank : ρ → β) : Prop :=
  ∀ t r r', l.wants t = some r → l.holder r' = some t → rank r' < rank r

theorem Ranked.le_of_path (h : l.Ranked rank) {a b : τ} (hab : TransGen l.WaitsFor a b) {r : ρ}
    (hr : l.wants a = some r) : ∃ r', l.holder r' = some b ∧ rank r ≤ rank r' := by
  induction hab with
  | single hab =>
    obtain ⟨r', hr', hb⟩ := hab
    obtain rfl : r = r' := Option.some.inj (hr.symm.trans hr')
    exact ⟨r, hb, le_rfl⟩
  | tail _ hbc ih =>
    obtain ⟨r₁, hb, hle⟩ := ih
    obtain ⟨r₂, hr₂, hc⟩ := hbc
    exact ⟨r₂, hc, hle.trans (h _ _ _ hr₂ hb).le⟩

/-- Requests in the order of the ranks close no cycle. -/
theorem Ranked.not_closesCycle (h : l.Ranked rank) {t : τ} {r : ρ}
    (hr : ∀ r', l.holder r' = some t → rank r' < rank r) : ¬l.ClosesCycle t r := by
  rintro ⟨u, hu, hut⟩
  rcases Relation.reflTransGen_iff_eq_or_transGen.mp hut with rfl | hut
  · exact lt_irrefl _ (hr r hu)
  · obtain ⟨b, ⟨r₁, hr₁, -⟩, -⟩ := TransGen.head'_iff.mp hut
    obtain ⟨r₂, ht, hle⟩ := h.le_of_path hut hr₁
    exact lt_irrefl _ ((h u r₁ r hr₁ hu).trans_le (hle.trans (hr r₂ ht).le))

end Rank

end Locking

end AVBGraph.Framework
