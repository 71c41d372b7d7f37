import Mathlib.Data.List.Basic
import Mathlib.Data.List.Count
import Mathlib.Data.List.TakeWhile
import Mathlib.Order.Lattice
import Mathlib.Tactic

namespace AVBGraph.Framework

variable {α : Type*} [LinearOrder α]

/-- Scans a list run by run and keeps the value of a run that is longer than all before it. -/
def longestRun (l : List α) (best : α) (bestCount : Nat) : α :=
  match l with
  | [] => best
  | x :: xs =>
    let count := (xs.takeWhile (· = x)).length + 1
    let rest := xs.dropWhile (· = x)
    if count > bestCount then longestRun rest x count else longestRun rest best bestCount
termination_by l.length
decreasing_by
  all_goals
    simp only [List.length_cons]
    exact Nat.lt_succ_of_le (List.length_dropWhile_le _ _)

/-- The most frequent value of a list, the smallest one of several. -/
def plurality (l : List α) : Option α :=
  (l.filter fun a => l.all fun b => decide (l.count b ≤ l.count a)).min?

/-- `a` is the most frequent value of `l`, and smaller than any other equally frequent one. -/
structure Plural (l : List α) (a : α) : Prop where
  mem : a ∈ l
  count_le : ∀ b ∈ l, l.count b ≤ l.count a
  le_of_count : ∀ b ∈ l, l.count b = l.count a → a ≤ b

theorem plurality_eq_some {l : List α} {a : α} : plurality l = some a ↔ Plural l a := by
  rw [plurality, List.min?_eq_some_iff]
  simp only [List.mem_filter, List.all_eq_true, decide_eq_true_eq]
  constructor
  · rintro ⟨⟨hmem, hcount⟩, hmin⟩
    exact ⟨hmem, hcount, fun b hb heq => hmin b ⟨hb, fun c hc => heq ▸ hcount c hc⟩⟩
  · rintro ⟨hmem, hcount, hmin⟩
    exact ⟨⟨hmem, hcount⟩, fun b ⟨hb, hb'⟩ =>
      hmin b hb (le_antisymm (hcount b hb) (hb' a hmem))⟩

theorem plurality_perm {l l' : List α} (h : l.Perm l') : plurality l = plurality l' := by
  refine Option.ext fun a => ?_
  rw [plurality_eq_some, plurality_eq_some]
  constructor
  · rintro ⟨hmem, hcount, hmin⟩
    exact ⟨h.mem_iff.mp hmem,
      fun b hb => by simpa only [h.count_eq] using hcount b (h.mem_iff.mpr hb),
      fun b hb heq => hmin b (h.mem_iff.mpr hb) (by simpa only [h.count_eq] using heq)⟩
  · rintro ⟨hmem, hcount, hmin⟩
    exact ⟨h.mem_iff.mpr hmem,
      fun b hb => by simpa only [h.count_eq] using hcount b (h.mem_iff.mp hb),
      fun b hb heq => hmin b (h.mem_iff.mp hb) (by simpa only [h.count_eq] using heq)⟩

/-- The first run of a sorted list has all occurrences of its value. -/
theorem sorted_run {x : α} {xs : List α} (h : (x :: xs).Pairwise (· ≤ ·)) :
    x :: xs.takeWhile (· = x) = List.replicate ((xs.takeWhile (· = x)).length + 1) x ∧
      ∀ y ∈ xs.dropWhile (· = x), x < y := by
  constructor
  · rw [List.replicate_succ, List.cons_inj_right]
    refine List.eq_replicate_iff.mpr ⟨rfl, fun y hy => ?_⟩
    simpa using List.mem_takeWhile_imp hy
  · intro y hy
    obtain ⟨hle, hsorted⟩ := List.pairwise_cons.mp h
    cases hdrop : xs.dropWhile (· = x) with
    | nil => simp [hdrop] at hy
    | cons z zs =>
      have hz : z ≠ x := by
        have := List.head_dropWhile_not (fun y => decide (y = x)) (l := xs) (by simp [hdrop])
        simpa [hdrop] using this
      have hsub : (z :: zs).Sublist xs := hdrop ▸ List.dropWhile_sublist _
      have hxz : x < z := lt_of_le_of_ne (hle z (hsub.subset List.mem_cons_self)) hz.symm
      rw [hdrop] at hy
      rcases List.mem_cons.mp hy with rfl | hy
      · exact hxz
      · exact hxz.trans_le ((List.pairwise_cons.mp (hsorted.sublist hsub)).1 y hy)

/-- One more run behind smaller values: it wins only if it is longer. -/
theorem Plural.append_run {done : List α} {best x : α} {n : Nat} (h : Plural done best)
    (hlt : ∀ y ∈ done, y < x) (hn : 0 < n) :
    Plural (done ++ List.replicate n x) (if n > done.count best then x else best) := by
  have hx : done.count x = 0 := List.count_eq_zero.mpr fun hmem => lt_irrefl x (hlt x hmem)
  have hne : ∀ y ∈ done, x ≠ y := fun y hy heq => lt_irrefl x (heq ▸ hlt y hy)
  have hcount : ∀ y ∈ done, (done ++ List.replicate n x).count y = done.count y := by
    intro y hy
    rw [List.count_append, List.count_replicate, if_neg (by simpa using hne y hy), Nat.add_zero]
  have hcountx : (done ++ List.replicate n x).count x = n := by
    rw [List.count_append, hx, List.count_replicate_self, Nat.zero_add]
  have hmem : ∀ y, y ∈ done ++ List.replicate n x ↔ y ∈ done ∨ y = x := by
    intro y
    rw [List.mem_append, List.mem_replicate]
    simp [hn.ne']
  split
  · refine ⟨(hmem x).mpr (.inr rfl), fun b hb => ?_, fun b hb heq => ?_⟩
    · rw [hcountx]
      rcases (hmem b).mp hb with hb | rfl
      · rw [hcount b hb]
        exact (h.count_le b hb).trans ‹n > _›.le
      · rw [hcountx]
    · rw [hcountx] at heq
      rcases (hmem b).mp hb with hb | rfl
      · rw [hcount b hb] at heq
        have := h.count_le b hb
        omega
      · exact le_refl _
  · refine ⟨(hmem best).mpr (.inl h.mem), fun b hb => ?_, fun b hb heq => ?_⟩
    · rw [hcount best h.mem]
      rcases (hmem b).mp hb with hb | rfl
      · rw [hcount b hb]
        exact h.count_le b hb
      · rw [hcountx]
        omega
    · rcases (hmem b).mp hb with hb | rfl
      · rw [hcount b hb, hcount best h.mem] at heq
        exact h.le_of_count b hb heq
      · exact (hlt best h.mem).le

/-- The scan continues a list `done` of smaller values whose winner it knows. -/
theorem longestRun_plural {done l : List α} {best : α} (hsorted : l.Pairwise (· ≤ ·))
    (hlt : ∀ y ∈ done, ∀ z ∈ l, y < z) (h : Plural done best) :
    Plural (done ++ l) (longestRun l best (done.count best)) := by
  induction hl : l.length using Nat.strongRecOn generalizing done l best with
  | ind n ih =>
    cases l with
    | nil => simpa [longestRun] using h
    | cons x xs =>
      obtain ⟨hrun, hrest⟩ := sorted_run hsorted
      set count := (xs.takeWhile (· = x)).length + 1 with hcount
      set rest := xs.dropWhile (· = x) with hrestdef
      have hsplit : done ++ x :: xs = done ++ List.replicate count x ++ rest := by
        rw [← hrun, List.append_assoc, List.cons_append, List.takeWhile_append_dropWhile]
      have hx : ∀ y ∈ done, y < x := fun y hy => hlt y hy x List.mem_cons_self
      have hnext := h.append_run hx (n := count) (Nat.succ_pos _)
      have hxs : done.count x = 0 := List.count_eq_zero.mpr fun hmem => lt_irrefl x (hx x hmem)
      have hwin : (done ++ List.replicate count x).count
          (if count > done.count best then x else best) =
            if count > done.count best then count else done.count best := by
        rw [List.count_append]
        split
        · rw [hxs, List.count_replicate_self, Nat.zero_add]
        · rw [List.count_replicate, if_neg (by simpa using (hx best h.mem).ne'), Nat.add_zero]
      have hstep := ih rest.length (by
          rw [← hl, List.length_cons]
          exact Nat.lt_succ_of_le (List.length_dropWhile_le _ _))
        (hsorted.sublist ((List.dropWhile_sublist _).trans (List.sublist_cons_self x xs)))
        (fun y hy z hz => by
          rcases List.mem_append.mp hy with hy | hy
          · exact (hx y hy).trans (hrest z hz)
          · rw [List.eq_of_mem_replicate hy]
            exact hrest z hz) hnext rfl
      rw [hsplit, longestRun]
      rw [hwin] at hstep
      split <;> simpa [*] using hstep

/-- On a sorted list the scan finds the most frequent value, whatever it starts with. -/
theorem longestRun_sorted {l : List α} (hsorted : l.Pairwise (· ≤ ·)) (hne : l ≠ []) (a : α) :
    plurality l = some (longestRun l a 0) := by
  rw [plurality_eq_some]
  cases l with
  | nil => exact absurd rfl hne
  | cons x xs =>
    obtain ⟨hrun, hrest⟩ := sorted_run hsorted
    set count := (xs.takeWhile (· = x)).length + 1 with hcount
    have hfirst : Plural (List.replicate count x) x :=
      ⟨by simp [hcount], fun b hb => by rw [List.eq_of_mem_replicate hb],
        fun b hb _ => (List.eq_of_mem_replicate hb).ge⟩
    have h := longestRun_plural (l := xs.dropWhile (· = x))
      (hsorted.sublist ((List.dropWhile_sublist _).trans (List.sublist_cons_self x xs)))
      (fun y hy z hz => by
        rw [List.eq_of_mem_replicate hy]
        exact hrest z hz) hfirst
    rw [List.count_replicate_self, ← hrun, List.cons_append,
      List.takeWhile_append_dropWhile] at h
    rw [longestRun, if_pos (Nat.succ_pos _)]
    exact h

end AVBGraph.Framework
