import AVBGraph.Framework.RunLength
import AVBGraph.Algorithm.Adjacency
import Mathlib.Data.List.Sort
import Mathlib.Logic.Function.Iterate

namespace AVBGraph

open Framework Function

namespace CDLP

variable {max_vid : Nat}

/-- The labels of the neighbours of a vertex, sorted. -/
def nbrLabels (g : Adjacency max_vid) (labels : Fin max_vid → Nat) (v : Fin max_vid) : List Nat :=
  ((g.edges v).map labels).insertionSort (· ≤ ·)

/-- The two label arrays and the flag of a round. -/
structure State (max_vid : Nat) where
  labels : Fin max_vid → Nat
  nextLabels : Fin max_vid → Nat
  changed : Bool

/-- The body of a round for one vertex: it reads `labels` and writes `next_labels`. -/
def vertexStep (g : Adjacency max_vid) (s : State max_vid) (v : Fin max_vid) : State max_vid :=
  if g.degree v = 0 then { s with nextLabels := update s.nextLabels v (s.labels v) }
  else
    let nbr_labels := nbrLabels g s.labels v
    let best_label := longestRun nbr_labels (nbr_labels.headD 0) 0
    if best_label ≠ s.labels v then
      { s with nextLabels := update s.nextLabels v best_label, changed := true }
    else { s with nextLabels := update s.nextLabels v (s.labels v) }

/-- A round over the vertices in the order in which the threads come to them, and the swap. -/
def round (g : Adjacency max_vid) (order : List (Fin max_vid)) (s : State max_vid) :
    State max_vid :=
  let s := order.foldl (vertexStep g) { s with changed := false }
  { s with labels := s.nextLabels, nextLabels := s.labels }

/-- The loop from round `iter` on, at most `rounds` of them. -/
def roundLoop (g : Adjacency max_vid) (order : Nat → List (Fin max_vid)) :
    Nat → Nat → State max_vid → State max_vid
  | 0, _, s => s
  | rounds + 1, iter, s =>
    if s.changed then roundLoop g order rounds (iter + 1) (round g (order iter) s) else s

/-- The labels of `compute_cdlp`; `externalId` is p_mHashMap. -/
def computeCdlp (g : Adjacency max_vid) (order : Nat → List (Fin max_vid)) (max_iterations : Nat)
    (externalId : Fin max_vid → Nat) : Fin max_vid → Nat :=
  (roundLoop g order max_iterations 0 ⟨externalId, fun _ => 0, true⟩).labels

/-- Every vertex with neighbours takes their most frequent label, the smallest one on ties; all of
them read the labels of the round before. -/
def propagate (g : Adjacency max_vid) (labels : Fin max_vid → Nat) (v : Fin max_vid) : Nat :=
  (plurality ((g.edges v).map labels)).getD (labels v)

variable {g : Adjacency max_vid}

/-- One vertex writes what the reference step gives it and flags a difference. -/
theorem vertexStep_eq (hdeg : g.DegreeZero) (s : State max_vid) (v : Fin max_vid) :
    vertexStep g s v = { s with
      nextLabels := update s.nextLabels v (propagate g s.labels v)
      changed := s.changed || decide (propagate g s.labels v ≠ s.labels v) } := by
  unfold vertexStep
  split
  · have hnil : g.edges v = [] := (hdeg v).mp ‹_›
    simp [propagate, hnil, plurality]
  · have hne : nbrLabels g s.labels v ≠ [] := by
      intro hnil
      have hperm := List.perm_insertionSort (· ≤ ·) ((g.edges v).map s.labels)
      rw [show ((g.edges v).map s.labels).insertionSort (· ≤ ·) = [] from hnil] at hperm
      exact ‹¬_› ((hdeg v).mpr (by simpa using hperm.nil_eq.symm))
    have hbest : propagate g s.labels v =
        longestRun (nbrLabels g s.labels v) ((nbrLabels g s.labels v).headD 0) 0 := by
      rw [propagate, plurality_perm (List.perm_insertionSort (· ≤ ·) _).symm]
      rw [longestRun_sorted (List.pairwise_insertionSort _ _) hne]
      rfl
    simp only [← hbest]
    by_cases hsame : propagate g s.labels v = s.labels v
    · rw [if_neg (not_not.mpr hsame), hsame]
      simp
    · rw [if_pos hsame, decide_eq_true hsame, Bool.or_true]

/-- The vertices of `order` have their new labels, the others still what the array held. -/
theorem foldl_vertexStep (hdeg : g.DegreeZero) (order : List (Fin max_vid)) (s : State max_vid) :
    order.foldl (vertexStep g) s = { s with
      nextLabels := fun v => if v ∈ order then propagate g s.labels v else s.nextLabels v
      changed := s.changed || order.any fun v => decide (propagate g s.labels v ≠ s.labels v) } := by
  induction order generalizing s with
  | nil => simp
  | cons v order ih =>
    rw [List.foldl_cons, vertexStep_eq hdeg, ih]
    simp only [List.any_cons, Bool.or_assoc, State.mk.injEq, true_and, and_true]
    funext w
    by_cases hw : w = v
    · simp [hw]
    · simp [hw]

/-- A round is the reference step, whatever the second array held and whatever the order. -/
theorem round_eq (hdeg : g.DegreeZero) {order : List (Fin max_vid)}
    (horder : order.Perm (List.finRange max_vid)) (s : State max_vid) :
    (round g order s).labels = propagate g s.labels ∧
      ((round g order s).changed = false → propagate g s.labels = s.labels) := by
  have hall : ∀ v, v ∈ order := fun v => horder.mem_iff.mpr (List.mem_finRange v)
  rw [round, foldl_vertexStep hdeg]
  refine ⟨funext fun v => by simp [hall v], fun hsame => funext fun v => ?_⟩
  by_contra hne
  have hchanged : order.any (fun v => decide (propagate g s.labels v ≠ s.labels v)) = true :=
    List.any_eq_true.mpr ⟨v, hall v, decide_eq_true hne⟩
  simp only [hchanged, Bool.or_true] at hsame
  exact Bool.noConfusion hsame

/-- The loop stops early only at labels that the reference step leaves alone. -/
theorem roundLoop_eq (hdeg : g.DegreeZero) {order : Nat → List (Fin max_vid)}
    (horder : ∀ i, (order i).Perm (List.finRange max_vid)) (rounds iter : Nat) {s : State max_vid}
    (hs : s.changed = false → propagate g s.labels = s.labels) :
    (roundLoop g order rounds iter s).labels = (propagate g)^[rounds] s.labels := by
  induction rounds generalizing iter s with
  | zero => rfl
  | succ rounds ih =>
    rw [roundLoop]
    cases hchanged : s.changed with
    | true =>
      obtain ⟨hlabels, hfixed⟩ := round_eq hdeg (horder iter) s
      rw [if_pos rfl, ih, hlabels, iterate_succ_apply]
      rw [hlabels]
      intro hsame
      rw [hfixed hsame, hfixed hsame]
    | false => exact (iterate_fixed (hs hchanged) _).symm

/-- `compute_cdlp` is synchronous label propagation for `max_iterations` rounds. -/
theorem computeCdlp_eq (hdeg : g.DegreeZero) {order : Nat → List (Fin max_vid)}
    (horder : ∀ i, (order i).Perm (List.finRange max_vid)) (max_iterations : Nat)
    (externalId : Fin max_vid → Nat) :
    computeCdlp g order max_iterations externalId = (propagate g)^[max_iterations] externalId :=
  roundLoop_eq hdeg horder max_iterations 0 nofun

theorem computeCdlp_eq_path :
    let g : Adjacency 3 := ⟨fun v => if v = 1 then [0, 2] else [1], fun v => if v = 1 then 2 else 1⟩
    computeCdlp g (fun _ => List.finRange 3) 10 (fun v => 7 - v) =
      (propagate g)^[10] fun v => 7 - v :=
  computeCdlp_eq (by decide) (fun _ => List.Perm.refl _) 10 _

end CDLP

end AVBGraph
