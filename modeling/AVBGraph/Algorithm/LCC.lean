import AVBGraph.Framework.Triangles
import AVBGraph.Algorithm.Adjacency
import Mathlib.Data.List.Sort
import Mathlib.Data.Prod.Lex
import Mathlib.Data.Fintype.Fin

namespace AVBGraph

open Framework Function

namespace LCC

variable {max_vid : Nat}

/-- Phase 1: the sorted neighbour list of a vertex. -/
def allNeighbors (g : Adjacency max_vid) (v : Fin max_vid) : List (Fin max_vid) :=
  (g.edges v).insertionSort (· ≤ ·)

/-- The orientation of an edge from `u` to `v`: to the higher degree, on ties to the higher id. -/
def Forward (g : Adjacency max_vid) (u v : Fin max_vid) : Prop :=
  (allNeighbors g u).length < (allNeighbors g v).length ∨
    (allNeighbors g u).length = (allNeighbors g v).length ∧ u < v

instance (g : Adjacency max_vid) : DecidableRel (Forward g) :=
  fun _ _ => inferInstanceAs (Decidable (_ ∨ _))

def forward (g : Adjacency max_vid) (u : Fin max_vid) : List (Fin max_vid) :=
  (allNeighbors g u).filter (Forward g u ·)

/-- The vertices at which phase 2 finds a common forward neighbour: `u`, `v` and the neighbour. -/
def found (g : Adjacency max_vid) : List (Fin max_vid × Fin max_vid × Fin max_vid) :=
  (List.finRange max_vid).flatMap fun u =>
    (forward g u).flatMap fun v => (intersect (forward g u) (forward g v)).map fun w => (u, v, w)

/-- The vertices whose counter is increased by 2, once for each `fetch_add` of phase 2. -/
def additions (g : Adjacency max_vid) : List (Fin max_vid) :=
  (found g).flatMap fun t => [t.1, t.2.1, t.2.2]

/-- The counters after the `fetch_add`s, in the order in which they take place. -/
def triangles (adds : List (Fin max_vid)) : Fin max_vid → Nat :=
  adds.foldl (fun t v => update t v (t v + 2)) fun _ => 0

theorem triangles_eq (adds : List (Fin max_vid)) (v : Fin max_vid) :
    triangles adds v = 2 * adds.count v := by
  have h (t : Fin max_vid → Nat) :
      adds.foldl (fun t v => update t v (t v + 2)) t v = t v + 2 * adds.count v := by
    induction adds generalizing t with
    | nil => rfl
    | cons w adds ih =>
      rw [List.foldl_cons, ih]
      by_cases hw : w = v
      · subst hw
        simp only [update_self, List.count_cons_self]
        omega
      · rw [update_of_ne (Ne.symm hw), List.count_cons_of_ne hw]
  simpa [triangles] using h fun _ => 0

variable {g : Adjacency max_vid}

/-- The orientation compares degree and id lexicographically, so it is a total order. -/
theorem forward_iff_lex (u v : Fin max_vid) : Forward g u v ↔
    toLex ((allNeighbors g u).length, u) < toLex ((allNeighbors g v).length, v) := by
  rw [Prod.Lex.toLex_lt_toLex]
  rfl

instance : IsStrictTotalOrder (Fin max_vid) (Forward g) where
  trichotomous u v huv hvu := by
    rw [forward_iff_lex] at huv hvu
    have heq := le_antisymm (not_lt.mp hvu) (not_lt.mp huv)
    exact congrArg (fun p => (ofLex p).2) heq
  irrefl u hu := by
    rw [forward_iff_lex] at hu
    exact lt_irrefl _ hu
  trans u v w huv hvw := by
    rw [forward_iff_lex] at huv hvw ⊢
    exact huv.trans hvw

theorem mem_allNeighbors {u v : Fin max_vid} : v ∈ allNeighbors g u ↔ v ∈ g.edges u :=
  (List.perm_insertionSort _ _).mem_iff

theorem mem_forward {u v : Fin max_vid} : v ∈ forward g u ↔ v ∈ g.edges u ∧ Forward g u v := by
  rw [forward, List.mem_filter, mem_allNeighbors, decide_eq_true_iff]

/-- A forward list is strictly increasing in the id, not in the orientation. -/
theorem pairwise_forward (hsimple : g.Simple) (u : Fin max_vid) :
    (forward g u).Pairwise (· < ·) := by
  have hle : (allNeighbors g u).Pairwise (· ≤ ·) := List.pairwise_insertionSort _ _
  have hne : (allNeighbors g u).Nodup :=
    (List.perm_insertionSort _ _).nodup_iff.mpr (hsimple u).1
  exact (hle.imp₂ (fun _ _ hle hne => lt_of_le_of_ne hle hne) hne).filter _

theorem mem_found (hsimple : g.Simple) {t : Fin max_vid × Fin max_vid × Fin max_vid} :
    t ∈ found g ↔ t ∈ oriented (fun u v => v ∈ g.edges u) (Forward g) := by
  obtain ⟨u, v, w⟩ := t
  rw [mem_oriented]
  simp only [found, List.mem_flatMap, List.mem_finRange, true_and, List.mem_map, Prod.mk.injEq]
  constructor
  · rintro ⟨u, v, hv, w, hw, rfl, rfl, rfl⟩
    rw [intersect_eq_filter (pairwise_forward hsimple u) (pairwise_forward hsimple v),
      List.mem_filter, decide_eq_true_iff] at hw
    exact ⟨mem_forward.mp hv, mem_forward.mp hw.1, mem_forward.mp hw.2⟩
  · rintro ⟨hv, hw, hvw⟩
    refine ⟨u, v, mem_forward.mpr hv, w, ?_, rfl, rfl, rfl⟩
    rw [intersect_eq_filter (pairwise_forward hsimple u) (pairwise_forward hsimple v),
      List.mem_filter, decide_eq_true_iff]
    exact ⟨mem_forward.mpr hw, mem_forward.mpr hvw⟩

theorem nodup_found (hsimple : g.Simple) : (found g).Nodup := by
  have hf := fun u => (pairwise_forward hsimple u).imp (fun {_ _} => ne_of_lt)
  rw [found, List.nodup_flatMap]
  refine ⟨fun u _ => List.nodup_flatMap.mpr ⟨fun v _ => ?_, ?_⟩, ?_⟩
  · rw [intersect_eq_filter (pairwise_forward hsimple u) (pairwise_forward hsimple v)]
    exact List.Nodup.map (fun _ _ heq => by simpa using heq) ((hf u).filter _)
  · refine (hf u).imp fun {v v'} hne t ht ht' => ?_
    obtain ⟨w, -, rfl⟩ := List.mem_map.mp ht
    obtain ⟨w', -, heq⟩ := List.mem_map.mp ht'
    exact hne (by simpa using (congrArg (·.2.1) heq).symm)
  · refine (List.nodup_finRange max_vid).imp fun {u u'} hne t ht ht' => ?_
    obtain ⟨v, -, ht⟩ := List.mem_flatMap.mp ht
    obtain ⟨w, -, rfl⟩ := List.mem_map.mp ht
    obtain ⟨v', -, ht'⟩ := List.mem_flatMap.mp ht'
    obtain ⟨w', -, heq⟩ := List.mem_map.mp ht'
    exact hne (by simpa using (congrArg (·.1) heq).symm)

theorem countP_found (hsimple : g.Simple)
    (p : Fin max_vid × Fin max_vid × Fin max_vid → Prop) [DecidablePred p] :
    (found g).countP p = ((oriented (fun u v => v ∈ g.edges u) (Forward g)).filter p).card := by
  rw [List.countP_eq_length_filter,
    ← List.toFinset_card_of_nodup ((nodup_found hsimple).filter _)]
  congr 1
  ext t
  simp [mem_found hsimple]

theorem count_additions (v : Fin max_vid) : (additions g).count v =
    (found g).countP (·.1 = v) + (found g).countP (·.2.1 = v) + (found g).countP (·.2.2 = v) := by
  rw [additions]
  induction found g with
  | nil => rfl
  | cons t l ih =>
    simp only [List.flatMap_cons, List.count_append, ih, List.countP_cons, List.count_cons,
      List.count_nil, beq_iff_eq, decide_eq_true_eq]
    omega

/-- In every order of the additions the counter of a vertex is the number of ordered pairs of
distinct adjacent neighbours. -/
theorem triangles_exact (hsymm : g.Symmetric) (hsimple : g.Simple) {adds : List (Fin max_vid)}
    (hadds : adds.Perm (additions g)) (v : Fin max_vid) :
    triangles adds v = (adjacentPairs (fun u w => w ∈ g.edges u) v).card ∧
      triangles adds v ≤ (g.edges v).length * ((g.edges v).length - 1) := by
  have hcount : triangles adds v = (adjacentPairs (fun u w => w ∈ g.edges u) v).card := by
    rw [triangles_eq, hadds.count_eq, count_additions, countP_found hsimple, countP_found hsimple,
      countP_found hsimple, card_adjacentPairs (Forward g) (fun u w hw => hsymm u w hw)
        (fun w => (hsimple w).2)]
  refine ⟨hcount, ?_⟩
  have hdeg : (Finset.univ.filter (· ∈ g.edges v)).card = (g.edges v).length := by
    rw [← List.toFinset_card_of_nodup (hsimple v).1]
    congr 1
    ext w
    simp
  rw [hcount, ← hdeg]
  exact card_adjacentPairs_le v

/-- Two triangles that share the edge from 0 to 1, the additions in reverse order. -/
theorem triangles_exact_diamond :
    let g : Adjacency 4 := ⟨![[1, 2, 3], [0, 2, 3], [1, 0], [0, 1]], ![3, 3, 2, 2]⟩
    triangles (additions g).reverse 0 = (adjacentPairs (fun u w => w ∈ g.edges u) 0).card :=
  (triangles_exact (by decide) (by decide) (List.reverse_perm _) 0).1

end LCC

end AVBGraph
