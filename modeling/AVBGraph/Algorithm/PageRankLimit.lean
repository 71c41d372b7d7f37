import AVBGraph.Framework.AffineIteration
import AVBGraph.Algorithm.PageRank
import Mathlib.Algebra.BigOperators.Fin
import Mathlib.Tactic

namespace AVBGraph.PageRank

open Framework Function

variable {max_vid : Nat} {F : Type*} [Field F]

/-- An undirected snapshot without parallel edges whose degrees are those of the scans. -/
structure Undirected (g : Adjacency max_vid) : Prop where
  symmetric : g.Symmetric
  nodup : ∀ v, (g.edges v).Nodup
  degree_eq : ∀ v, g.degree v = (g.edges v).length

/-- What a vertex receives: a share of each neighbour's score, and a share of the scores of all
vertices without edges. -/
def received (g : Adjacency max_vid) (x : Fin max_vid → F) (v : Fin max_vid) : F :=
  ∑ w ∈ (g.edges v).toFinset, x w / g.degree w +
    (∑ w with g.degree w = 0, x w) / max_vid

/-- The equation of the PageRank scores. -/
def IsRank (g : Adjacency max_vid) (damping_factor : F) (p : Fin max_vid → F) : Prop :=
  ∀ v, p v = (1 - damping_factor) / max_vid + damping_factor * received g p v

/-! ### The loops as sums -/

theorem foldl_add {α : Type*} (f : α → F) (a : F) (l : List α) :
    l.foldl (fun sum w => sum + f w) a = a + (l.map f).sum := by
  induction l generalizing a with
  | nil => simp
  | cons w l ih => simp [ih, add_assoc]

theorem foldl_add_if {α : Type*} (p : α → Prop) [DecidablePred p] (f : α → F) (a : F) (l : List α) :
    l.foldl (fun sum w => if p w then sum + f w else sum) a =
      a + (l.map fun w => if p w then f w else 0).sum := by
  rw [← foldl_add]
  congr 1
  funext sum w
  split <;> simp

variable {g : Adjacency max_vid} {d : F}

theorem Undirected.degree_ne_zero (h : Undirected g) {v w : Fin max_vid} (hw : w ∈ g.edges v) :
    g.degree w ≠ 0 := by
  rw [h.degree_eq]
  have := List.length_pos_of_mem (h.symmetric v w hw)
  omega

/-- One iteration, whatever the contributions of an earlier one have left. -/
theorem iteration_scores (h : Undirected g) (s : State max_vid F) (v : Fin max_vid) :
    (iteration g max_vid d s).scores v = (1 - d) / max_vid + d * received g s.scores v := by
  have hdangling : (List.finRange max_vid).foldl
      (fun sum v => if g.degree v = 0 then sum + s.scores v else sum) 0 =
      ∑ w with g.degree w = 0, s.scores w := by
    rw [foldl_add_if, zero_add, ← Fin.sum_univ_def, Finset.sum_filter]
  have hincoming : (if g.degree v = 0 then 0 else (g.edges v).foldl (fun sum w => sum +
      if g.degree w = 0 then s.contrib w else s.scores w / (g.degree w : F)) 0) =
      ∑ w ∈ (g.edges v).toFinset, s.scores w / g.degree w := by
    rw [List.sum_toFinset _ (h.nodup v), foldl_add, zero_add]
    have hmap : (g.edges v).map (fun w => if g.degree w = 0 then s.contrib w
        else s.scores w / (g.degree w : F)) = (g.edges v).map fun w => s.scores w / g.degree w :=
      List.map_congr_left fun w hw => if_neg (h.degree_ne_zero hw)
    rw [hmap]
    split
    · rename_i hzero
      rw [h.degree_eq, List.length_eq_zero_iff] at hzero
      simp [hzero]
    · rfl
  simp only [iteration, hdangling, hincoming, received]

/-- The part of an iteration that depends on the scores. -/
def spread (g : Adjacency max_vid) (d : F) : (Fin max_vid → F) →ₗ[F] Fin max_vid → F where
  toFun x v := d * received g x v
  map_add' x y := by
    funext v
    simp only [received, Pi.add_apply, add_div, Finset.sum_add_distrib]
    ring
  map_smul' c x := by
    funext v
    simp only [received, Pi.smul_apply, smul_eq_mul, RingHom.id_apply, mul_div_assoc,
      ← Finset.mul_sum]
    ring

theorem spread_apply (g : Adjacency max_vid) (d : F) (x : Fin max_vid → F) (v : Fin max_vid) :
    spread g d x v = d * received g x v := rfl

/-- The scores of the next iteration. -/
def next (g : Adjacency max_vid) (d : F) (x : Fin max_vid → F) : Fin max_vid → F :=
  (iteration g max_vid d ⟨x, fun _ => 0⟩).scores

theorem next_apply (h : Undirected g) (x : Fin max_vid → F) (v : Fin max_vid) :
    next g d x v = (1 - d) / max_vid + d * received g x v := iteration_scores h _ v

theorem iterate_iteration (h : Undirected g) (s : State max_vid F) (k : Nat) :
    ((iteration g max_vid d)^[k] s).scores = (next g d)^[k] s.scores := by
  induction k with
  | zero => rfl
  | succ k ih =>
    rw [iterate_succ_apply', iterate_succ_apply', ← ih]
    funext v
    rw [iteration_scores h, next_apply h]

theorem isRank_iff (h : Undirected g) {p : Fin max_vid → F} : IsRank g d p ↔ next g d p = p := by
  rw [funext_iff]
  exact forall_congr' fun v => by rw [next_apply h, eq_comm]

/-! ### The scores as a mass -/

variable [LinearOrder F] [IsStrictOrderedRing F]

/-- What all vertices receive is what all vertices have. -/
theorem sum_received (h : Undirected g) (x : Fin max_vid → F) :
    ∑ v, received g x v = ∑ v, x v := by
  have hshares : ∑ v, ∑ w ∈ (g.edges v).toFinset, x w / g.degree w =
      ∑ w, if g.degree w = 0 then 0 else x w := by
    have hswap : ∑ v, ∑ w ∈ (g.edges v).toFinset, x w / (g.degree w : F) =
        ∑ w, ∑ _v ∈ (g.edges w).toFinset, x w / (g.degree w : F) :=
      Finset.sum_comm' fun v w => by
        simp only [Finset.mem_univ, true_and, List.mem_toFinset, and_true]
        exact ⟨h.symmetric v w, h.symmetric w v⟩
    rw [hswap]
    refine Finset.sum_congr rfl fun w _ => ?_
    rw [Finset.sum_const, List.toFinset_card_of_nodup (h.nodup w), ← h.degree_eq, nsmul_eq_mul]
    split
    · rename_i hzero
      simp [hzero]
    · rename_i hne
      exact mul_div_cancel₀ _ (Nat.cast_ne_zero.mpr hne)
  have hdangling : ∑ _v : Fin max_vid, (∑ w with g.degree w = 0, x w) / (max_vid : F) =
      ∑ w, if g.degree w = 0 then x w else 0 := by
    rw [Finset.sum_const, Finset.card_univ, Fintype.card_fin, nsmul_eq_mul, Finset.sum_filter]
    rcases Nat.eq_zero_or_pos max_vid with rfl | hpos
    · simp
    · exact mul_div_cancel₀ _ (Nat.cast_ne_zero.mpr hpos.ne')
  unfold received
  rw [Finset.sum_add_distrib, hshares, hdangling, ← Finset.sum_add_distrib]
  exact Finset.sum_congr rfl fun w _ => by split <;> simp

theorem received_nonneg {x : Fin max_vid → F} (hx : ∀ v, 0 ≤ x v) (v : Fin max_vid) :
    0 ≤ received g x v := by
  unfold received
  have h₁ : 0 ≤ ∑ w ∈ (g.edges v).toFinset, x w / (g.degree w : F) :=
    Finset.sum_nonneg fun w _ => div_nonneg (hx w) (Nat.cast_nonneg _)
  have h₂ : 0 ≤ (∑ w with g.degree w = 0, x w) / (max_vid : F) :=
    div_nonneg (Finset.sum_nonneg fun w _ => hx w) (Nat.cast_nonneg _)
  exact add_nonneg h₁ h₂

theorem abs_received_le (x : Fin max_vid → F) (v : Fin max_vid) :
    |received g x v| ≤ received g (fun w => |x w|) v := by
  unfold received
  refine (abs_add_le _ _).trans (add_le_add ?_ ?_)
  · refine (Finset.abs_sum_le_sum_abs _ _).trans (le_of_eq ?_)
    exact Finset.sum_congr rfl fun w _ => by rw [abs_div, Nat.abs_cast]
  · rw [abs_div, Nat.abs_cast]
    exact div_le_div_of_nonneg_right (Finset.abs_sum_le_sum_abs _ _) (Nat.cast_nonneg _)

theorem contracts_next (h : Undirected g) (hd : 0 ≤ d) : Contracts d (next g d) (spread g d) where
  affine x y := by
    rw [map_sub]
    funext v
    simp only [Pi.sub_apply, next_apply h, spread_apply]
    ring
  bound x := by
    calc total (spread g d x) ≤ ∑ v, d * received g (fun w => |x w|) v := by
          refine Finset.sum_le_sum fun v _ => ?_
          simp only [spread_apply, abs_mul, abs_of_nonneg hd]
          exact mul_le_mul_of_nonneg_left (abs_received_le x v) hd
      _ = d * total x := by rw [← Finset.mul_sum, sum_received h]; rfl

/-- A number that is divided among all vertices. -/
theorem sum_div (hpos : 0 < max_vid) (c : F) : ∑ _v : Fin max_vid, c / (max_vid : F) = c := by
  rw [Finset.sum_const, Finset.card_univ, Fintype.card_fin, nsmul_eq_mul]
  exact mul_div_cancel₀ _ (Nat.cast_ne_zero.mpr hpos.ne')

/-- A distribution stays one. -/
theorem sum_next (h : Undirected g) (hpos : 0 < max_vid) (x : Fin max_vid → F)
    (hx : ∑ v, x v = 1) : ∑ v, next g d x v = 1 := by
  simp only [next_apply h]
  rw [Finset.sum_add_distrib, sum_div hpos, ← Finset.mul_sum, sum_received h, hx]
  ring

theorem sum_computeScores (h : Undirected g) (hpos : 0 < max_vid) (k : Nat) :
    ∑ v, computeScores g max_vid k d v = 1 := by
  unfold computeScores
  rw [iterate_iteration h]
  induction k with
  | zero => exact sum_div hpos 1
  | succ k ih =>
    rw [iterate_succ_apply']
    exact sum_next h hpos _ ih

theorem base_le_computeScores (h : Undirected g) (hd : 0 ≤ d) (hd' : d ≤ 1) (k : Nat)
    (v : Fin max_vid) : (1 - d) / max_vid ≤ computeScores g max_vid k d v := by
  unfold computeScores
  rw [iterate_iteration h]
  induction k generalizing v with
  | zero =>
    exact div_le_div_of_nonneg_right (by linarith) (Nat.cast_nonneg _)
  | succ k ih =>
    rw [iterate_succ_apply', next_apply h]
    have hbase : 0 ≤ (1 - d) / (max_vid : F) := div_nonneg (by linarith) (Nat.cast_nonneg _)
    have hrest := mul_nonneg hd (received_nonneg (g := g) (fun w => hbase.trans (ih w)) v)
    linarith

theorem total_rank_le (h : Undirected g) (hpos : 0 < max_vid) (hd : 0 ≤ d) (hd' : d < 1)
    {p : Fin max_vid → F} (hp : next g d p = p) : total p ≤ 1 := by
  have hbase : total (next g d 0) = 1 - d := by
    rw [total_of_nonneg fun v => ?_]
    · simp [next_apply h, received, sum_div hpos]
    · rw [next_apply h]
      have := div_nonneg (sub_nonneg.mpr hd'.le) (Nat.cast_nonneg (α := F) max_vid)
      simpa [received] using this
  have hle : total p ≤ (1 - d) + d * total p := by
    calc total p = total (spread g d p + next g d 0) := by
          conv_lhs => rw [← hp, ← sub_add_cancel (next g d p) (next g d 0)]
          rw [(contracts_next h hd).affine, sub_zero]
      _ ≤ total (spread g d p) + total (next g d 0) := by
          have := total_sub_le (spread g d p) (-next g d 0)
          simpa [total] using this
      _ ≤ (1 - d) + d * total p := by
          have := (contracts_next h hd).bound p
          linarith
  nlinarith

/-- The PageRank equation has one solution, and the iterations approach it. -/
theorem exists_isRank (h : Undirected g) (hpos : 0 < max_vid) (hd : 0 ≤ d) (hd' : d < 1) :
    ∃ p, IsRank g d p ∧ (∀ q, IsRank g d q → q = p) ∧
      ∀ k, ∑ v, |computeScores g max_vid k d v - p v| ≤ 2 * d ^ k := by
  obtain ⟨p, hp, hunique⟩ := (contracts_next h hd).existsUnique_fixed hd'
  refine ⟨p, (isRank_iff h).mpr hp, fun q hq => hunique q ((isRank_iff h).mp hq), fun k => ?_⟩
  have hstart : total ((fun _ => 1 / (max_vid : F)) - p) ≤ 2 := by
    have hone : total (fun _ : Fin max_vid => 1 / (max_vid : F)) = 1 := by
      rw [total_of_nonneg fun _ => div_nonneg zero_le_one (Nat.cast_nonneg _), sum_div hpos]
    have hp1 := total_rank_le h hpos hd hd' hp
    have := total_sub_le (fun _ => 1 / (max_vid : F)) p
    linarith
  have hclose := (contracts_next h hd).iterate_sub_fixed_le hd hp k fun _ => 1 / (max_vid : F)
  unfold computeScores
  rw [iterate_iteration h]
  calc ∑ v, |(next g d)^[k] (fun _ => 1 / (max_vid : F)) v - p v| ≤
        d ^ k * total ((fun _ => 1 / (max_vid : F)) - p) := hclose
    _ ≤ d ^ k * 2 := mul_le_mul_of_nonneg_left hstart (pow_nonneg hd k)
    _ = 2 * d ^ k := mul_comm _ _

/-- compute_pagerank in exact arithmetic: the scores always sum to one and none is below its base,
the PageRank equation has one solution, and `k` iterations come as close to it as `2 * d ^ k`. -/
theorem computeScores_spec (g : Adjacency max_vid) (h : Undirected g) (hpos : 0 < max_vid) (d : F)
    (hd : 0 ≤ d) (hd' : d < 1) :
    (∀ k, ∑ v, computeScores g max_vid k d v = 1 ∧
      ∀ v, (1 - d) / max_vid ≤ computeScores g max_vid k d v) ∧
    ∃ p, IsRank g d p ∧ (∀ q, IsRank g d q → q = p) ∧
      ∀ k, ∑ v, |computeScores g max_vid k d v - p v| ≤ 2 * d ^ k :=
  ⟨fun k => ⟨sum_computeScores h hpos k, base_le_computeScores h hd hd'.le k⟩,
    exists_isRank h hpos hd hd'⟩

/-- Two vertices with an edge and one without. -/
theorem computeScores_spec_three :
    let g : Adjacency 3 := ⟨![[1], [0], []], ![1, 1, 0]⟩
    (∀ k, ∑ v, computeScores g 3 k (17 / 20 : ℚ) v = 1 ∧
      ∀ v, (1 - 17 / 20) / 3 ≤ computeScores g 3 k (17 / 20 : ℚ) v) ∧
    ∃ p, IsRank g (17 / 20 : ℚ) p ∧ (∀ q, IsRank g (17 / 20) q → q = p) ∧
      ∀ k, ∑ v, |computeScores g 3 k (17 / 20) v - p v| ≤ 2 * (17 / 20) ^ k := by
  intro g
  have h : Undirected g := ⟨by decide, by decide, by decide⟩
  exact computeScores_spec g h (by decide) (17 / 20) (by norm_num) (by norm_num)

end AVBGraph.PageRank
