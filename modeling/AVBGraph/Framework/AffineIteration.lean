import Mathlib.LinearAlgebra.FiniteDimensional.Basic
import Mathlib.Algebra.Order.BigOperators.Group.Finset
import Mathlib.Algebra.Order.Field.Basic
import Mathlib.Tactic.Linarith
import Mathlib.Tactic.Ring

namespace AVBGraph.Framework

open Function

variable {ι F : Type*} [Fintype ι] [Field F] [LinearOrder F] [IsStrictOrderedRing F]

/-- The distance of a vector from zero. -/
def total (x : ι → F) : F := ∑ i, |x i|

theorem total_nonneg (x : ι → F) : 0 ≤ total x := Finset.sum_nonneg fun _ _ => abs_nonneg _

theorem eq_zero_of_total_le {x : ι → F} (h : total x ≤ 0) : x = 0 := by
  have hzero := (Finset.sum_eq_zero_iff_of_nonneg fun i _ => abs_nonneg (x i)).mp
    (le_antisymm h (total_nonneg x))
  funext i
  exact abs_eq_zero.mp (hzero i (Finset.mem_univ i))

theorem total_sub_le (x y : ι → F) : total (x - y) ≤ total x + total y := by
  unfold total
  rw [← Finset.sum_add_distrib]
  exact Finset.sum_le_sum fun i _ => abs_sub _ _

theorem total_of_nonneg {x : ι → F} (h : ∀ i, 0 ≤ x i) : total x = ∑ i, x i :=
  Finset.sum_congr rfl fun i _ => abs_of_nonneg (h i)

/-- An affine step whose linear part brings all vectors closer to zero. -/
structure Contracts (d : F) (step : (ι → F) → ι → F) (linear : (ι → F) →ₗ[F] ι → F) : Prop where
  affine : ∀ x y, step x - step y = linear (x - y)
  bound : ∀ x, total (linear x) ≤ d * total x

variable {d : F} {step : (ι → F) → ι → F} {linear : (ι → F) →ₗ[F] ι → F}

theorem Contracts.iterate_le (h : Contracts d step linear) (hd : 0 ≤ d) (k : Nat) (x y : ι → F) :
    total (step^[k] x - step^[k] y) ≤ d ^ k * total (x - y) := by
  induction k with
  | zero => simp
  | succ k ih =>
    rw [iterate_succ_apply', iterate_succ_apply', h.affine]
    calc total (linear (step^[k] x - step^[k] y)) ≤ d * total (step^[k] x - step^[k] y) :=
          h.bound _
      _ ≤ d * (d ^ k * total (x - y)) := mul_le_mul_of_nonneg_left ih hd
      _ = d ^ (k + 1) * total (x - y) := by ring

/-- The linear part leaves no other vector in place, so the equation of the fixed point can be
solved. -/
theorem Contracts.existsUnique_fixed (h : Contracts d step linear) (hd : d < 1) :
    ∃! p, step p = p := by
  have hinj : Injective ((LinearMap.id : (ι → F) →ₗ[F] ι → F) - linear) := by
    refine (injective_iff_map_eq_zero _).mpr fun x hx => ?_
    have hfix : linear x = x := by
      rw [LinearMap.sub_apply, LinearMap.id_apply, sub_eq_zero] at hx
      exact hx.symm
    have hle := h.bound x
    rw [hfix] at hle
    exact eq_zero_of_total_le (by nlinarith [total_nonneg x])
  obtain ⟨p, hp⟩ := LinearMap.injective_iff_surjective.mp hinj (step 0)
  have hfixed : step p = p := by
    have haff := h.affine p 0
    rw [sub_zero] at haff
    rw [LinearMap.sub_apply, LinearMap.id_apply, ← haff] at hp
    simpa using (sub_eq_iff_eq_add.mp hp).symm
  refine ⟨p, hfixed, fun q hq => ?_⟩
  have hlin : linear (q - p) = q - p := by rw [← h.affine, hq, hfixed]
  have hle := h.bound (q - p)
  rw [hlin] at hle
  exact sub_eq_zero.mp (eq_zero_of_total_le (by nlinarith [total_nonneg (q - p)]))

/-- The iterates come closer to a fixed point by the factor in every step. -/
theorem Contracts.iterate_sub_fixed_le (h : Contracts d step linear) (hd : 0 ≤ d) {p : ι → F}
    (hp : step p = p) (k : Nat) (x : ι → F) : total (step^[k] x - p) ≤ d ^ k * total (x - p) := by
  have := h.iterate_le hd k x p
  rwa [iterate_fixed hp] at this

end AVBGraph.Framework
