import Mathlib.Algebra.Group.Submonoid.Pointwise
import Mathlib.Algebra.Order.Monoid.WithTop
import Mathlib.Data.DFinsupp.WellFounded
import Mathlib.Order.Bounds.Basic

namespace AVBGraph.Framework

variable {α K : Type*} [AddCommMonoid K]

/-- A walk from `s` to a vertex and its length; an edge is its end and its weight. -/
inductive WalkTo (edges : α → List (α × K)) (s : α) : α → K → Prop
  | nil : WalkTo edges s s 0
  | snoc {u v : α} {x w : K} : WalkTo edges s u x → (v, w) ∈ edges u → WalkTo edges s v (x + w)

/-- The labels are lengths of walks. -/
def Sound (edges : α → List (α × K)) (s : α) (d : α → WithTop K) : Prop :=
  ∀ v x, d v = WithTop.some x → WalkTo edges s v x

/-- All lengths of walks are sums of weights. -/
def sums (edges : α → List (α × K)) : AddSubmonoid K :=
  AddSubmonoid.closure {w | ∃ u v, (v, w) ∈ edges u}

variable {edges : α → List (α × K)} {s u v : α} {d d' : α → WithTop K}

theorem WalkTo.mem_sums {x : K} (h : WalkTo edges s v x) : x ∈ sums edges := by
  induction h with
  | nil => exact zero_mem _
  | snoc hwalk hedge ih => exact add_mem ih (AddSubmonoid.subset_closure ⟨_, _, hedge⟩)

section Order

variable [LinearOrder K]

/-- The label of `v` is the length of a shortest walk, `⊤` when there is none. -/
def IsDistance (edges : α → List (α × K)) (s v : α) : WithTop K → Prop
  | ⊤ => ∀ x, ¬ WalkTo edges s v x
  | WithTop.some x => IsLeast {y | WalkTo edges s v y} x

/-- No edge of `u` improves the label of its end. -/
def Settled (edges : α → List (α × K)) (d : α → WithTop K) (u : α) : Prop :=
  ∀ e ∈ edges u, d e.1 ≤ d u + e.2

theorem settled_of_top (h : d u = ⊤) : Settled edges d u := by
  intro e _
  rw [h, WithTop.top_add]
  exact le_top

/-- Better labels elsewhere keep a vertex settled. -/
theorem Settled.mono (h : Settled edges d u) (hle : ∀ v, d' v ≤ d v) (hu : d' u = d u) :
    Settled edges d' u := by
  intro e he
  rw [hu]
  exact (hle e.1).trans (h e he)

variable [IsOrderedCancelAddMonoid K]

theorem WalkTo.nonneg (hw : ∀ u, ∀ e ∈ edges u, 0 ≤ e.2) {x : K} (h : WalkTo edges s v x) :
    0 ≤ x := by
  induction h with
  | nil => exact le_refl _
  | snoc _ hedge ih => exact add_nonneg ih (hw _ _ hedge)

/-- Labels that are lengths of walks are not negative. -/
theorem Sound.nonneg (hw : ∀ u, ∀ e ∈ edges u, 0 ≤ e.2) (h : Sound edges s d) (v : α) :
    0 ≤ d v := by
  cases hv : d v with
  | top => exact le_top
  | coe x => exact WithTop.coe_nonneg.mpr ((h v x hv).nonneg hw)

/-- Labels without an improvable edge are lower bounds for all walks. -/
theorem le_of_settled (hs : d s ≤ 0) (hset : ∀ u, Settled edges d u) {x : K}
    (h : WalkTo edges s v x) : d v ≤ x := by
  induction h with
  | nil => exact hs
  | snoc hwalk hedge ih =>
    refine (hset _ _ hedge).trans ?_
    rw [WithTop.coe_add]
    gcongr

theorem isDistance_of_settled (hs : d s ≤ 0) (hset : ∀ u, Settled edges d u)
    (hsound : Sound edges s d) (v : α) : IsDistance edges s v (d v) := by
  have hle {x : K} (hx : WalkTo edges s v x) : d v ≤ x := le_of_settled hs hset hx
  cases hv : d v with
  | top =>
    intro x hx
    have htop : (⊤ : WithTop K) ≤ x := hv ▸ hle hx
    exact WithTop.coe_ne_top (top_le_iff.mp htop)
  | coe y =>
    refine ⟨hsound v y hv, fun x hx => ?_⟩
    exact WithTop.coe_le_coe.mp (hv ▸ hle hx)

/-! ### Improving labels comes to an end -/

variable [Finite α]

theorem isPWO_sums (hw : ∀ u, ∀ e ∈ edges u, 0 ≤ e.2) : (sums edges : Set K).IsPWO := by
  refine Set.IsPWO.addSubmonoid_closure (fun w ⟨u, v, hedge⟩ => hw u _ hedge) ?_
  have hfin : (⋃ u, {w | ∃ v, (v, w) ∈ edges u}).Finite := by
    refine Set.finite_iUnion fun u => ?_
    refine (((edges u).map Prod.snd).finite_toSet).subset ?_
    rintro w ⟨v, hedge⟩
    exact List.mem_map_of_mem (f := Prod.snd) hedge
  refine (hfin.subset ?_).isPWO
  rintro w ⟨u, v, hedge⟩
  exact Set.mem_iUnion.mpr ⟨u, v, hedge⟩

/-- With non-negative weights no sequence of sound labels improves forever. -/
theorem wellFoundedOn_sound (hw : ∀ u, ∀ e ∈ edges u, 0 ≤ e.2) (s : α) :
    Set.WellFoundedOn {d | Sound edges s d} (· < ·) := by
  have : WellFoundedLT (sums edges) := ⟨(isPWO_sums hw).isWF⟩
  -- the same labels with values among the sums of weights
  have hlift (d : {d // Sound edges s d}) :
      ∃ l : α → WithTop (sums edges), ∀ v, (l v).map Subtype.val = d.1 v := by
    have hv (v : α) : ∃ y : WithTop (sums edges), y.map Subtype.val = d.1 v := by
      cases h : d.1 v with
      | top => exact ⟨⊤, rfl⟩
      | coe x => exact ⟨WithTop.some ⟨x, (d.2 v x h).mem_sums⟩, rfl⟩
    choose l hl using hv
    exact ⟨l, hl⟩
  choose l hl using hlift
  refine Subrelation.wf (r := InvImage (· < ·) l) ?_ (InvImage.wf l wellFounded_lt)
  have hle (d d' : {d // Sound edges s d}) (v : α) : l d v ≤ l d' v ↔ d.1 v ≤ d'.1 v := by
    rw [← hl d v, ← hl d' v]
    exact (WithTop.map_le_iff _ Subtype.coe_le_coe).symm
  intro d d' hlt
  obtain ⟨hall, v, hv⟩ := Pi.lt_def.mp (show d.1 < d'.1 from hlt)
  refine Pi.lt_def.mpr ⟨fun v => (hle d d' v).mpr (hall v), v, lt_of_not_ge fun hge => ?_⟩
  exact hv.not_ge ((hle d' d v).mp hge)

end Order

end AVBGraph.Framework
