import AVBGraph.Framework.Relaxation
import AVBGraph.Algorithm.Adjacency
import Mathlib.Order.Bounds.Basic
import Mathlib.Data.Fintype.Order
import Mathlib.Order.CompletePartialOrder

namespace AVBGraph

open Framework Function

/-- Vertices joined by a walk. -/
def Adjacency.Connected {max_vid : Nat} (g : Adjacency max_vid) (u v : Fin max_vid) : Prop :=
  Relation.ReflTransGen (fun u v => v ∈ g.edges u) u v

namespace WCC

variable {max_vid : Nat}

structure State (max_vid : Nat) where
  components : Fin max_vid → Fin max_vid
  changed : Bool

/-- The callback of the forward propagation; `my` was read before the scan. -/
def forwardEdge (my : Fin max_vid) (s : State max_vid) (v : Fin max_vid) : State max_vid :=
  if my < s.components v then ⟨update s.components v my, true⟩ else s

def forwardVertex (g : Adjacency max_vid) (s : State max_vid) (u : Fin max_vid) : State max_vid :=
  if g.degree u = 0 then s else (g.edges u).foldl (forwardEdge (s.components u)) s

/-- The callback of the backward propagation. -/
def backwardEdge (u : Fin max_vid) (s : State max_vid) (v : Fin max_vid) : State max_vid :=
  let a := s.components u
  let b := s.components v
  let m := min a b
  let s := if a ≠ m then ⟨update s.components u m, true⟩ else s
  if b ≠ m then ⟨update s.components v m, true⟩ else s

def backwardVertex (g : Adjacency max_vid) (s : State max_vid) (u : Fin max_vid) : State max_vid :=
  (g.edges u).foldl (backwardEdge u) s

/-- The two sweeps of a round, the vertices in index order. -/
def round (g : Adjacency max_vid) (s : State max_vid) : State max_vid :=
  let s := (List.finRange max_vid).foldl (forwardVertex g) { s with changed := false }
  (List.finRange max_vid).foldl (backwardVertex g) s

/-- The loop with `rounds` rounds left. -/
def roundLoop (g : Adjacency max_vid) : Nat → State max_vid → State max_vid
  | 0, s => s
  | rounds + 1, s => if s.changed then roundLoop g rounds (round g s) else s

/-- The array `components` after the loop, which stops at `iter` 100. -/
def propagated (g : Adjacency max_vid) : Fin max_vid → Fin max_vid :=
  (roundLoop g 100 ⟨id, true⟩).components

/-- The flattening loop of one vertex; `none` when the fuel runs out. -/
def flattenFrom (components : Fin max_vid → Fin max_vid) : Nat → Fin max_vid → Option (Fin max_vid)
  | 0, _ => none
  | fuel + 1, cur =>
    if components cur ≠ cur then flattenFrom components fuel (components cur) else some cur

/-- The result of `compute_wcc` for a vertex. -/
def computeWcc (g : Adjacency max_vid) (fuel : Nat) (v : Fin max_vid) : Option (Fin max_vid) :=
  flattenFrom (propagated g) fuel v

/-! ### A round as a sequence of relaxations -/

/-- The relaxations of one round in their order; the backward callback relaxes both ways. -/
def relaxations (g : Adjacency max_vid) : List (Fin max_vid × Fin max_vid) :=
  ((List.finRange max_vid).flatMap fun u => (g.edges u).map fun v => (u, v)) ++
    (List.finRange max_vid).flatMap fun u => (g.edges u).flatMap fun v => [(v, u), (u, v)]

/-- The step from `s` to `t` relaxes the edges `es` and flags a change of a label. -/
structure Relaxes (es : List (Fin max_vid × Fin max_vid)) (s t : State max_vid) : Prop where
  components : t.components = es.foldl relax s.components
  changed : t.changed = false → s.changed = false ∧ t.components = s.components

variable {g : Adjacency max_vid} {s t r : State max_vid}
  {es fs : List (Fin max_vid × Fin max_vid)}

theorem Relaxes.refl (s : State max_vid) : Relaxes [] s s := ⟨rfl, fun h => ⟨h, rfl⟩⟩

theorem Relaxes.trans (h : Relaxes es s t) (h' : Relaxes fs t r) : Relaxes (es ++ fs) s r := by
  refine ⟨by rw [h'.components, h.components, List.foldl_append], fun hr => ?_⟩
  obtain ⟨ht, heq⟩ := h'.changed hr
  obtain ⟨hs, heq'⟩ := h.changed ht
  exact ⟨hs, heq.trans heq'⟩

theorem Relaxes.foldl {α : Type*} {f : State max_vid → α → State max_vid}
    {edges : α → List (Fin max_vid × Fin max_vid)} (h : ∀ s x, Relaxes (edges x) s (f s x))
    (l : List α) (s : State max_vid) : Relaxes (l.flatMap edges) s (l.foldl f s) := by
  induction l generalizing s with
  | nil => exact .refl s
  | cons x l ih => exact (h s x).trans (ih _)

/-- A write of `m` where it is smaller is a relaxation from a vertex with label `m`. -/
theorem relaxes_write (u v : Fin max_vid) (s : State max_vid) :
    Relaxes [(u, v)] s
      (if s.components u < s.components v then ⟨update s.components v (s.components u), true⟩
        else s) := by
  have hrelax : [(u, v)].foldl relax s.components =
      update s.components v (min (s.components v) (s.components u)) := rfl
  split
  · exact ⟨by rw [hrelax, min_eq_right ‹_ < _›.le], nofun⟩
  · refine ⟨?_, fun hs => ⟨hs, rfl⟩⟩
    rw [hrelax, min_eq_left (not_lt.mp ‹_›), update_eq_self]

theorem relaxes_forwardVertex (hdeg : g.DegreeZero) (s : State max_vid) (u : Fin max_vid) :
    Relaxes ((g.edges u).map fun v => (u, v)) s (forwardVertex g s u) := by
  have hscan (l : List (Fin max_vid)) (s t : State max_vid)
      (hmy : t.components u = s.components u) :
      Relaxes (l.map fun v => (u, v)) t (l.foldl (forwardEdge (s.components u)) t) := by
    induction l generalizing t with
    | nil => exact .refl t
    | cons v l ih =>
      have hstep : Relaxes [(u, v)] t (forwardEdge (s.components u) t v) := by
        rw [forwardEdge, ← hmy]
        exact relaxes_write u v t
      refine hstep.trans (ih _ ?_)
      -- the label that was read before the scan is still the one of `u`
      rw [hstep.components, ← hmy, List.foldl_cons, List.foldl_nil, relax_apply]
      split
      · exact min_self _
      · rfl
  unfold forwardVertex
  split
  · have hnil : g.edges u = [] := (hdeg u).mp ‹_›
    rw [hnil]
    exact .refl s
  · exact hscan _ s s rfl

/-- The backward callback writes at the end with the larger label; the other relaxation finds
nothing to do. -/
theorem relaxes_backwardEdge (u : Fin max_vid) (s : State max_vid) (v : Fin max_vid) :
    Relaxes [(v, u), (u, v)] s (backwardEdge u s v) := by
  rcases le_or_gt (s.components u) (s.components v) with hle | hlt
  · have hfirst : Relaxes [(v, u)] s s := by simpa [not_lt.mpr hle] using relaxes_write v u s
    have hstep : backwardEdge u s v =
        if s.components u < s.components v then ⟨update s.components v (s.components u), true⟩
        else s := by
      rcases hle.lt_or_eq with hlt | heq
      · simp [backwardEdge, min_eq_left hle, hlt, hlt.ne']
      · simp [backwardEdge, heq]
    rw [hstep]
    exact hfirst.trans (relaxes_write u v s)
  · have hstep : backwardEdge u s v = ⟨update s.components u (s.components v), true⟩ := by
      simp [backwardEdge, min_eq_right hlt.le, hlt.ne']
    have hfirst : Relaxes [(v, u)] s ⟨update s.components u (s.components v), true⟩ := by
      simpa [hlt] using relaxes_write v u s
    have hne : v ≠ u := fun heq => hlt.ne (heq ▸ rfl)
    rw [hstep]
    refine hfirst.trans ?_
    simpa [hne] using relaxes_write u v ⟨update s.components u (s.components v), true⟩

theorem relaxes_round (hdeg : g.DegreeZero) (s : State max_vid) :
    Relaxes (relaxations g) { s with changed := false } (round g s) :=
  (Relaxes.foldl (relaxes_forwardVertex hdeg) _ _).trans
    (Relaxes.foldl (fun s u => Relaxes.foldl (relaxes_backwardEdge u) (g.edges u) s) _ _)

theorem roundLoop_eq (hdeg : g.DegreeZero) (rounds : Nat) {s : State max_vid}
    (hs : s.changed = false → (relaxations g).foldl relax s.components = s.components) :
    (roundLoop g rounds s).components =
      (List.replicate rounds (relaxations g)).flatten.foldl relax s.components := by
  induction rounds generalizing s with
  | zero => rfl
  | succ rounds ih =>
    rw [roundLoop, List.replicate_succ, List.flatten_cons, List.foldl_append]
    cases hchanged : s.changed with
    | true =>
      obtain ⟨hcomp, hsame⟩ := relaxes_round hdeg s
      have hfixed (hround : (round g s).changed = false) :
          (relaxations g).foldl relax s.components = s.components :=
        hcomp ▸ (hsame hround).2
      rw [if_pos rfl, ih, hcomp]
      intro hround
      rw [hcomp, hfixed hround, hfixed hround]
    | false =>
      rw [hs hchanged, foldl_relax_replicate (hs hchanged)]
      rfl

theorem Connected.symm (hsymm : g.Symmetric) {u v : Fin max_vid} (h : g.Connected u v) :
    g.Connected v u := by
  induction h with
  | refl => exact .refl
  | tail _ hvw ih => exact .head (hsymm _ _ hvw) ih

/-- Labels never exceed their vertex, so the pointers end in a vertex that points to itself. -/
theorem flattenFrom_spec {c : Fin max_vid → Fin max_vid} (hle : ∀ v, c v ≤ v) (v : Fin max_vid) :
    ∃ r, (∀ fuel, v.val < fuel → flattenFrom c fuel v = some r) ∧ c r = r ∧
      Relation.ReflTransGen (fun u w => c u = w) v r := by
  induction hv : v.val using Nat.strongRecOn generalizing v with
  | ind n ih =>
    by_cases hfixed : c v = v
    · refine ⟨v, fun fuel hfuel => ?_, hfixed, .refl⟩
      obtain ⟨fuel, rfl⟩ := Nat.exists_eq_add_of_lt hfuel
      simp [flattenFrom, hfixed]
    · have hlt : (c v).val < n := hv ▸ lt_of_le_of_ne (hle v) (Fin.val_ne_of_ne hfixed)
      obtain ⟨r, hr, hfix, hwalk⟩ := ih (c v).val hlt (c v) rfl
      refine ⟨r, fun fuel hfuel => ?_, hfix, .head rfl hwalk⟩
      cases fuel with
      | zero => exact absurd hfuel (Nat.not_lt_zero _)
      | succ fuel =>
        rw [flattenFrom, if_pos hfixed]
        exact hr fuel (by omega)

/-- The pointers lead down for every snapshot: a callback only lowers a label. -/
theorem foldl_lowers {α : Type*} {f : State max_vid → α → State max_vid}
    (h : ∀ s x v, (f s x).components v ≤ s.components v) (l : List α) (s : State max_vid)
    (v : Fin max_vid) : (l.foldl f s).components v ≤ s.components v := by
  induction l generalizing s with
  | nil => exact le_refl _
  | cons x l ih => exact (ih _).trans (h s x v)

theorem round_lowers (s : State max_vid) (v : Fin max_vid) :
    (round g s).components v ≤ s.components v := by
  refine (foldl_lowers (fun s u v => ?_) _ _ v).trans
    (foldl_lowers (f := forwardVertex g) (fun s u v => ?_) _ { s with changed := false } v)
  · refine foldl_lowers (fun s w v => ?_) (g.edges u) s v
    obtain ⟨hcomp, -⟩ := relaxes_backwardEdge u s w
    rw [hcomp]
    exact foldl_relax_le _ _ v
  · unfold forwardVertex
    split
    · exact le_refl _
    · refine foldl_lowers (fun t w v => ?_) (g.edges u) s v
      unfold forwardEdge
      split
      · rename_i hlt
        by_cases hv : v = w
        · subst hv
          simpa using hlt.le
        · simp [hv]
      · exact le_refl _

theorem propagated_le (g : Adjacency max_vid) (v : Fin max_vid) : propagated g v ≤ v := by
  have h (rounds : Nat) (s : State max_vid) :
      (roundLoop g rounds s).components v ≤ s.components v := by
    induction rounds generalizing s with
    | zero => exact le_refl _
    | succ rounds ih =>
      rw [roundLoop]
      split
      · exact (ih _).trans (round_lowers s v)
      · exact le_refl _
  exact h 100 ⟨id, true⟩

theorem computeWcc_isSome (g : Adjacency max_vid) {fuel : Nat} (hfuel : max_vid ≤ fuel)
    (v : Fin max_vid) : ∃ r, computeWcc g fuel v = some r :=
  let ⟨r, hr, _⟩ := flattenFrom_spec (propagated_le g) v
  ⟨r, hr fuel (v.isLt.trans_le hfuel)⟩

/-- The path 0, 202, 201, ..., 2, 1. -/
def longPath : Adjacency 203 where
  edges u :=
    if h₀ : u.val = 0 then [⟨202, by omega⟩]
    else if h₁ : u.val = 1 then [⟨2, by omega⟩]
    else if h₂ : u.val = 202 then [⟨0, by omega⟩, ⟨201, by omega⟩]
    else [⟨u.val - 1, by omega⟩, ⟨u.val + 1, by omega⟩]
  degree u := if u.val ≤ 1 then 1 else 2

/-- The vertices that label 0 may have reached: down the path to `b`, and to `b - 1` only in a sweep
that has scanned the vertices below `k`, `b - 1` among them. -/
def InFront (b k v : Nat) : Prop := v = 0 ∨ b ≤ v ∨ v + 1 = b ∧ b ≤ k

def Front (b k : Nat) (c : Fin 203 → Fin 203) : Prop := ∀ v, c v = ⊥ → InFront b k v

theorem Front.push {b k : Nat} {c : Fin 203 → Fin 203} (h : Front b k c) {x y : Fin 203}
    (hxy : InFront b k x → InFront b k y) : Front b k (relax c (x, y)) := by
  intro v hv
  rcases relax_eq_bot hv with hv | ⟨rfl, hx⟩
  · exact h v hv
  · exact hxy (h x hx)

theorem Front.succ {b k : Nat} {c : Fin 203 → Fin 203} (h : Front b k c) : Front b (k + 1) c := by
  intro v hv
  have := h v hv
  simp only [InFront] at this ⊢
  omega

/-- A forward scan moves the front from `b` to `b - 1` when it comes to `b`. -/
theorem Front.forward {b : Nat} (hb : 3 ≤ b) (hb' : b ≤ 202) (u : Fin 203) (c : Fin 203 → Fin 203)
    (h : Front b u c) :
    Front b (u + 1) (((longPath.edges u).map fun v => (u, v)).foldl relax c) := by
  refine Front.succ ?_
  dsimp only [longPath]
  split_ifs with h₀ h₁ h₂
  · exact h.push fun _ => by simp only [InFront]; omega
  · exact h.push fun _ => by simp only [InFront] at *; omega
  · refine (h.push fun _ => ?_).push fun _ => ?_
    · simp only [InFront, true_or]
    · simp only [InFront] at *
      omega
  · refine (h.push fun _ => ?_).push fun _ => ?_ <;> simp only [InFront] at * <;> omega

/-- A backward scan moves it when it comes to `b - 1`: the neighbour above is scanned last. -/
theorem Front.backward {b : Nat} (hb : 3 ≤ b) (hb' : b ≤ 202) (u : Fin 203)
    (c : Fin 203 → Fin 203) (h : Front b u c) :
    Front b (u + 1) (((longPath.edges u).flatMap fun v => [(v, u), (u, v)]).foldl relax c) := by
  dsimp only [longPath]
  split_ifs with h₀ h₁ h₂
  · refine Front.succ ((h.push fun _ => ?_).push fun _ => ?_) <;>
      simp only [InFront] at * <;> omega
  · refine Front.succ ((h.push fun _ => ?_).push fun _ => ?_) <;>
      simp only [InFront] at * <;> omega
  · refine Front.succ ((((h.push fun _ => ?_).push fun _ => ?_).push fun _ => ?_).push
      fun _ => ?_) <;> simp only [InFront, true_or] at * <;> omega
  · have hlow := (h.push (x := ⟨u.val - 1, by omega⟩) (y := u) fun _ => by
      simp only [InFront] at *; omega).push (x := u) (y := ⟨u.val - 1, by omega⟩) fun _ => by
        simp only [InFront] at *; omega
    exact (hlow.succ.push (x := ⟨u.val + 1, by omega⟩) (y := u) fun _ => by
      simp only [InFront] at *; omega).push (x := u) (y := ⟨u.val + 1, by omega⟩) fun _ => by
        simp only [InFront] at *; omega

theorem Front.round {b : Nat} (hb : 4 ≤ b) (hb' : b ≤ 202) {c : Fin 203 → Fin 203}
    (h : Front b 0 c) : Front (b - 2) 0 ((relaxations longPath).foldl relax c) := by
  have hend {b : Nat} {c : Fin 203 → Fin 203} (h : Front b 203 c) : Front (b - 1) 0 c := by
    intro v hv
    have := h v hv
    simp only [InFront] at this ⊢
    omega
  rw [relaxations, List.foldl_append, List.foldl_flatMap, List.foldl_flatMap]
  have hforward := hend (foldl_finRange_induction (P := Front b) (Front.forward (by omega) hb') h)
  exact hend (foldl_finRange_induction (P := Front (b - 1))
    (Front.backward (by omega) (by omega)) hforward)

end WCC

end AVBGraph
