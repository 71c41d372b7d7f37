import AVBGraph.Framework.Run
import AVBGraph.Framework.Interleaving
import AVBGraph.Algorithm.SlidingQueue
import Mathlib.Tactic

namespace AVBGraph.BFS

open Framework Function

/-- A thread of do_bfs_TDStep: the edges that it still hands to the callback, the `curr_val` of the
first one once it is loaded and negative, what it has pushed and its share of the scout count. -/
structure Scanner where
  todo : List (Nat × Nat)
  currVal : Option Int
  discovered : List Nat
  scoutCount : Int

/-- The threads of a top-down step over the shared distances. -/
structure Scanners (ι : Type*) where
  distances : Nat → Int
  scanner : ι → Scanner

namespace Scanners

variable {ι : Type*}

def init (distances : Nat → Int) (work : ι → List (Nat × Nat)) : Scanners ι :=
  ⟨distances, fun t => ⟨work t, none, [], 0⟩⟩

/-- One access to the distances: the load of `curr_val`, or the compare_and_swap with what the
callback does after it. -/
def step [DecidableEq ι] (distance : Nat) (s : Scanners ι) (t : ι) : Option (Scanners ι) :=
  match s.scanner t with
  | ⟨[], _, _, _⟩ => none
  | ⟨edge :: todo, none, discovered, scoutCount⟩ =>
    let currVal := s.distances edge.2
    some ⟨s.distances, update s.scanner t
      (if currVal < 0 then ⟨edge :: todo, some currVal, discovered, scoutCount⟩
      else ⟨todo, none, discovered, scoutCount⟩)⟩
  | ⟨edge :: todo, some currVal, discovered, scoutCount⟩ =>
    if s.distances edge.2 = currVal then
      some ⟨update s.distances edge.2 distance, update s.scanner t
        ⟨todo, none, discovered ++ [edge.2], scoutCount + -currVal⟩⟩
    else some ⟨s.distances, update s.scanner t ⟨todo, none, discovered, scoutCount⟩⟩

variable [DecidableEq ι] {distance : Nat} {s s' : Scanners ι} {t : ι}

/-- An edge takes effect at its compare_and_swap if this succeeds, and otherwise finds a vertex that
has a distance. -/
inductive Event (distance : Nat) (s : Scanners ι) (t : ι) : Scanners ι → Prop
  | loads {edge : Nat × Nat} {todo : List (Nat × Nat)} {discovered : List Nat} {scoutCount : Int}
      (ht : s.scanner t = ⟨edge :: todo, none, discovered, scoutCount⟩)
      (hneg : s.distances edge.2 < 0) :
      Event distance s t ⟨s.distances, update s.scanner t
        ⟨edge :: todo, some (s.distances edge.2), discovered, scoutCount⟩⟩
  | passes {edge : Nat × Nat} {todo : List (Nat × Nat)} {currVal : Option Int}
      {discovered : List Nat} {scoutCount : Int}
      (ht : s.scanner t = ⟨edge :: todo, currVal, discovered, scoutCount⟩)
      (hfound : ∀ val ∈ currVal, s.distances edge.2 ≠ val)
      (hloaded : currVal = none → 0 ≤ s.distances edge.2) :
      Event distance s t ⟨s.distances, update s.scanner t ⟨todo, none, discovered, scoutCount⟩⟩
  | discovers {edge : Nat × Nat} {todo : List (Nat × Nat)} {discovered : List Nat}
      {scoutCount : Int}
      (ht : s.scanner t = ⟨edge :: todo, some (s.distances edge.2), discovered, scoutCount⟩) :
      Event distance s t ⟨update s.distances edge.2 distance, update s.scanner t
        ⟨todo, none, discovered ++ [edge.2], scoutCount + -s.distances edge.2⟩⟩

theorem event_of_step (h : step distance s t = some s') : Event distance s t s' := by
  unfold step at h
  rcases ht : s.scanner t with ⟨todo, currVal, discovered, scoutCount⟩
  rw [ht] at h
  rcases todo with - | ⟨edge, todo⟩
  · cases currVal <;> cases h
  · cases currVal with
    | none =>
      simp only [Option.some.injEq] at h
      subst h
      split
      · rename_i hneg
        exact .loads ht hneg
      · rename_i hpos
        exact .passes ht (by simp) fun _ => Int.not_lt.mp hpos
    | some currVal =>
      simp only at h
      split at h
      · rename_i hsame
        obtain rfl := Option.some.inj h
        subst hsame
        exact .discovers ht
      · rename_i hne
        obtain rfl := Option.some.inj h
        exact .passes ht (by simpa using hne) (by simp)

/-! ### The order in which the edges take effect -/

/-- The step of one thread over the edges in this order. -/
def inOrder (distance : Nat) (distances : Nat → Int) (order : List (ι × (Nat × Nat))) : TDStep :=
  (order.map Prod.snd).foldl (tdEdge distance) ⟨distances, [], 0⟩

/-- The edges done so far, in the order in which they took effect. -/
structure Ordered [Fintype ι] (distance : Nat) (distances : Nat → Int)
    (work : ι → List (Nat × Nat)) (s : Scanners ι) (order : List (ι × (Nat × Nat))) : Prop where
  same : (inOrder distance distances order).distances = s.distances
  parts : ∀ t, entriesOf order t ++ (s.scanner t).todo = work t
  loaded : ∀ t edge todo currVal discovered scoutCount,
    s.scanner t = ⟨edge :: todo, some currVal, discovered, scoutCount⟩ →
    currVal < 0 ∧ (s.distances edge.2 = currVal ∨ 0 ≤ s.distances edge.2)
  discovered : ((inOrder distance distances order).discovered : Multiset Nat) =
    ∑ t, ((s.scanner t).discovered : Multiset Nat)
  scoutCount : (inOrder distance distances order).scoutCount = ∑ t, (s.scanner t).scoutCount

omit [DecidableEq ι] in
theorem inOrder_append (distance : Nat) (distances : Nat → Int) (order : List (ι × (Nat × Nat)))
    (t : ι) (edge : Nat × Nat) : inOrder distance distances (order ++ [(t, edge)]) =
      tdEdge distance (inOrder distance distances order) edge := by
  simp [inOrder]

theorem entriesOf_concat (order : List (ι × (Nat × Nat))) (t u : ι) (edge : Nat × Nat) :
    entriesOf (order ++ [(t, edge)]) u = entriesOf order u ++ if u = t then [edge] else [] := by
  rw [entriesOf_append]
  exact congrArg _ (entriesOf_batch [edge] t u)

variable [Fintype ι] {distances : Nat → Int} {work : ι → List (Nat × Nat)}
  {order : List (ι × (Nat × Nat))}

theorem ordered_init (distance : Nat) (distances : Nat → Int) (work : ι → List (Nat × Nat)) :
    Ordered distance distances work (init distances work) [] where
  same := rfl
  parts := by simp [init]
  loaded := by simp [init]
  discovered := by simp [inOrder, init]
  scoutCount := by simp [inOrder, init]

/-- A thread that changes neither the distances nor its results. -/
theorem sum_update_of_eq {M : Type*} [AddCommMonoid M] [IsCancelAdd M] {x : Scanner} (g : Scanner → M)
    (hx : g x = g (s.scanner t)) :
    ∑ u, g (update s.scanner t x u) = ∑ u, g (s.scanner u) := by
  have h := sum_update_add s.scanner g t x
  rw [hx] at h
  exact add_right_cancel h

/-- The edge that a thread is done with. -/
theorem Ordered.parts_done (h : Ordered distance distances work s order) {edge : Nat × Nat}
    {x : Scanner} (ht : (s.scanner t).todo = edge :: x.todo) (u : ι) :
    entriesOf (order ++ [(t, edge)]) u ++ (update s.scanner t x u).todo = work u := by
  have hu := h.parts u
  rw [entriesOf_concat]
  by_cases hut : u = t
  · subst u
    simpa [ht] using hu
  · simpa [hut] using hu

omit [Fintype ι] in
theorem of_update_none {todo edges : List (Nat × Nat)} {discovered discovered' : List Nat}
    {scoutCount scoutCount' currVal : Int} {u : ι}
    (h : update s.scanner t ⟨todo, none, discovered, scoutCount⟩ u =
      ⟨edges, some currVal, discovered', scoutCount'⟩) :
    s.scanner u = ⟨edges, some currVal, discovered', scoutCount'⟩ := by
  by_cases hut : u = t
  · subst u
    simp at h
  · rwa [update_of_ne hut] at h

theorem Ordered.event (h : Ordered distance distances work s order)
    (hevent : Event distance s t s') : ∃ order', Ordered distance distances work s' order' := by
  cases hevent with
  | @loads edge todo discovered scoutCount ht hneg =>
    refine ⟨order, h.same, fun u => ?_, ?_, ?_, ?_⟩
    · have hu := h.parts u
      by_cases hut : u = t
      · subst u
        simpa [ht] using hu
      · simpa [hut] using hu
    · intro u edge' todo' currVal' discovered' scoutCount' hu
      simp only at hu ⊢
      by_cases hut : u = t
      · subst u
        simp only [update_self, Scanner.mk.injEq, List.cons.injEq, Option.some.injEq] at hu
        obtain ⟨⟨rfl, rfl⟩, rfl, rfl, rfl⟩ := hu
        exact ⟨hneg, .inl rfl⟩
      · rw [update_of_ne hut] at hu
        exact h.loaded u edge' todo' currVal' discovered' scoutCount' hu
    · rw [h.discovered]
      exact (sum_update_of_eq (fun b => (b.discovered : Multiset Nat)) (by rw [ht])).symm
    · rw [h.scoutCount]
      exact (sum_update_of_eq (fun b => b.scoutCount) (by rw [ht])).symm
  | @passes edge todo currVal discovered scoutCount ht hfound hloaded =>
    have hpos : ¬ (inOrder distance distances order).distances edge.2 < 0 := by
      rw [h.same]
      cases currVal with
      | none => exact Int.not_lt.mpr (hloaded rfl)
      | some val =>
        obtain ⟨-, hsame | hpos⟩ := h.loaded t _ _ _ _ _ ht
        · exact absurd hsame (hfound val rfl)
        · exact Int.not_lt.mpr hpos
    have hskip : tdEdge distance (inOrder distance distances order) edge =
        inOrder distance distances order := by
      unfold tdEdge
      rw [if_neg hpos]
    refine ⟨order ++ [(t, edge)], ?_, fun u => ?_, ?_, ?_, ?_⟩
    · rw [inOrder_append, hskip, h.same]
    · exact h.parts_done (by rw [ht]) u
    · intro u edge' todo' currVal' discovered' scoutCount' hu
      exact h.loaded u edge' todo' currVal' discovered' scoutCount' (of_update_none hu)
    · rw [inOrder_append, hskip, h.discovered]
      exact (sum_update_of_eq (fun b => (b.discovered : Multiset Nat)) (by rw [ht])).symm
    · rw [inOrder_append, hskip, h.scoutCount]
      exact (sum_update_of_eq (fun b => b.scoutCount) (by rw [ht])).symm
  | @discovers edge todo discovered scoutCount ht =>
    have hneg : s.distances edge.2 < 0 := (h.loaded t _ _ _ _ _ ht).1
    have htake : tdEdge distance (inOrder distance distances order) edge =
        ⟨update s.distances edge.2 distance,
          (inOrder distance distances order).discovered ++ [edge.2],
          (inOrder distance distances order).scoutCount + -s.distances edge.2⟩ := by
      unfold tdEdge
      rw [h.same, if_pos hneg]
    refine ⟨order ++ [(t, edge)], ?_, fun u => ?_, ?_, ?_, ?_⟩
    · rw [inOrder_append, htake]
    · exact h.parts_done (by rw [ht]) u
    · intro u edge' todo' currVal' discovered' scoutCount' hu
      obtain ⟨hlt, hval⟩ :=
        h.loaded u edge' todo' currVal' discovered' scoutCount' (of_update_none hu)
      refine ⟨hlt, ?_⟩
      simp only
      by_cases hv : edge'.2 = edge.2
      · rw [hv, update_self]
        exact .inr (Int.natCast_nonneg _)
      · rwa [update_of_ne hv]
    · have hsum := sum_update_add s.scanner (fun b => (b.discovered : Multiset Nat)) t
        ⟨todo, none, discovered ++ [edge.2], scoutCount + -s.distances edge.2⟩
      rw [inOrder_append, htake, ← Multiset.coe_add, h.discovered]
      simp only [ht, ← Multiset.coe_add] at hsum
      rw [add_comm (discovered : Multiset Nat), ← add_assoc] at hsum
      exact (add_right_cancel hsum).symm
    · have hsum := sum_update_add s.scanner (fun b => b.scoutCount) t
        ⟨todo, none, discovered ++ [edge.2], scoutCount + -s.distances edge.2⟩
      rw [inOrder_append, htake, h.scoutCount]
      simp only [ht] at hsum ⊢
      omega

theorem ordered_of_step (h : ∃ order, Ordered distance distances work s order)
    (hstep : step distance s t = some s') : ∃ order, Ordered distance distances work s' order := by
  obtain ⟨order, horder⟩ := h
  exact horder.event (event_of_step hstep)

theorem ordered_of_exec {es : List ι} (hrun : exec (step distance) (init distances work) es = some s) :
    ∃ order, Ordered distance distances work s order :=
  invariant_of_step (fun _ _ _ h _ => ordered_of_step h) ⟨[], ordered_init distance distances work⟩
    (along_true _ _ _) hrun

theorem Ordered.multiset_eq (h : Ordered distance distances work s order)
    (hend : ∀ t, (s.scanner t).todo = []) :
    ((order.map Prod.snd : List (Nat × Nat)) : Multiset (Nat × Nat)) =
      ∑ t, (work t : Multiset (Nat × Nat)) := by
  rw [← sum_entriesOf]
  refine Finset.sum_congr rfl fun t _ => ?_
  rw [← h.parts t, hend t, List.append_nil]

/-- The accesses that a thread still makes, at most. -/
def weight (b : Scanner) : Nat := 2 * b.todo.length - if b.currVal.isSome then 1 else 0

theorem weight_step (hstep : step distance s t = some s') :
    ∑ u, weight (s'.scanner u) < ∑ u, weight (s.scanner u) := by
  have hless (x : Scanner) (hx : weight x < weight (s.scanner t)) :
      ∑ u, weight (update s.scanner t x u) < ∑ u, weight (s.scanner u) := by
    have := sum_update_add s.scanner weight t x
    omega
  cases event_of_step hstep with
  | loads ht hneg =>
    refine hless _ ?_
    simp only [weight, ht, List.length_cons, Option.isSome_some, Option.isSome_none, if_true]
    simp
  | @passes edge todo currVal discovered scoutCount ht hfound hloaded =>
    refine hless _ ?_
    cases currVal with
    | none => simp [weight, ht]
    | some val =>
      simp only [weight, ht, List.length_cons, Option.isSome_some, Option.isSome_none, if_true]
      simp only [Bool.false_eq_true, if_false]
      omega
  | discovers ht =>
    refine hless _ ?_
    simp [weight, ht]
    omega

/-- Every edge takes at most two accesses. -/
theorem exec_bounded {es : List ι} (hrun : exec (step distance) (init distances work) es = some s) :
    es.length ≤ 2 * ∑ t, (work t).length := by
  have hpaid := exec_length_add_le (fun _ _ _ => weight_step) hrun
  have hstart : ∑ t, weight ((init distances work).scanner t) = 2 * ∑ t, (work t).length := by
    simp [weight, init, Finset.mul_sum]
  omega

omit [Fintype ι] in
theorem exists_step (ht : (s.scanner t).todo ≠ []) : ∃ s', step distance s t = some s' := by
  unfold step
  rcases hs : s.scanner t with ⟨_ | ⟨edge, todo⟩, currVal, discovered, scoutCount⟩
  · exact absurd (by rw [hs]) ht
  · cases currVal with
    | none => exact ⟨_, rfl⟩
    | some currVal =>
      simp only
      split_ifs <;> exact ⟨_, rfl⟩

/-- The threads can always come to their ends. -/
theorem exists_end (distance : Nat) (s : Scanners ι) :
    ∃ es s', exec (step distance) s es = some s' ∧ ∀ t, (s'.scanner t).todo = [] := by
  have hstep : ∀ s : Scanners ι, True → ¬(∀ t, (s.scanner t).todo = []) →
      ∃ t s', step distance s t = some s' ∧ True ∧
        ∑ u, weight (s'.scanner u) < ∑ u, weight (s.scanner u) := by
    intro s _ hnot
    obtain ⟨t, ht⟩ := not_forall.mp hnot
    obtain ⟨s', hs'⟩ := exists_step ht
    exact ⟨t, s', hs', trivial, weight_step hs'⟩
  exact exists_exec_end hstep trivial

end Scanners

/-! ### The step of the search -/

/-- A schedule for one step: this order of the edges, and this order of the pushes. -/
def Schedule.ofOrder (pairs pairs' : List (Nat × Nat)) (pushes pushes' : List Nat)
    (hpairs : pairs'.Perm pairs) (hpushes : pushes'.Perm pushes) : Schedule where
  pairs _ l := if l = pairs then pairs' else l
  pushes _ l := if l = pushes then pushes' else l
  vertices _ l := l
  edges _ _ l := l
  pairs_perm _ l := by
    split
    · rename_i hl
      exact hl ▸ hpairs
    · exact List.Perm.refl l
  pushes_perm _ l := by
    split
    · rename_i hl
      exact hl ▸ hpushes
    · exact List.Perm.refl l
  vertices_perm _ l := List.Perm.refl l
  edges_perm _ _ l := List.Perm.refl l

/-- The edges and the pushes of the threads are those of one thread for some schedule. -/
theorem doBfsTDStep_refines {ι : Type*} [Fintype ι] [DecidableEq ι] {g : Snapshot} {s : State}
    {work : ι → List (Nat × Nat)}
    (hwork : ∑ t, (work t : Multiset (Nat × Nat)) =
      (s.queue.window.flatMap fun u => (g.edges u).map fun v => (u, v) : List (Nat × Nat)))
    {es : List ι} {c : Scanners ι}
    (hrun : exec (Scanners.step s.distance) (.init s.distances work) es = some c)
    (hend : ∀ t, (c.scanner t).todo = []) {q : Gapbs.SlidingQueue Nat} (hq : q.toBFS = s.queue)
    {localSize : Nat} {fs : List ι} {r : Gapbs.SlidingQueue.Region ι Nat}
    (hflush : exec (Gapbs.SlidingQueue.Region.step localSize)
      (.init q fun t => (c.scanner t).discovered) fs = some r) (hdone : ∀ t, r.Done t) :
    ∃ sched, doBfsTDStep g sched s = { s with
      distances := c.distances
      queue := r.sq.toBFS
      scoutCount := ∑ t, (c.scanner t).scoutCount } := by
  obtain ⟨order, horder⟩ := Scanners.ordered_of_exec hrun
  obtain ⟨l, hl, htoBFS⟩ := Gapbs.SlidingQueue.toBFS_region hflush hdone
  have hpairs := Multiset.coe_eq_coe.mp ((horder.multiset_eq hend).trans hwork)
  have hpushes := Multiset.coe_eq_coe.mp (hl.trans horder.discovered.symm)
  refine ⟨.ofOrder _ _ _ _ hpairs hpushes, ?_⟩
  have hfold : (order.map Prod.snd).foldl (tdEdge s.distance) ⟨s.distances, [], 0⟩ =
      Scanners.inOrder s.distance s.distances order := rfl
  simp only [doBfsTDStep, Schedule.ofOrder, if_true, hfold, horder.same, horder.scoutCount, htoBFS,
    hq]

/-- do_bfs_TDStep on any number of threads, in every order of their compare_and_swaps: no thread is
ever stuck, together they take boundedly many accesses, and at their ends, after the flushes of
their buffers in any order, they have done the step of the search for some schedule. -/
theorem doBfsTDStep_spec {ι : Type*} [Fintype ι] [DecidableEq ι] (g : Snapshot) (s : State)
    (work : ι → List (Nat × Nat))
    (hwork : ∑ t, (work t : Multiset (Nat × Nat)) =
      (s.queue.window.flatMap fun u => (g.edges u).map fun v => (u, v) : List (Nat × Nat)))
    {es : List ι} {c : Scanners ι}
    (hrun : exec (Scanners.step s.distance) (.init s.distances work) es = some c) :
    (∀ t, (c.scanner t).todo ≠ [] → ∃ c', Scanners.step s.distance c t = some c') ∧
    es.length ≤ 2 * ∑ t, (work t).length ∧
    ((∀ t, (c.scanner t).todo = []) → ∀ (q : Gapbs.SlidingQueue Nat) (localSize : Nat)
      (fs : List ι) (r : Gapbs.SlidingQueue.Region ι Nat), q.toBFS = s.queue →
      exec (Gapbs.SlidingQueue.Region.step localSize)
        (.init q fun t => (c.scanner t).discovered) fs = some r → (∀ t, r.Done t) →
      ∃ sched, doBfsTDStep g sched s = { s with
        distances := c.distances
        queue := r.sq.toBFS
        scoutCount := ∑ t, (c.scanner t).scoutCount }) :=
  ⟨fun _ => Scanners.exists_step, Scanners.exec_bounded hrun,
    fun hend _ _ _ _ hq hflush hdone => doBfsTDStep_refines hwork hrun hend hq hflush hdone⟩

/-- Two threads find vertex 1 at once and the second compare_and_swap fails. -/
theorem doBfsTDStep_spec_line :
    let s : State := ⟨fun v => if v = 1 then -2 else 0, ⟨[0, 2], 0, 2⟩, fun _ => false,
      fun _ => false, 1, 1, 1⟩
    let work : Fin 2 → List (Nat × Nat) := fun t => if t = 0 then [(0, 1)] else [(2, 1)]
    ∃ c, exec (Scanners.step s.distance) (.init s.distances work) [0, 1, 1, 0] = some c ∧
      ∃ r, exec (Gapbs.SlidingQueue.Region.step 2)
          (.init ⟨4, fun i => 2 * i, 2, 0, 2⟩ fun t => (c.scanner t).discovered) [1, 1, 0, 0, 1, 1] =
        some r ∧
      ∃ sched, doBfsTDStep line sched s = { s with
        distances := c.distances
        queue := r.sq.toBFS
        scoutCount := ∑ t, (c.scanner t).scoutCount } := by
  intro s work
  have hrun : ∃ c, exec (Scanners.step s.distance) (.init s.distances work) [0, 1, 1, 0] = some c ∧
      (∀ t, (c.scanner t).todo = []) ∧ (c.scanner 0).discovered = [] ∧
      (c.scanner 1).discovered = [1] := exists_exec (by decide)
  obtain ⟨c, hc, hend, h0, h1⟩ := hrun
  have hdiscovered : (fun t => (c.scanner t).discovered) = fun t : Fin 2 => if t = 0 then [] else [1] := by
    funext t
    fin_cases t
    · exact h0
    · exact h1
  have hflush : ∃ r, exec (Gapbs.SlidingQueue.Region.step 2) (.init ⟨4, fun i => 2 * i, 2, 0, 2⟩
      fun t : Fin 2 => if t = 0 then [] else [1]) [1, 1, 0, 0, 1, 1] = some r ∧ ∀ t, r.Done t :=
    exists_exec (by decide)
  rw [← hdiscovered] at hflush
  obtain ⟨r, hr, hdone⟩ := hflush
  exact ⟨c, hc, r, hr,
    (doBfsTDStep_spec line s work (by decide) hc).2.2 hend _ 2 _ r rfl hr hdone⟩

end AVBGraph.BFS
