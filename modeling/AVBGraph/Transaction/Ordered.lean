import AVBGraph.Snapshot.Published
import AVBGraph.Transaction.Journal
import AVBGraph.Vertex.Times

namespace AVBGraph

open Framework Function

namespace System

/-- The call that the transaction is inside of, if any, has a property. -/
def Inside (s : System) (t : Nat) (P : Txn → Call → Prop) : Prop :=
  ∀ x ∈ s.txns t, ∀ c, x.pc = .inside c → P x c

instance (s : System) (t : Nat) (P : Txn → Call → Prop) [∀ x c, Decidable (P x c)] :
    Decidable (s.Inside t P) :=
  decidable_of_iff (∀ x ∈ s.txns t, ∀ c ∈ x.pc.write, P x c) (by simp only [Inside, Pc.mem_write])

end System

namespace Journal

/-- The newest accepted version of an edge. -/
def newestAt (j : Journal) (src dst : Nat) : Composite :=
  ((j.writesAt src).filter fun w => w.dst = dst).getLast?.elim ⟨0, 0⟩ Write.time

/-- A write that the vertex can take: an insertion into an epoch that it has not published yet,
whose slot is free or its own, below the bounds of timestamps and entries. -/
def WellPlaced (S : StdSort) (env : Env) (j : Journal) (x : Txn) (c : Call) : Prop :=
  let s := j.system.vertices c.src
  let slot := x.epoch % 16
  c.delete = false ∧ (s.prepare S env).LookupRight c.dst ∧ s.vbm.endEpoch < x.epoch ∧
  ((s.tmpVb slot).entries = [] ∨ (s.tmpVb slot).timestamp = x.epoch) ∧
  (∀ k < 16, (s.tmpVb k).entries.length < 2 ^ 32) ∧
  x.getIntraC (j.system.vbData x.epoch) < intraMax

/-- A write finds the newest accepted version of its edge, and is later. -/
def FindsNewest (S : StdSort) (env : Env) (j : Journal) (x : Txn) (c : Call) : Prop :=
  ((j.system.vertices c.src).prepare S env).liveTime c.dst = j.newestAt c.src c.dst ∧
    j.newestAt c.src c.dst < (x.write (j.system.vbData x.epoch) c).time

/-- The TmpVersionBlock that is handed over holds the oldest pending epoch of its vertex. -/
def OldestFirst (j : Journal) (p : Nat × Nat) : Prop :=
  let s := j.system.vertices p.1
  ∀ k < 16, (s.tmpVb k).entries ≠ [] → (s.tmpVb p.2).timestamp ≤ (s.tmpVb k).timestamp

instance (S : StdSort) (env : Env) (j : Journal) (x : Txn) (c : Call) :
    Decidable (j.WellPlaced S env x c) := inferInstanceAs (Decidable (_ ∧ _))

instance (S : StdSort) (env : Env) (j : Journal) (x : Txn) (c : Call) :
    Decidable (j.FindsNewest S env x c) := inferInstanceAs (Decidable (_ ∧ _))

instance (j : Journal) (p : Nat × Nat) : Decidable (j.OldestFirst p) :=
  inferInstanceAs (Decidable (∀ k < 16, _))

/-- The weights that a reader is given for an edge. -/
def weights (j : Journal) (readTs : Composite) (src dst : Nat) : List Nat :=
  (((j.system.vertices src).forEachEdgeWithProperty .fineGrain readTs).filter
    fun x => x.1.key = dst).map fun x => x.2.e

section Invariant

variable {S : StdSort} {malloc tmp : Nat → Nat → EdgeWithIndex} {j j' : Journal}

/-- A vertex that GraphStore::new_vertex has built. -/
def built (malloc tmp : Nat → Nat → EdgeWithIndex) (v : Nat) : VertexEdges :=
  .build [] [] (malloc v) (tmp v)

/-- Every vertex is in the middle of a run of accepted insertions with rising times. -/
structure Ordered (malloc tmp : Nat → Nat → EdgeWithIndex) (j : Journal) : Prop where
  wf : ∀ v, (j.system.vertices v).Wf
  pipe : ∀ v, Pipe (built malloc tmp v).view (j.writesAt v) (j.system.vertices v).view
  timely : ∀ v, Timely (j.writesAt v)

theorem ordered_start : Ordered malloc tmp (start (built malloc tmp)) :=
  ⟨fun _ => VertexEdges.wf_build _ _, fun _ => pipe_built, fun _ => timely_nil⟩

theorem lastTime_view (s : VertexEdges) (d : Nat) : View.lastTime (s.view.head d) = s.liveTime d := by
  have hhead : s.view.head d = (s.item d).map headOf := rfl
  rw [hhead, VertexEdges.liveTime]
  cases s.item d <;> rfl

/-- The newest version of an edge is the latest one. -/
theorem le_newestAt (h : Ordered malloc tmp j) {v d : Nat} {u : Write} (hu : u ∈ j.writesAt v)
    (hd : u.dst = d) : u.time ≤ j.newestAt v d := by
  have hmem : u ∈ (j.writesAt v).filter fun w => w.dst = d := List.mem_filter.mpr ⟨hu, by simp [hd]⟩
  have hrising := (h.timely v).rising d
  unfold newestAt
  cases hl : ((j.writesAt v).filter fun w => w.dst = d).getLast? with
  | none =>
    rw [List.getLast?_eq_none_iff.mp hl] at hmem
    cases hmem
  | some w =>
    rw [← List.dropLast_append_getLast? w hl] at hmem hrising
    rcases List.mem_append.mp hmem with hmem | hmem
    · rw [List.map_append, List.pairwise_append] at hrising
      exact (hrising.2.2 _ (List.mem_map_of_mem hmem) _ (by simp)).le
    · rw [List.mem_singleton.mp hmem]
      exact le_rfl

theorem Ordered.run (h : Ordered malloc tmp j) {t : Nat} {env : Env} {x : Txn} {c : Call}
    {r : WriteResult} (hd : WellPlaced S env j x c) (hf : FindsNewest S env j x c)
    (hr : j.system.runCall .fineGrain S env x c = some r)
    (hsys : j'.system = j.system.finish .fineGrain S env t x c r)
    (hret : j'.returned = j.returned ++
      [⟨t, c.src, c.delete, x.write (j.system.vbData x.epoch) c, r.accepted⟩]) :
    Ordered malloc tmp j' ∧ (x.writeOnly = true → r.accepted = true) := by
  obtain ⟨hdel, hlook, hlt, hfree, hroom, hmax⟩ := hd
  obtain ⟨hfound, hlater⟩ := hf
  set w := x.write (j.system.vbData x.epoch) c with hw
  obtain ⟨hins, hother⟩ := history_run hr hdel hsys hret
  have hwf := h.wf c.src
  have hpipe := h.pipe c.src
  have hlast : View.lastTime ((j.system.vertices c.src).view.head c.dst) = j.newestAt c.src c.dst := by
    rw [← hfound, ← lastTime_view, VertexEdges.view_prepare_of_live hwf.rep hpipe.live]
  have hbase : (built malloc tmp c.src).view.baseTime c.dst = ⟨0, 0⟩ := by
    rw [View.baseTime, built, head_built]
    rfl
  have hfree' : (j.history c.src).state.view.changes (w.epoch % 16) = [] ∨
      (j.history c.src).state.view.stamp (w.epoch % 16) = w.epoch :=
    hfree.imp_left VertexEdges.changes_eq_nil.mpr
  have hroom' : ∀ k, ((j.history c.src).state.view.changes k).length ≤ 2 ^ 32 - 1 := by
    intro k
    by_cases hk : k < 16
    · have hlen : ((j.system.vertices c.src).view.changes k).length < 2 ^ 32 := by
        simpa [VertexEdges.view] using hroom k hk
      exact Nat.le_sub_one_of_lt hlen
    · have hnil : (j.system.vertices c.src).view.changes k = [] :=
        hpipe.changes_nil_of_le (not_lt.mp hk)
      show ((j.system.vertices c.src).view.changes k).length ≤ _
      rw [hnil]
      exact Nat.zero_le _
  have hnewer : ∀ u ∈ j.writesAt c.src, u.dst = w.dst → u.time < w.time := fun u hu hud =>
    (le_newestAt h hu hud).trans_lt hlater
  obtain ⟨hwf', hpipe'⟩ := Pipe.insert (h := j.history c.src) hwf hpipe hlook hins hlt hfree' hroom'
    fun _ => by
      constructor
      · show View.lastTime ((j.system.vertices c.src).view.head c.dst) = _
        rw [hlast, newest_eq_last]
        show _ = Option.elim _ ((built malloc tmp c.src).view.baseTime c.dst) _
        rw [hbase]
        rfl
      · intro y hy hyd
        obtain ⟨u, hu, hud, -, hut⟩ := mem_versionsOver hy
        rw [← hut]
        exact (hnewer u hu (hud.trans hyd)).ne
  have hacc : j'.writesAt c.src =
      if r.accepted = true then j.writesAt c.src ++ [w] else j.writesAt c.src := by
    have hj : j' = ⟨j'.system, j'.returned⟩ := rfl
    rw [hj, hret]
    simpa using writesAt_concat (j := j) (s := j'.system)
      ⟨t, c.src, c.delete, w, r.accepted⟩ c.src
  have hrest : ∀ v, v ≠ c.src → j'.writesAt v = j.writesAt v ∧
      j'.system.vertices v = j.system.vertices v := fun v hv =>
    ⟨congrArg History.accepted (hother v hv), congrArg History.state (hother v hv)⟩
  refine ⟨⟨fun v => ?_, fun v => ?_, fun v => ?_⟩, fun hwo => ?_⟩
  · by_cases hv : v = c.src
    · rw [hv]
      exact hwf'
    · rw [(hrest v hv).2]
      exact h.wf v
  · by_cases hv : v = c.src
    · rw [hv]
      exact hpipe'
    · rw [(hrest v hv).1, (hrest v hv).2]
      exact h.pipe v
  · by_cases hv : v = c.src
    · rw [hv, hacc]
      split_ifs
      · exact (h.timely c.src).concat hnewer hmax
      · exact h.timely c.src
    · rw [(hrest v hv).1]
      exact h.timely v
  · -- a write-only insertion that finds an older version is accepted
    have hconf : conflicts w.txn (View.lastTime ((j.system.vertices c.src).view.head c.dst)).e
        w.epoch = false := by
      have hwo' : w.txn.writeOnly = true := hwo
      have hle : (j.newestAt c.src c.dst).e ≤ w.epoch := by
        rcases hlater with hlt | ⟨heq, -⟩
        · exact hlt.le
        · exact heq.le
      rw [hlast, conflicts, hwo']
      simpa using hle
    obtain ⟨-, ⟨hc, -⟩ | ⟨-, hgrown, -⟩⟩ := History.insert_cases hwf hpipe.live hlook hins
    · exact absurd (hc.symm.trans hconf) (by decide)
    · by_contra hra
      rw [if_neg hra] at hacc
      have hsame : j'.writesAt c.src = j.writesAt c.src ++ [w] := hgrown
      rw [hacc] at hsame
      simpa using congrArg List.length hsame

theorem Ordered.handOver (h : Ordered malloc tmp j) {epoch i vb : Nat}
    (hd : ∀ p ∈ (j.system.vbData epoch).todo.bind fun todo => todo[i]?, OldestFirst j p)
    (hstep : j.step .fineGrain S (.handOver epoch i vb) = some j') : Ordered malloc tmp j' := by
  obtain ⟨todo, v, slot, n, w, htodo, hi, hw, hvert, -, hret⟩ := step_handOver hstep
  have hasc : OldestFirst j (v, slot) := hd (v, slot) (by rw [htodo]; exact hi)
  obtain ⟨n', w', hw', hwf, hview⟩ := VertexEdges.transform_refines (S := S) (h.wf v) slot vb
  obtain rfl : w' = w := congrArg Prod.snd (Option.some.inj (hw'.symm.trans hw))
  have hwrites : ∀ u, j'.writesAt u = j.writesAt u := fun u => by rw [writesAt, hret, writesAt]
  refine ⟨fun u => ?_, fun u => ?_, fun u => ?_⟩
  · rw [hvert]
    by_cases hu : u = v
    · subst hu
      rw [update_self]
      exact hwf
    · rw [update_of_ne hu]
      exact h.wf u
  · rw [hwrites, hvert]
    by_cases hu : u = v
    · subst hu
      rw [update_self, hview]
      apply (h.pipe u).transform
      intro k hk
      by_cases hk16 : k < 16
      · exact hasc k hk16 fun hnil => hk (VertexEdges.changes_eq_nil.mpr hnil)
      · exact absurd ((h.pipe u).changes_nil_of_le (not_lt.mp hk16)) hk
    · rw [update_of_ne hu]
      exact h.pipe u
  · rw [hwrites]
    exact h.timely u

/-- Every other step leaves the vertices alone. -/
theorem Ordered.silent (h : Ordered malloc tmp j) (hvert : j'.system.vertices = j.system.vertices)
    (hret : j'.returned = j.returned) : Ordered malloc tmp j' := by
  have hwrites : ∀ v, j'.writesAt v = j.writesAt v := fun v => by rw [writesAt, hret, writesAt]
  refine ⟨fun v => ?_, fun v => ?_, fun v => ?_⟩
  · rw [hvert]
    exact h.wf v
  · rw [hwrites, hvert]
    exact h.pipe v
  · rw [hwrites]
    exact h.timely v

/-- What a reader at the end of an epoch is given once a vertex has published everything. -/
theorem Ordered.weights_eq (h : Ordered malloc tmp j) {v : Nat}
    (hdone : ∀ slot < 16, ((j.system.vertices v).tmpVb slot).entries = []) (e d : Nat) :
    j.weights ⟨e, intraMax⟩ v d =
      (((j.writesAt v).filter fun w => w.dst = d ∧ w.epoch ≤ e).getLast?.map Write.weight).toList :=
  scan_built (h.wf v) (h.pipe v) (h.timely v) hdone e d

end Invariant

end Journal

end AVBGraph
