import AVBGraph.Transaction.AllOrNothing
import AVBGraph.Vertex.Degree
import AVBGraph.Algorithm.ParallelBFS
import AVBGraph.Algorithm.ParallelWCC
import AVBGraph.Algorithm.PageRankLimit

namespace AVBGraph.Journal

open Framework Function VertexEdges

/-- The edge has been written by the end of an epoch. -/
def Written (j : Journal) (e u v : Nat) : Prop := ∃ w ∈ j.writesAt u, w.dst = v ∧ w.epoch ≤ e

/-- The destinations that for_each_edge hands to an analysis at the end of an epoch. -/
def scanAt (j : Journal) (e u : Nat) : List Nat :=
  ((j.system.vertices u).forEachEdge .fineGrain ⟨e, intraMax⟩).map EdgeWithIndex.key

/-- GraphStore::check_degree. -/
def checkDegree (j : Journal) (u e : Nat) : Option Nat :=
  ((j.system.vertices u).getDegree e).map fun degree => (degree % 2 ^ 32).toNat

/-- Every write is between vertices below `maxVid` and comes with the one of the reverse edge in the
same epoch, as UpdateEB makes them. -/
def Mirrored (j : Journal) (maxVid : Nat) : Prop :=
  ∀ r ∈ j.returned, r.src < maxVid ∧ ∃ q ∈ j.returned,
    q.src = r.write.dst ∧ q.write.dst = r.src ∧ q.write.epoch = r.write.epoch

/-- No edge is written twice. -/
def WrittenOnce (j : Journal) : Prop := (j.returned.map fun r => (r.src, r.write.dst)).Nodup

instance (j : Journal) (e u v : Nat) : Decidable (j.Written e u v) :=
  inferInstanceAs (Decidable (∃ w ∈ j.writesAt u, _))

instance (j : Journal) (maxVid : Nat) : Decidable (j.Mirrored maxVid) :=
  inferInstanceAs (Decidable (∀ r ∈ j.returned, _ ∧ ∃ q ∈ j.returned, _))

instance (j : Journal) : Decidable j.WrittenOnce := inferInstanceAs (Decidable (List.Nodup _))

/-- The writes up to the end of an epoch. -/
def tally (ws : List Write) (e : Nat) : Int := (ws.countP fun w => w.epoch ≤ e : Nat)

/-- Vertices in the middle of a run of accepted insertions, with counters that agree. -/
structure Stored (malloc tmp : Nat → Nat → EdgeWithIndex) (j : Journal) : Prop where
  ordered : Ordered malloc tmp j
  accepted : ∀ r ∈ j.returned, r.accepted = true
  counted : ∀ v, Counted (j.system.vertices v) (tally (j.writesAt v))

variable {S : StdSort} {malloc tmp : Nat → Nat → EdgeWithIndex} {j j' : Journal}

theorem counted_build (malloc tmp : Nat → EdgeWithIndex) :
    Counted (VertexEdges.build [] [] malloc tmp) (tally []) where
  chain := rfl
  edgeNum := rfl
  upTo e := by
    simp [VersionBlockManager.degreeUpTo, VersionBlockManager.empty, pendingUpTo,
      VertexEdges.edgesAt, edgesDelta, tally, VertexEdges.build]

theorem stored_start : Stored malloc tmp (start (built malloc tmp)) where
  ordered := ordered_start
  accepted := by simp [start]
  counted v := counted_build (malloc v) (tmp v)

theorem tally_concat (ws : List Write) (w : Write) (e : Nat) :
    tally (ws ++ [w]) e = tally ws e + if w.epoch ≤ e then 1 else 0 := by
  by_cases hle : w.epoch ≤ e <;> simp [tally, hle]

/-- An insertion counts once. -/
theorem Stored.counted_run (h : Stored malloc tmp j) {t : Nat} {env : Env} {x : Txn} {c : Call}
    {r : WriteResult} (hd : WellPlaced S env j x c)
    (hr : j.system.runCall .fineGrain S env x c = some r)
    (hsys : j'.system = j.system.finish .fineGrain S env t x c r)
    (hret : j'.returned = j.returned ++
      [⟨t, c.src, c.delete, x.write (j.system.vbData x.epoch) c, r.accepted⟩]) (v : Nat) :
    Counted (j'.system.vertices v) (tally (j'.writesAt v)) := by
  obtain ⟨hdel, -, -, hfree, -, -⟩ := hd
  have hother := (history_run hr hdel hsys hret).2
  by_cases hv : v = c.src
  swap
  · have hvert : j'.system.vertices v = j.system.vertices v := congrArg History.state (hother v hv)
    have hwrites : j'.writesAt v = j.writesAt v := congrArg History.accepted (hother v hv)
    rw [hvert, hwrites]
    exact h.counted v
  subst hv
  set w := x.write (j.system.vbData x.epoch) c with hw
  have hins : (j.system.vertices c.src).insertEdgeBlock .fineGrain S env w = some r := by
    unfold System.runCall at hr
    rwa [hdel, if_neg Bool.false_ne_true] at hr
  have hstate : j'.system.vertices c.src = r.state := by
    rw [hsys, vertices_finish, update_self]
  have hwrites : j'.writesAt c.src =
      if r.accepted = true then j.writesAt c.src ++ [w] else j.writesAt c.src := by
    have hj : j' = ⟨j'.system, j.returned ++ [⟨t, c.src, c.delete, w, r.accepted⟩]⟩ := by
      rw [← hret]
    rw [hj, writesAt_concat]
    simp
  rw [hstate]
  refine (h.counted c.src).write (insert_buffers hins) hfree.symm fun e => ?_
  have hdelta : edgesDelta [w.dst] = 1 := by simp [edgesDelta, isDelete_of_lt w.dst_lt]
  rw [hwrites, hdelta]
  cases r.accepted with
  | false => simp
  | true => simp [tally_concat]

theorem Stored.counted_handOver (h : Stored malloc tmp j) {epoch i vb : Nat}
    (hstep : j.step .fineGrain S (.handOver epoch i vb) = some j') (v : Nat) :
    Counted (j'.system.vertices v) (tally (j'.writesAt v)) := by
  obtain ⟨todo, u, slot, n, s, -, -, hs, hvert, -, hret⟩ := step_handOver hstep
  have hwrites : j'.writesAt v = j.writesAt v := by rw [writesAt, hret, writesAt]
  rw [hwrites, hvert]
  by_cases hv : v = u
  swap
  · rw [update_of_ne hv]
    exact h.counted v
  subst hv
  rw [update_self]
  have hpipe := h.ordered.pipe v
  by_cases hnil : (j.system.vertices v).view.changes slot = []
  · rw [VertexEdges.changes_eq_nil] at hnil
    unfold VertexEdges.transform at hs
    rw [if_pos hnil] at hs
    obtain ⟨-, rfl⟩ := Prod.mk.inj (Option.some.inj hs)
    exact h.counted v
  · have hslot : slot < 16 := by
      by_contra hge
      exact hnil (hpipe.changes_nil_of_le (not_lt.mp hge))
    obtain ⟨y, -, -, hlt⟩ := hpipe.exists_of_changes hnil
    exact (h.counted v).transform hslot (transform_moves hs) hlt.le

theorem Stored.step {e : Event} (h : Stored malloc tmp j) (hd : Disciplined S j e)
    (hf : WritesNewest S j e) (hstep : j.step .fineGrain S e = some j') : Stored malloc tmp j' := by
  obtain ⟨hordered, haccepted⟩ := whole_step ⟨h.ordered, h.accepted⟩ hd hf hstep
  refine ⟨hordered, haccepted, fun v => ?_⟩
  by_cases hrun : ∃ t env, e = .run t env
  · obtain ⟨t, env, rfl⟩ := hrun
    obtain ⟨x, c, r, hx, hpc, hr, hsys, hret⟩ := step_run hstep
    exact h.counted_run (hd x hx c hpc).2 hr hsys hret v
  by_cases hhand : ∃ epoch i vb, e = .handOver epoch i vb
  · obtain ⟨epoch, i, vb, rfl⟩ := hhand
    exact h.counted_handOver hstep v
  -- the other steps leave vertices and journal alone
  obtain ⟨hvert, hret⟩ := step_silent hstep (fun t env he => hrun ⟨t, env, he⟩)
    fun epoch i vb he => hhand ⟨epoch, i, vb, he⟩
  rw [hvert, writesAt, hret]
  exact h.counted v

theorem stored_of_exec {es : List Event}
    (hok : Along (step .fineGrain S) (fun j e => Disciplined S j e ∧ WritesNewest S j e)
      (start (built malloc tmp)) es)
    (hrun : exec (step .fineGrain S) (start (built malloc tmp)) es = some j) :
    Stored malloc tmp j :=
  invariant_of_step (fun _ _ _ h hok hstep => h.step hok.1 hok.2 hstep) stored_start hok hrun

/-! ### What a scan hands out -/

namespace Stored

variable {e u v maxVid : Nat}

/-- A vertex without calls has nothing to publish. -/
theorem entries_nil (h : Stored malloc tmp j) (hpub : j.AllPublished) (u : Nat) :
    ∀ slot < 16, ((j.system.vertices u).tmpVb slot).entries = [] := by
  intro slot hslot
  by_cases hcalled : ∃ r ∈ j.returned, r.src = u
  · obtain ⟨r, hr, rfl⟩ := hcalled
    exact hpub r hr slot hslot
  rw [← VertexEdges.changes_eq_nil]
  by_contra hne
  obtain ⟨x, hx, -⟩ := (h.ordered.pipe u).exists_of_changes hne
  obtain ⟨w, hw, -⟩ := mem_versionsOver hx
  obtain ⟨r, hr, hsrc, -⟩ := mem_writesAt.mp hw
  exact hcalled ⟨r, hr, hsrc⟩

/-- Every destination is handed out as often as it has a newest version. -/
theorem count_scanAt (h : Stored malloc tmp j) (hpub : j.AllPublished) (e u d : Nat) :
    (j.scanAt e u).count d =
      ((j.writesAt u).filter fun w => w.dst = d ∧ w.epoch ≤ e).getLast?.toList.length := by
  have hlength := congrArg List.length (h.ordered.weights_eq (h.entries_nil hpub u) e d)
  have hcount : (j.scanAt e u).count d = (j.weights ⟨e, intraMax⟩ u d).length := by
    unfold scanAt VertexEdges.forEachEdge weights
    rw [List.map_map, List.count, List.countP_map, List.length_map, List.countP_eq_length_filter]
    rfl
  rw [hcount, hlength]
  cases ((j.writesAt u).filter fun w => w.dst = d ∧ w.epoch ≤ e).getLast? <;> rfl

theorem mem_scanAt (h : Stored malloc tmp j) (hpub : j.AllPublished) :
    v ∈ j.scanAt e u ↔ j.Written e u v := by
  have hfilter : ((j.writesAt u).filter fun w => w.dst = v ∧ w.epoch ≤ e) ≠ [] ↔
      j.Written e u v := by
    rw [← List.length_pos_iff, List.length_filter_pos_iff]
    simp only [decide_eq_true_eq, Written]
  rw [← List.count_pos_iff, h.count_scanAt hpub, ← hfilter, ← List.getLast?_isSome]
  cases ((j.writesAt u).filter fun w => w.dst = v ∧ w.epoch ≤ e).getLast? <;> simp

theorem written_symm (h : Stored malloc tmp j) (hm : j.Mirrored maxVid) (huv : j.Written e u v) :
    j.Written e v u ∧ u < maxVid ∧ v < maxVid := by
  obtain ⟨w, hw, rfl, hle⟩ := huv
  obtain ⟨r, hr, rfl, -, rfl⟩ := mem_writesAt.mp hw
  obtain ⟨hu, q, hq, hsrc, hdst, hepoch⟩ := hm r hr
  exact ⟨⟨q.write, mem_writesAt.mpr ⟨q, hq, hsrc, h.accepted q hq, rfl⟩, hdst, hepoch.trans_le hle⟩,
    hu, hsrc ▸ (hm q hq).1⟩

theorem checkDegree_eq (h : Stored malloc tmp j) (hpub : j.AllPublished) (e u : Nat) :
    j.checkDegree u e = some ((j.writesAt u).countP (fun w => w.epoch ≤ e) % 2 ^ 32) := by
  have hempty : ∀ k < 16, (j.system.vertices u).edgesAt k = [] := fun k hk => by
    rw [VertexEdges.edgesAt, h.entries_nil hpub u k hk, List.map_nil]
  rw [checkDegree, (h.counted u).getDegree hempty e, Option.map_some, tally]
  norm_cast

/-- The snapshot that the other analyses read. -/
theorem exists_adjacency (h : Stored malloc tmp j) (hpub : j.AllPublished) (hm : j.Mirrored maxVid)
    (e : Nat) : ∃ g : Adjacency maxVid, (∀ u, (g.edges u).map Fin.val = j.scanAt e u) ∧
      (∀ u : Fin maxVid, j.checkDegree u e = some (g.degree u)) ∧
      ∀ u v, v ∈ g.edges u ↔ j.Written e u v := by
  have hlt (u : Fin maxVid) : ∀ v ∈ j.scanAt e u, v < maxVid := fun v hv =>
    (h.written_symm hm ((h.mem_scanAt hpub).mp hv)).2.2
  refine ⟨⟨fun u => (j.scanAt e u).pmap Fin.mk (hlt u),
    fun u => (j.writesAt u).countP (fun w => w.epoch ≤ e) % 2 ^ 32⟩, fun u => ?_,
    fun u => h.checkDegree_eq hpub e u, fun u v => ?_⟩
  · rw [List.map_pmap]
    simp
  · rw [List.mem_pmap, ← h.mem_scanAt hpub]
    constructor
    · rintro ⟨a, ha, rfl⟩
      exact ha
    · intro hv
      exact ⟨v, hv, rfl⟩

end Stored

section Run

theorem zero_lt_key : 0 < 2 ^ 63 := by decide

theorem one_lt_key : 1 < 2 ^ 63 := by decide

def unwritten : Nat → Nat → EdgeWithIndex := fun _ _ => ⟨0, 0, 0⟩

def writer (epoch : Nat) (h : 0 < epoch ∧ epoch < 2 ^ 31) : Txn :=
  ⟨true, 0, epoch, 0, 0, 0, [], .ready, Write.pos_of_epoch h, Write.lt_of_epoch h,
    vbVectorLength_pos⟩

/-- A transaction writes the edge between 0 and 1 in both directions, and epoch 1 is published. -/
def bothDirections : List Event :=
  [.register 0 (writer 1 Write.epoch_one), .call 0 ⟨false, 0, 1, 5, one_lt_key⟩, .lock 0,
    .run 0 History.freshEnv, .call 0 ⟨false, 1, 0, 5, zero_lt_key⟩, .lock 0,
    .run 0 History.freshEnv, .commit 0, .unlock 0, .unlock 0, .collect 1, .handOver 1 0 100,
    .handOver 1 0 100]

theorem bothDirections_ok : Along (step .fineGrain .stable)
    (fun j e => Disciplined .stable j e ∧ WritesNewest .stable j e)
    (start (built unwritten unwritten)) bothDirections := by decide +kernel

theorem exists_bothDirections : ∃ j,
    exec (step .fineGrain .stable) (start (built unwritten unwritten)) bothDirections = some j ∧
      j.AllPublished ∧ j.Mirrored 2 ∧ j.WrittenOnce ∧ j.Written 1 0 1 := by
  refine exists_exec ?_
  decide +kernel

end Run

section Analyses

variable {es : List Event} {maxVid : Nat}

/-- From transactions to WCC, likewise: equal roots are connected in the written graph, and once a
round has changed nothing every root is the smallest vertex of its component. -/
theorem wcc_written
    (hok : Along (step .fineGrain S) (fun j e => Disciplined S j e ∧ WritesNewest S j e)
      (start (built malloc tmp)) es)
    (hrun : exec (step .fineGrain S) (start (built malloc tmp)) es = some j)
    (hpub : j.AllPublished) (hm : j.Mirrored maxVid) (e : Nat) :
    ∃ g : Adjacency maxVid, (∀ u, (g.edges u).map Fin.val = j.scanAt e u) ∧
      (∀ u : Fin maxVid, j.checkDegree u e = some (g.degree u)) ∧
      (∃ s, WCC.ParallelLoop g 100 ⟨id, true⟩ s) ∧
      ∀ s, WCC.ParallelLoop g 100 ⟨id, true⟩ s → ∃ parent : Fin maxVid → Fin maxVid,
        (∀ v fuel, maxVid ≤ fuel → WCC.flattenFrom s.components fuel v = some (parent v)) ∧
        (∀ u v, parent u = parent v →
          Relation.ReflTransGen (fun u v : Fin maxVid => j.Written e u v) u v) ∧
        (s.changed = false → ∀ v, IsLeast
          {u | Relation.ReflTransGen (fun u v : Fin maxVid => j.Written e u v) v u}
            (parent v)) := by
  have hstored := stored_of_exec hok hrun
  obtain ⟨g, hedges, hdegree, hmem⟩ := hstored.exists_adjacency hpub hm e
  refine ⟨g, hedges, hdegree, WCC.exists_parallelLoop g 100 _, fun s hs => ?_⟩
  have hsymm : g.Symmetric := fun u v hv =>
    (hmem v u).mpr (hstored.written_symm hm ((hmem u v).mp hv)).1
  have hgraph : (fun u v : Fin maxVid => v ∈ g.edges u) =
      fun u v : Fin maxVid => j.Written e u v := by
    funext u v
    exact propext (hmem u v)
  rw [← hgraph]
  obtain ⟨hlabels, hagree⟩ := hs.spec hsymm (fun v => ⟨le_refl v, .refl⟩) nofun
  obtain ⟨parent, hparent, hfixed, hconn⟩ := WCC.exists_parent hlabels
  refine ⟨parent, hparent, fun u v heq => ?_, fun hquiet =>
    WCC.isLeast_parent hlabels (hagree hquiet) hfixed hconn⟩
  exact (hconn u).trans (heq ▸ WCC.Connected.symm hsymm (hconn v))

theorem wcc_written_edge : ∃ (j : Journal) (g : Adjacency 2),
    exec (step .fineGrain .stable) (start (built unwritten unwritten)) bothDirections = some j ∧
      (∀ u, (g.edges u).map Fin.val = j.scanAt 1 u) ∧
      ∃ s, WCC.ParallelLoop g 100 ⟨id, true⟩ s ∧ ∃ parent : Fin 2 → Fin 2,
        ∀ v fuel, 2 ≤ fuel → WCC.flattenFrom s.components fuel v = some (parent v) := by
  obtain ⟨j, hrun, hpub, hm, -, -⟩ := exists_bothDirections
  obtain ⟨g, hedges, -, ⟨s, hs⟩, hall⟩ := wcc_written bothDirections_ok hrun hpub hm 1
  obtain ⟨parent, hparent, -, -⟩ := hall s hs
  exact ⟨j, g, hrun, hedges, s, hs, parent, hparent⟩

end Analyses

end AVBGraph.Journal
