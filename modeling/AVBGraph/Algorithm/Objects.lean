import AVBGraph.Framework.Run
import AVBGraph.Framework.Vector
import AVBGraph.Algorithm.CDLP
import AVBGraph.Algorithm.LCC
import AVBGraph.Algorithm.WCC
import AVBGraph.Algorithm.PageRank
import Mathlib.Data.Rat.Defs

namespace AVBGraph

open Framework Function

/-- What an analysis is called on: the snapshot, and the external ids of `MEA` if it is given. -/
structure Analysed where
  max_vid : Nat
  g : Adjacency max_vid
  mea : Option (List Nat)

namespace Analysed

/-- The first component of a result entry. -/
def key (c : Analysed) (i : Nat) : Nat := (c.mea.bind (·[i]?)).getD i

/-- The value for vertex `i` as an array entry. -/
def entry {α : Type*} (c : Analysed) (f : Fin c.max_vid → α) (d : α) (i : Nat) : α :=
  if h : i < c.max_vid then f ⟨i, h⟩ else d

end Analysed

/-- The final call ends without a write out of range, and leaves what a fresh object leaves. -/
def SnapshotOnly {Obj Call View : Type*} (construct : Nat → Obj)
    (compute : Obj → Call → Option Obj) (view : Obj → View) (size : Call → Nat) (n₀ : Nat)
    (earlier : List Call) (c : Call) : Prop :=
  ∃ o o', (earlier.foldlM compute (construct n₀)).bind (compute · c) = some o ∧
    compute (construct (size c)) c = some o' ∧ view o = view o'

/-- The graph does not shrink below its size at the construction, nor between an earlier call and
the final one. -/
def Grows {Call : Type*} (size : Call → Nat) (n₀ : Nat) (earlier : List Call) (c : Call) : Prop :=
  n₀ ≤ size c ∧ ∀ e ∈ earlier, n₀ ≤ size e ∧ size e ≤ size c

section Fixed

variable {Obj Call View : Type*} {construct : Nat → Obj} {compute : Obj → Call → Option Obj}
  {view : Obj → View} {size : Call → Nat} {len : Obj → Nat} {after : Obj → Call → Obj}
  {n₀ : Nat} {earlier : List Call} {c : Call}

/-- A class whose `result` keeps the length of its construction. -/
structure FixedResult (construct : Nat → Obj) (compute : Obj → Call → Option Obj)
    (size : Call → Nat) (len : Obj → Nat) (after : Obj → Call → Obj) : Prop where
  compute_eq : ∀ o c, compute o c = if size c ≤ len o then some (after o c) else none
  len_after : ∀ o c, size c ≤ len o → len (after o c) = len o
  len_construct : ∀ n, len (construct n) = n

theorem FixedResult.len_run (h : FixedResult construct compute size len after) {o o' : Obj}
    (hrun : earlier.foldlM compute o = some o') : len o' = len o := by
  refine foldlM_induction (Q := fun o' => len o' = len o) (fun o₁ e _ o₂ h₁ h₂ => ?_) rfl hrun
  rw [h.compute_eq] at h₂
  split at h₂
  · obtain rfl := Option.some.inj h₂
    exact (h.len_after _ _ ‹_›).trans h₁
  · cases h₂

theorem FixedResult.exists_run (h : FixedResult construct compute size len after) {o : Obj}
    (hsize : ∀ e ∈ earlier, size e ≤ len o) : ∃ o', earlier.foldlM compute o = some o' := by
  induction earlier generalizing o with
  | nil => exact ⟨o, rfl⟩
  | cons e earlier ih =>
    have he := hsize e List.mem_cons_self
    have hlen := h.len_after o e he
    obtain ⟨o', ho'⟩ := ih (o := after o e) fun e' he' => by
      rw [hlen]
      exact hsize e' (List.mem_cons_of_mem _ he')
    refine ⟨o', ?_⟩
    rw [List.foldlM_cons, h.compute_eq, if_pos he]
    exact ho'

/-- Such an object needs the size of its construction, and then the arrays must agree. -/
theorem FixedResult.snapshotOnly_iff (h : FixedResult construct compute size len after)
    (hgrows : Grows size n₀ earlier c) :
    SnapshotOnly construct compute view size n₀ earlier c ↔
      size c = n₀ ∧ ∀ o, earlier.foldlM compute (construct n₀) = some o →
        view (after o c) = view (after (construct (size c)) c) := by
  have hfresh : compute (construct (size c)) c = some (after (construct (size c)) c) := by
    rw [h.compute_eq, h.len_construct, if_pos (le_refl _)]
  constructor
  · rintro ⟨o, o', hrun, hfresh', hview⟩
    obtain ⟨o₁, ho₁, hlast⟩ := Option.bind_eq_some_iff.mp hrun
    rw [hfresh] at hfresh'
    rw [h.compute_eq, h.len_run ho₁, h.len_construct] at hlast
    split at hlast
    · refine ⟨le_antisymm ‹_› hgrows.1, fun o₂ ho₂ => ?_⟩
      obtain rfl := Option.some.inj (ho₁.symm.trans ho₂)
      obtain rfl := Option.some.inj hlast
      obtain rfl := Option.some.inj hfresh'
      exact hview
    · cases hlast
  · rintro ⟨rfl, hview⟩
    obtain ⟨o, ho⟩ : ∃ o, earlier.foldlM compute (construct (size c)) = some o :=
      h.exists_run fun e he => by
        rw [h.len_construct]
        exact (hgrows.2 e he).2
    refine ⟨after o c, _, ?_, hfresh, hview o ho⟩
    rw [ho, Option.bind_some, h.compute_eq, h.len_run ho, h.len_construct, if_pos (le_refl _)]

end Fixed

section Result

variable {α : Type*} {c : Analysed}

theorem getElem?_entries (f : Fin c.max_vid → α) (d : α) {i : Nat} (hi : i < c.max_vid) :
    ((List.range c.max_vid).map (c.entry f d))[i]? = some (f ⟨i, hi⟩) := by
  simp [hi, Analysed.entry]

/-- The entries of a loop over all vertices, and what was there behind them. -/
def written (c : Analysed) (f : Nat → α) (l : List α) : List α :=
  (List.range c.max_vid).map f ++ l.drop c.max_vid

theorem length_written (f : Nat → α) {l : List α} (h : c.max_vid ≤ l.length) :
    (written c f l).length = l.length := by
  simp [written]
  omega

theorem written_of_length (f : Nat → α) {l : List α} (h : l.length = c.max_vid) :
    written c f l = (List.range c.max_vid).map f := by
  simp [written, ← h]

theorem writeBelow_of_length (f : Nat → α) {l : List α} {n : Nat} (h : l.length = n) :
    writeBelow f n l = some ((List.range n).map f) := by
  rw [writeBelow_eq, if_pos h.ge, List.drop_of_length_le h.le, List.append_nil]

theorem writeBelow_written (f : Nat → α) (l : List α) :
    writeBelow f c.max_vid l = if c.max_vid ≤ l.length then some (written c f l) else none :=
  writeBelow_eq f c.max_vid l

end Result

/-! ### The classes -/

namespace WCC

structure Object where
  components : List Nat
  num_vertices : Nat
  result : List (Nat × Nat)
  max_vid : Nat

def construct (n : Nat) : Object := ⟨List.replicate n 0, n, List.replicate n (0, 0), n⟩

/-- `compute_wcc` on the arrays of the object; `components` is resized, `result` is not. -/
def compute (o : Object) (c : Analysed) : Option Object := do
  let components ← writeBelow (fun v => v) c.max_vid (resize o.components c.max_vid 0)
  let components ← writeBelow (c.entry (fun v => (propagated c.g v).val) 0) c.max_vid components
  let parent ← (List.finRange c.max_vid).mapM (computeWcc c.g c.max_vid)
  let result ← writeBelow (fun i => (c.key i, ((parent[i]?).map Fin.val).getD 0)) c.max_vid o.result
  return ⟨components, o.num_vertices, result, c.max_vid⟩

def view (o : Object) : List Nat × List (Nat × Nat) := (o.components, o.result)

/-- The parents of all vertices. -/
def parents (g : Adjacency max_vid) : List (Fin max_vid) :=
  (List.finRange max_vid).filterMap (computeWcc g max_vid)

theorem mapM_computeWcc (g : Adjacency max_vid) :
    (List.finRange max_vid).mapM (computeWcc g max_vid) = some (parents g) := by
  unfold parents
  generalize List.finRange max_vid = l
  induction l with
  | nil => rfl
  | cons v l ih =>
    obtain ⟨r, hr⟩ := computeWcc_isSome g (le_refl max_vid) v
    simp [hr, ih]

def after (o : Object) (c : Analysed) : Object where
  components := (List.range c.max_vid).map (c.entry (fun v => (propagated c.g v).val) 0)
  num_vertices := o.num_vertices
  result := written c (fun i => (c.key i, (((parents c.g)[i]?).map Fin.val).getD 0)) o.result
  max_vid := c.max_vid

theorem fixedResult :
    FixedResult construct compute Analysed.max_vid (·.result.length) after where
  compute_eq o c := by
    rw [compute, writeBelow_of_length _ (length_resize _ _ _), mapM_computeWcc]
    simp only [Option.bind_eq_bind, Option.bind_some]
    rw [writeBelow_of_length _ (by simp), writeBelow_written]
    simp only [Option.bind_some]
    split <;> rfl
  len_after o c h := length_written _ h
  len_construct n := by simp [construct]

/-- Every entry is written anew, so only the length of `result` matters. -/
theorem snapshotOnly_iff {n₀ : Nat} {earlier : List Analysed} {c : Analysed}
    (hgrows : Grows Analysed.max_vid n₀ earlier c) :
    SnapshotOnly construct compute view Analysed.max_vid n₀ earlier c ↔ c.max_vid = n₀ := by
  rw [fixedResult.snapshotOnly_iff hgrows]
  refine and_iff_left_of_imp fun hn o ho => ?_
  have hlen : o.result.length = c.max_vid := by
    rw [fixedResult.len_run ho, fixedResult.len_construct, hn]
  simp only [view, after, written_of_length _ hlen,
    written_of_length _ (fixedResult.len_construct c.max_vid)]

end WCC

namespace CDLP

structure Object where
  labels : List Nat
  num_vertices : Nat
  result : List (Nat × Nat)
  max_vid : Nat

/-- A call: the snapshot, the rounds, the order in which the threads come to the vertices, and
p_mHashMap of the graph. -/
structure Call extends Analysed where
  max_iterations : Nat
  order : Nat → List (Fin max_vid)
  externalId : Fin max_vid → Nat

def construct (n : Nat) : Object := ⟨List.replicate n 0, n, List.replicate n (0, 0), n⟩

/-- `compute_cdlp` on the arrays of the object; `labels` is resized, `result` is not. -/
def compute (o : Object) (c : Call) : Option Object := do
  let labels ← writeBelow (c.entry c.externalId 0) c.max_vid (resize o.labels c.max_vid 0)
  let labels ← writeBelow
    (c.entry (computeCdlp c.g c.order c.max_iterations c.externalId) 0) c.max_vid labels
  let result ← writeBelow (fun i => (c.key i, labels.getD i 0)) c.max_vid o.result
  return ⟨labels, o.num_vertices, result, c.max_vid⟩

def view (o : Object) : List Nat × List (Nat × Nat) := (o.labels, o.result)

/-- The labels that a call leaves. -/
def finalLabels (c : Call) : List Nat :=
  (List.range c.max_vid).map
    (c.entry (computeCdlp c.g c.order c.max_iterations c.externalId) 0)

def after (o : Object) (c : Call) : Object where
  labels := finalLabels c
  num_vertices := o.num_vertices
  result := written c.toAnalysed (fun i => (c.key i, (finalLabels c).getD i 0)) o.result
  max_vid := c.max_vid

theorem fixedResult :
    FixedResult construct compute (·.max_vid) (·.result.length) after where
  compute_eq o c := by
    rw [compute, writeBelow_of_length _ (length_resize _ _ _)]
    simp only [Option.bind_eq_bind, Option.bind_some]
    rw [writeBelow_of_length _ (by simp)]
    simp only [Option.bind_some]
    rw [writeBelow_written]
    split <;> rfl
  len_after o c h := length_written _ h
  len_construct n := by simp [construct]

/-- Every entry is written anew, so only the length of `result` matters. -/
theorem snapshotOnly_iff {n₀ : Nat} {earlier : List Call} {c : Call}
    (hgrows : Grows (·.max_vid) n₀ earlier c) :
    SnapshotOnly construct compute view (·.max_vid) n₀ earlier c ↔ c.max_vid = n₀ := by
  rw [fixedResult.snapshotOnly_iff hgrows]
  refine and_iff_left_of_imp fun hn o ho => ?_
  have hlen : o.result.length = c.max_vid := by
    rw [fixedResult.len_run ho, fixedResult.len_construct, hn]
  simp only [view, after, written_of_length _ hlen,
    written_of_length _ (fixedResult.len_construct c.max_vid)]

end CDLP

namespace LCC

variable {F : Type*} [Zero F] [NatCast F] [Mul F] [Div F]

structure Object (F : Type*) where
  lcc_scores : List F
  num_vertices : Nat
  result : List (Nat × F)
  max_vid : Nat

def construct (n : Nat) : Object F := ⟨List.replicate n 0, n, List.replicate n (0, 0), n⟩

/-- The degree that the phases work with. -/
def deg (c : Analysed) : Nat → Nat := c.entry (fun v => (allNeighbors c.g v).length) 0

/-- The score of a vertex of degree 2 or more. -/
def score (c : Analysed) (i : Nat) : F :=
  ((c.entry (triangles (additions c.g)) 0 i : Nat) : F) /
    ((deg c i : F) * ((deg c i - 1 : Nat) : F))

/-- `compute_lcc` on the arrays of the object: `lcc_scores` is resized, a vertex of degree below 2
keeps the entry it has, and `result` is not resized. -/
def compute (o : Object F) (c : Analysed) : Option (Object F) := do
  let lcc_scores ← writeWhere (fun i => 2 ≤ deg c i) (score c) c.max_vid
    (resize o.lcc_scores c.max_vid 0)
  let result ← writeBelow (fun i => (c.key i, lcc_scores.getD i 0)) c.max_vid o.result
  return ⟨lcc_scores, o.num_vertices, result, c.max_vid⟩

def view (o : Object F) : List F × List (Nat × F) := (o.lcc_scores, o.result)

/-- The scores that a call leaves: its own, and the old ones of the vertices it passes over. -/
def finalScores (o : Object F) (c : Analysed) : List F :=
  (List.range c.max_vid).map fun i => if 2 ≤ deg c i then score c i else o.lcc_scores.getD i 0

theorem writeWhere_finalScores (o : Object F) (c : Analysed) :
    writeWhere (fun i => 2 ≤ deg c i) (score c) c.max_vid (resize o.lcc_scores c.max_vid 0) =
      some (finalScores o c) := by
  obtain ⟨l, hl, hlen, hget⟩ := writeWhere_eq_some (p := fun i => 2 ≤ deg c i) (f := score c)
    (l := resize o.lcc_scores c.max_vid 0) (n := c.max_vid) (length_resize _ _ _).ge
  rw [hl, Option.some.injEq]
  refine List.ext_getElem? fun i => ?_
  rw [hget, getElem?_resize, finalScores, List.getElem?_map]
  by_cases hi : i < c.max_vid
  · simp only [hi, true_and, decide_eq_true_eq, List.getElem?_range, Option.map_some, if_true]
    split <;> rfl
  · simp [hi]

def after (o : Object F) (c : Analysed) : Object F where
  lcc_scores := finalScores o c
  num_vertices := o.num_vertices
  result := written c (fun i => (c.key i, (finalScores o c).getD i 0)) o.result
  max_vid := c.max_vid

theorem fixedResult :
    FixedResult construct (compute (F := F)) Analysed.max_vid (·.result.length) after where
  compute_eq o c := by
    rw [compute, writeWhere_finalScores]
    simp only [Option.bind_eq_bind, Option.bind_some]
    rw [writeBelow_written]
    split <;> rfl
  len_after o c h := length_written _ h
  len_construct n := by simp [construct]

/-- A vertex of degree below 2 has no score left from an earlier call. -/
def NoStaleScore (o : Object F) (c : Analysed) : Prop :=
  ∀ v, (c.g.edges v).length < 2 → o.lcc_scores.getD v.val 0 = 0

theorem finalScores_eq_iff (o : Object F) (c : Analysed) :
    finalScores o c = finalScores (construct c.max_vid) c ↔ NoStaleScore o c := by
  have hfresh (i : Nat) : (construct c.max_vid : Object F).lcc_scores.getD i 0 = 0 := by
    simp [construct, List.getD_eq_getElem?_getD, List.getElem?_replicate]
    split <;> rfl
  have hdeg (v : Fin c.max_vid) : deg c v.val = (c.g.edges v).length := by
    simp [deg, Analysed.entry, allNeighbors, List.length_insertionSort]
  simp only [finalScores, List.map_inj_left, List.mem_range, hfresh]
  constructor
  · intro h v hv
    have := h v.val v.isLt
    rwa [hdeg, if_neg (by omega), if_neg (by omega)] at this
  · intro h i hi
    split
    · rfl
    · exact h ⟨i, hi⟩ (by rw [← hdeg]; simpa using ‹¬2 ≤ deg c i›)

/-- Besides the length of `result` the scores of the vertices that are passed over matter. -/
theorem snapshotOnly_iff {n₀ : Nat} {earlier : List Analysed} {c : Analysed}
    (hgrows : Grows Analysed.max_vid n₀ earlier c) :
    SnapshotOnly construct (compute (F := F)) view Analysed.max_vid n₀ earlier c ↔
      c.max_vid = n₀ ∧
        ∀ o, earlier.foldlM (compute (F := F)) (construct n₀) = some o → NoStaleScore o c := by
  rw [fixedResult.snapshotOnly_iff hgrows]
  refine and_congr_right fun hn => forall_congr' fun o => imp_congr_right fun ho => ?_
  have hlen : o.result.length = c.max_vid := by
    rw [fixedResult.len_run ho, fixedResult.len_construct, hn]
  rw [← finalScores_eq_iff]
  have hlen' : (construct c.max_vid : Object F).result.length = c.max_vid :=
    fixedResult.len_construct c.max_vid
  simp only [view, after, written_of_length _ hlen, written_of_length _ hlen', Prod.mk.injEq]
  exact and_iff_left_of_imp fun heq => by rw [heq]

end LCC

namespace PageRank

variable {F : Type*} [Zero F] [One F] [NatCast F] [Add F] [Sub F] [Mul F] [Div F] [DecidableEq F]

structure Object (F : Type*) where
  scores : List F
  num_vertices : Nat
  result : List (Nat × F)
  max_vid : Nat

structure Call (F : Type*) extends Analysed where
  num_iterations : Nat
  damping_factor : F

def construct (n : Nat) : Object F := ⟨List.replicate n 0, n, List.replicate n (0, 0), n⟩

/-- A result entry; `score` is compared with the largest int64_t. -/
def resultEntry (c : Call F) (score : F) (i : Nat) : Nat × F :=
  match c.mea.bind (·[i]?) with
  | some id => (id, score)
  | none =>
    if score = ((2 ^ 63 - 1 : Nat) : F) then (2 ^ 64 - 1, ((2 ^ 63 - 1 : Nat) : F)) else (i, score)

/-- `compute_pagerank` on the arrays of the object: both are resized, `num_vertices` stays the
number of vertices at the construction. -/
def compute (o : Object F) (c : Call F) : Option (Object F) := do
  let scores ← writeBelow
    (c.entry (computeScores c.g o.num_vertices c.num_iterations c.damping_factor) 0) c.max_vid
    (resize o.scores c.max_vid 0)
  let result ← writeBelow (fun i => resultEntry c (scores.getD i 0) i) c.max_vid
    (resize o.result c.max_vid (0, 0))
  return ⟨scores, o.num_vertices, result, c.max_vid⟩

/-- The arrays and the vertex count that the scores are divided by. -/
def view (o : Object F) : List F × List (Nat × F) × Nat := (o.scores, o.result, o.num_vertices)

/-- A call with `num_vertices` as its divisor. -/
def after (num_vertices : Nat) (c : Call F) : Object F :=
  let scores := (List.range c.max_vid).map
    (c.entry (computeScores c.g num_vertices c.num_iterations c.damping_factor) 0)
  ⟨scores, num_vertices,
    (List.range c.max_vid).map fun i => resultEntry c (scores.getD i 0) i, c.max_vid⟩

theorem compute_eq (o : Object F) (c : Call F) : compute o c = some (after o.num_vertices c) := by
  rw [compute, writeBelow_of_length _ (length_resize _ _ _)]
  simp only [Option.bind_eq_bind, Option.bind_some]
  rw [writeBelow_of_length _ (length_resize _ _ _)]
  rfl

/-- No write is out of range, but the divisor is the vertex count of the construction. -/
theorem snapshotOnly_iff {n₀ : Nat} {earlier : List (Call F)} {c : Call F} :
    SnapshotOnly construct (compute (F := F)) view (·.max_vid) n₀ earlier c ↔ c.max_vid = n₀ := by
  obtain ⟨o, ho, hn⟩ : ∃ o, earlier.foldlM compute (construct n₀ : Object F) = some o ∧
      o.num_vertices = n₀ := by
    suffices h : ∀ o : Object F, ∃ o', earlier.foldlM compute o = some o' ∧
        o'.num_vertices = o.num_vertices from h (construct n₀)
    induction earlier with
    | nil => exact fun o => ⟨o, rfl, rfl⟩
    | cons e earlier ih =>
      intro o
      obtain ⟨o', ho', hn⟩ := ih (after o.num_vertices e)
      exact ⟨o', by rw [List.foldlM_cons, compute_eq]; exact ho', hn⟩
  have hlast : (earlier.foldlM compute (construct n₀)).bind (compute · c) = some (after n₀ c) := by
    rw [ho, Option.bind_some, compute_eq, hn]
  rw [SnapshotOnly, hlast, compute_eq]
  constructor
  · rintro ⟨o₁, o₂, h₁, h₂, hview⟩
    obtain rfl := Option.some.inj h₁
    obtain rfl := Option.some.inj h₂
    exact (congrArg (·.2.2) hview).symm
  · rintro rfl
    exact ⟨_, _, rfl, rfl, rfl⟩

end PageRank

/-- When the final call of a class leaves what a fresh object leaves, without a write out of range:
for all four the graph must have the size it had at the construction, and for LCC no vertex of
degree below 2 may have a score left. -/
theorem analytics_only_snapshot_iff {F : Type*} [Zero F] [One F] [NatCast F] [Add F] [Sub F] [Mul F] [Div F]
    [DecidableEq F] (n₀ : Nat) :
    (∀ earlier c, Grows Analysed.max_vid n₀ earlier c →
      (SnapshotOnly LCC.construct (LCC.compute (F := F)) LCC.view Analysed.max_vid n₀ earlier c ↔
        c.max_vid = n₀ ∧ ∀ o, earlier.foldlM (LCC.compute (F := F)) (LCC.construct n₀) = some o →
          LCC.NoStaleScore o c)) ∧
    (∀ earlier c, Grows Analysed.max_vid n₀ earlier c →
      (SnapshotOnly WCC.construct WCC.compute WCC.view Analysed.max_vid n₀ earlier c ↔
        c.max_vid = n₀)) ∧
    (∀ earlier c, Grows (·.max_vid) n₀ earlier c →
      (SnapshotOnly CDLP.construct CDLP.compute CDLP.view (·.max_vid) n₀ earlier c ↔
        c.max_vid = n₀)) ∧
    ∀ earlier c, Grows (·.max_vid) n₀ earlier c →
      (SnapshotOnly PageRank.construct (PageRank.compute (F := F)) PageRank.view (·.max_vid) n₀
        earlier c ↔ c.max_vid = n₀) :=
  ⟨fun _ _ => LCC.snapshotOnly_iff, fun _ _ => WCC.snapshotOnly_iff,
    fun _ _ => CDLP.snapshotOnly_iff, fun _ _ _ => PageRank.snapshotOnly_iff⟩

def triangleGraph : Adjacency 3 := ⟨fun v => (List.finRange 3).filter (· ≠ v), fun _ => 2⟩

def triangle : Analysed := ⟨3, triangleGraph, none⟩

/-- The triangle after all of its edges have been deleted. -/
def noEdges : Analysed := ⟨3, ⟨fun _ => [], fun _ => 0⟩, none⟩

theorem analytics_only_snapshot_iff_three :
    (SnapshotOnly WCC.construct WCC.compute WCC.view Analysed.max_vid 3 [triangle] noEdges ↔
      3 = 3) ∧
    (SnapshotOnly PageRank.construct (PageRank.compute (F := Rat)) PageRank.view (·.max_vid) 1 []
      ⟨noEdges, 10, 85 / 100⟩ ↔ 3 = 1) :=
  ⟨(analytics_only_snapshot_iff (F := Rat) 3).2.1 [triangle] noEdges ⟨le_refl _, by decide⟩,
    (analytics_only_snapshot_iff (F := Rat) 1).2.2.2 [] ⟨noEdges, 10, 85 / 100⟩
      ⟨by decide, by simp⟩⟩

theorem triangles_triangle : LCC.triangles (LCC.additions triangleGraph) 0 = 2 := by
  rw [LCC.triangles_eq, LCC.count_additions, LCC.countP_found (by decide),
    LCC.countP_found (by decide), LCC.countP_found (by decide)]
  decide

/-- Objects of all four classes constructed with two vertices fail on a graph with three, and an LCC
object of the right size keeps the score of a triangle that is gone. -/
theorem analytics_depend_on_history :
    (¬SnapshotOnly LCC.construct (LCC.compute (F := Rat)) LCC.view Analysed.max_vid 2 [] triangle ∧
      ¬SnapshotOnly WCC.construct WCC.compute WCC.view Analysed.max_vid 2 [] triangle ∧
      ¬SnapshotOnly CDLP.construct CDLP.compute CDLP.view (·.max_vid) 2 []
        ⟨triangle, 10, fun _ => List.finRange 3, Fin.val⟩ ∧
      ¬SnapshotOnly PageRank.construct (PageRank.compute (F := Rat)) PageRank.view (·.max_vid) 2 []
        ⟨triangle, 10, 85 / 100⟩) ∧
      ¬SnapshotOnly LCC.construct (LCC.compute (F := Rat)) LCC.view Analysed.max_vid 3 [triangle]
        noEdges := by
  have hgrows : Grows Analysed.max_vid 2 [] triangle := ⟨by decide, by simp⟩
  refine ⟨⟨?_, ?_, ?_, ?_⟩, ?_⟩
  · rw [LCC.snapshotOnly_iff hgrows]
    exact fun h => absurd h.1 (by decide)
  · rw [WCC.snapshotOnly_iff hgrows]
    decide
  · rw [CDLP.snapshotOnly_iff ⟨by decide, by simp⟩]
    decide
  · rw [PageRank.snapshotOnly_iff]
    decide
  · rw [LCC.snapshotOnly_iff ⟨by decide, by decide⟩]
    rintro ⟨-, hstale⟩
    have hlen : triangle.max_vid ≤ (LCC.construct 3 : LCC.Object Rat).result.length := by decide
    have hrun : [triangle].foldlM (LCC.compute (F := Rat)) (LCC.construct 3) =
        some (LCC.after (LCC.construct 3) triangle) := by
      rw [List.foldlM_cons, LCC.fixedResult.compute_eq, if_pos hlen]
      rfl
    have hzero : (LCC.score triangle 0 : Rat) = 0 := hstale _ hrun (0 : Fin 3) (by decide)
    have hscore : (LCC.score triangle 0 : Rat) =
        (LCC.triangles (LCC.additions triangleGraph) 0 : Nat) / (((2 : Nat) : Rat) * (1 : Nat)) :=
      rfl
    rw [hscore, triangles_triangle] at hzero
    norm_num at hzero

end AVBGraph
