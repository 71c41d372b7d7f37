import AVBGraph.Framework.Loop
import AVBGraph.Vertex.Read

namespace AVBGraph

open Framework

variable {σ : Type*}

/-- `__builtin_ctz` of the active mask, `none` for an empty mask. -/
def lowestSlot (mask : Nat → Bool) : Option Nat := (List.range 16).find? mask

/-- The loop over the active mask, which clears its lowest bit in every round. -/
def maskLoop (body : σ → Nat → σ × Bool) : Nat → (Nat → Bool) → σ → σ × Bool
  | 0, _, acc => (acc, false)
  | fuel + 1, mask, acc =>
    match lowestSlot mask with
    | none => (acc, false)
    | some idx =>
      thenDo (body acc idx) fun acc => maskLoop body fuel (Function.update mask idx false) acc

/-- SetEdgeFG of the local edge that a TVB scan hands to its callback. -/
def VersionEntry.oldEdge (x : VersionEntry) : EdgeWithIndex := ⟨x.edge, x.lastEpoch, x.oldIntraC⟩

/-- SetPropFG of its property half. -/
def VersionEntry.oldProp (x : VersionEntry) : EdgeWithIndex := ⟨x.weight, 0, x.newIntraC⟩

namespace Traversal

/-- The last statement of the three functions: the block for the iterator, `none` when
`need_iterator` stays false. -/
def lastVB (b : Build) (s : VertexEdges) (readTs : Composite) : Option (List VersionBlock) :=
  match b with
  | .fineGrain => if readTs.e ≤ s.vbm.endEpoch ∧ s.vbm.vbs ≠ [] then some s.vbm.vbs else none
  | .coarse => if readTs.e < s.vbm.endEpoch ∧ s.vbm.vbs ≠ [] then some s.vbm.vbs else none

section Plain

variable (b : Build) (s : VertexEdges) (readTs : Composite) (callback : σ → EdgeWithIndex → σ)

/-- iterate_edges. -/
def iterateEdges (acc : σ) : σ × Option (List VersionBlock) :=
  let visit := fun acc (i : EdgeWithIndex) =>
    if !isDelete i.e && i.visibleAt b readTs then (callback acc i, Flow.next) else (acc, .next)
  let acc := (loop visit acc ((List.range s.tmpEv).map s.tmpItem)).1
  let acc := (loop visit acc ((List.range s.edgesAndVersions).map s.start)).1
  let acc :=
    if b = .fineGrain then
      (maskLoop (fun acc idx =>
        ((loop (fun acc ent =>
          if isDelete ent.edge then (acc, Flow.next)
          else if ¬readTs ≤ ⟨(s.tmpVb idx).timestamp, ent.newIntraC⟩ then (acc, .leave)
          else if ent.old < readTs then (callback acc ent.oldEdge, .next)
          else (acc, .next)) acc (s.tmpVb idx).entries.reverse).1, false))
        16 s.vbm.activeTvbMask acc).1
    else acc
  (acc, lastVB b s readTs)

/-- The iterator loop of for_each_edge. -/
def iteratorLoop : Nat → Option (List VersionBlock) → σ → σ
  | fuel + 1, some (vb :: rest), acc =>
    let acc :=
      if b = .fineGrain ∧ vb.timestamp = readTs.e then
        (loop (fun acc r =>
          if r.1.isVisibleAtCompositeInv readTs ⟨readTs.e, r.2.index⟩ then
            (callback acc r.1, Flow.next)
          else (acc, .leave)) acc vb.records).1
      else
        (loop (fun acc r =>
          if r.1.isVisibleAt readTs.e then (callback acc r.1, Flow.next)
          else (acc, .leave)) acc vb.records).1
    iteratorLoop fuel (getNext b readTs.e (vb :: rest)) acc
  | _, _, acc => acc

/-- for_each_edge as the code runs it. -/
def forEachEdge (acc : σ) : σ :=
  match iterateEdges b s readTs callback acc with
  | (acc, none) => acc
  | (acc, some vbs) =>
    iteratorLoop b readTs callback vbs.length (findIndex b readTs.e vbs) acc

end Plain

section Condition

variable (b : Build) (s : VertexEdges) (readTs : Composite)
  (callback : σ → EdgeWithIndex → σ × Bool)

/-- iterate_edges_condition; a return leaves `need_iterator` false. -/
def iterateEdgesCondition (acc : σ) : σ × Option (List VersionBlock) :=
  let visit := fun acc (i : EdgeWithIndex) =>
    if !isDelete i.e && i.visibleAt b readTs then call (callback acc i) else (acc, .next)
  let r :=
    thenDo (loop visit acc ((List.range s.tmpEv).map s.tmpItem)) fun acc =>
    thenDo (loop visit acc ((List.range s.edgesAndVersions).map s.start)) fun acc =>
      if b = .fineGrain then
        maskLoop (fun acc idx =>
          loop (fun acc ent =>
            if isDelete ent.edge then (acc, Flow.next)
            else if ¬readTs ≤ ⟨(s.tmpVb idx).timestamp, ent.newIntraC⟩ then (acc, .leave)
            else if ent.old < readTs then call (callback acc ent.oldEdge)
            else (acc, .next)) acc (s.tmpVb idx).entries.reverse)
          16 s.vbm.activeTvbMask acc
      else (acc, false)
  (r.1, if r.2 then none else lastVB b s readTs)

/-- The iterator loop of for_each_edge_condition. -/
def iteratorLoopCondition : Nat → Option (List VersionBlock) → σ → σ × Bool
  | fuel + 1, some (vb :: rest), acc =>
    thenDo
      (if b = .fineGrain ∧ vb.timestamp = readTs.e then
        loop (fun acc r =>
          if r.1.isVisibleAtCompositeInv readTs ⟨readTs.e, r.2.index⟩ then
            call (callback acc r.1)
          else (acc, .leave)) acc vb.records
      else
        loop (fun acc r =>
          if r.1.isVisibleAt readTs.e then call (callback acc r.1)
          else (acc, .leave)) acc vb.records)
      fun acc => iteratorLoopCondition fuel (getNext b readTs.e (vb :: rest)) acc
  | _, _, acc => (acc, false)

/-- for_each_edge_condition as the code runs it. -/
def forEachEdgeCondition (acc : σ) : σ :=
  match iterateEdgesCondition b s readTs callback acc with
  | (acc, none) => acc
  | (acc, some vbs) =>
    (iteratorLoopCondition b readTs callback vbs.length (findIndex b readTs.e vbs) acc).1

end Condition

section Property

variable (b : Build) (s : VertexEdges) (readTs : Composite)
  (callback : σ → EdgeWithIndex → EdgeWithIndex → σ)

/-- iterate_edges_with_property: the property half of an entry of the buffer lies TMPNUM
behind it, that of a primary entry `capacity`. -/
def iterateEdgesWithProperty (acc : σ) : σ × Option (List VersionBlock) :=
  let acc := (loop (fun acc i =>
    if !isDelete (s.tmpItem i).e && (s.tmpItem i).visibleAt b readTs then
      (callback acc (s.tmpItem i) (s.tmpItem (i + tmpNum)), Flow.next)
    else (acc, .next)) acc (List.range s.tmpEv)).1
  let acc := (loop (fun acc i =>
    if !isDelete (s.start i).e && (s.start i).visibleAt b readTs then
      (callback acc (s.start i) (s.start (i + s.capacity)), Flow.next)
    else (acc, .next)) acc (List.range s.edgesAndVersions)).1
  let acc :=
    if b = .fineGrain then
      (maskLoop (fun acc idx =>
        ((loop (fun acc ent =>
          if isDelete ent.edge then (acc, Flow.next)
          else if ¬readTs ≤ ⟨(s.tmpVb idx).timestamp, ent.newIntraC⟩ then (acc, .leave)
          else if ent.old < readTs then (callback acc ent.oldEdge ent.oldProp, .next)
          else (acc, .next)) acc (s.tmpVb idx).entries.reverse).1, false))
        16 s.vbm.activeTvbMask acc).1
    else acc
  (acc, lastVB b s readTs)

/-- The iterator loop of for_each_edge_with_property. -/
def iteratorLoopWithProperty : Nat → Option (List VersionBlock) → σ → σ
  | fuel + 1, some (vb :: rest), acc =>
    let acc :=
      if b = .fineGrain ∧ vb.timestamp = readTs.e then
        (loop (fun acc r =>
          if r.1.isVisibleAtCompositeInv readTs ⟨readTs.e, r.2.index⟩ then
            (callback acc r.1 r.2, Flow.next)
          else (acc, .leave)) acc vb.records).1
      else
        (loop (fun acc r =>
          if r.1.isVisibleAt readTs.e then (callback acc r.1 r.2, Flow.next)
          else (acc, .leave)) acc vb.records).1
    iteratorLoopWithProperty fuel (getNext b readTs.e (vb :: rest)) acc
  | _, _, acc => acc

/-- for_each_edge_with_property as the code runs it. -/
def forEachEdgeWithProperty (acc : σ) : σ :=
  match iterateEdgesWithProperty b s readTs callback acc with
  | (acc, none) => acc
  | (acc, some vbs) =>
    iteratorLoopWithProperty b readTs callback vbs.length (findIndex b readTs.e vbs) acc

end Property

section Loops

/-- The loop over the mask visits its slots in ascending order. -/
theorem maskLoop_eq (body : σ → Nat → σ × Bool) (slots : List Nat) :
    ∀ (mask : Nat → Bool) (fuel : Nat) (acc : σ),
      (List.range 16).filter mask = slots → slots.length ≤ fuel →
        maskLoop body fuel mask acc = loop (fun acc idx => call (body acc idx)) acc slots := by
  induction slots with
  | nil =>
    intro mask fuel acc hslots _
    have hnone : lowestSlot mask = none := by
      rw [lowestSlot, ← List.head?_filter, hslots]
      rfl
    cases fuel with
    | zero => rfl
    | succ n =>
      rw [maskLoop, hnone]
      rfl
  | cons idx slots ih =>
    intro mask fuel acc hslots hf
    obtain ⟨n, rfl⟩ : ∃ n, fuel = n + 1 := ⟨fuel - 1, by simp at hf; omega⟩
    have hlow : lowestSlot mask = some idx := by
      rw [lowestSlot, ← List.head?_filter, hslots]
      rfl
    have hclear : (List.range 16).filter (Function.update mask idx false) = slots := by
      have hnodup : (idx :: slots).Nodup := hslots ▸ List.nodup_range.filter mask
      have hne : ∀ i ∈ slots, i ≠ idx := by
        rintro i hi rfl
        exact (List.nodup_cons.mp hnodup).1 hi
      have hsplit : Function.update mask idx false = fun i => decide (i ≠ idx) && mask i := by
        funext i
        by_cases hi : i = idx <;> simp [hi]
      rw [hsplit, ← List.filter_filter, hslots, List.filter_cons_of_neg (by simp)]
      exact List.filter_eq_self.mpr fun i hi => decide_eq_true (hne i hi)
    rw [maskLoop, hlow, loop_cons_call]
    dsimp only
    congr 1
    funext acc
    exact ih _ n acc hclear (by simpa using hf)

/-- The loop over the entries of one TmpVersionBlock, for a callback of old versions. -/
theorem loop_scanTvb (callback : σ → Item → σ × Bool) (readTs : Composite) (timestamp : Nat)
    (acc : σ) (es : List VersionEntry) :
    loop (fun acc (ent : VersionEntry) =>
        if isDelete ent.edge then (acc, Flow.next)
        else if ¬readTs ≤ ⟨timestamp, ent.newIntraC⟩ then (acc, .leave)
        else if ent.old < readTs then call (callback acc (ent.oldEdge, ent.oldProp))
        else (acc, .next)) acc es =
      feed callback acc (scanTvb readTs timestamp es) := by
  induction es generalizing acc with
  | nil => rfl
  | cons x es ih =>
    rw [scanTvb]
    by_cases hdel : isDelete x.edge = true
    · rw [loop_next (if_pos hdel), if_pos hdel]
      exact ih acc
    · rw [if_neg hdel]
      by_cases hinv : readTs ≤ ⟨timestamp, x.newIntraC⟩
      · rw [if_pos hinv]
        by_cases hold : x.old < readTs
        · rw [loop_call (by rw [if_neg hdel, if_neg (not_not.mpr hinv), if_pos hold]),
            if_pos hold, feed]
          congr 1
          funext acc
          exact ih acc
        · rw [loop_next (by rw [if_neg hdel, if_neg (not_not.mpr hinv), if_neg hold]),
            if_neg hold]
          exact ih acc
      · rw [loop_leave (by rw [if_neg hdel, if_pos hinv]), if_neg hinv]
        rfl

/-- The scan of the active TmpVersionBlocks. -/
theorem maskLoop_scanTvbs (callback : σ → Item → σ × Bool) (s : VertexEdges) (readTs : Composite)
    (acc : σ) :
    maskLoop (fun acc idx => feed callback acc
        (scanTvb readTs (s.tmpVb idx).timestamp (s.tmpVb idx).entries.reverse))
        16 s.vbm.activeTvbMask acc =
      feed callback acc (s.scanTvbs readTs) := by
  have hlen : ((List.range 16).filter s.vbm.activeTvbMask).length ≤ 16 := by
    simpa using List.length_filter_le s.vbm.activeTvbMask (List.range 16)
  rw [maskLoop_eq _ _ _ _ _ rfl hlen, loop_flatMap, VertexEdges.scanTvbs]
  congr 1
  induction List.range 16 with
  | nil => rfl
  | cons slot slots ih =>
    rw [List.flatMap_cons, ← ih]
    by_cases hslot : s.vbm.activeTvbMask slot = true
    · rw [List.filter_cons_of_pos hslot, if_pos hslot, List.flatMap_cons]
    · rw [List.filter_cons_of_neg hslot, if_neg hslot, List.nil_append]

end Loops

section Condition

variable {b : Build} {s : VertexEdges} {readTs : Composite}
  {callback : σ → EdgeWithIndex → σ × Bool}

/-- The edge halves of the buffer and of the primary adjacency that a scan emits. -/
theorem map_fst_items :
    (s.items.filter (VertexEdges.visible b readTs)).map Prod.fst =
      ((List.range s.tmpEv).map s.tmpItem).filter
          (fun i => !isDelete i.e && i.visibleAt b readTs) ++
        ((List.range s.edgesAndVersions).map s.start).filter
          fun i => !isDelete i.e && i.visibleAt b readTs := by
  simp only [VertexEdges.items, VertexEdges.locs, List.map_append, List.filter_append, List.map_map,
    List.filter_map]
  rfl

/-- What a scan hands out before it walks the version blocks. -/
def scanned (b : Build) (s : VertexEdges) (readTs : Composite) : List Item :=
  s.items.filter (VertexEdges.visible b readTs) ++
    if b = .fineGrain then s.scanTvbs readTs else []

theorem forEachEdge_eq_scanned :
    s.forEachEdge b readTs =
      (scanned b s readTs).map Prod.fst ++ (s.chainScan b readTs).map Prod.fst :=
  List.map_append

theorem chainScan_eq :
    s.chainScan b readTs =
      match lastVB b s readTs with
      | none => []
      | some vbs => walkFrom b readTs vbs.length (findIndex b readTs.e vbs) := by
  cases b with
  | fineGrain =>
    simp only [VertexEdges.chainScan, lastVB, walk]
    by_cases hnil : s.vbm.vbs = []
    · simp [hnil, findIndex, walkFrom]
    · by_cases hle : readTs.e ≤ s.vbm.endEpoch <;> simp [hle, hnil]
  | coarse =>
    simp only [VertexEdges.chainScan, lastVB, walk]
    by_cases hnil : s.vbm.vbs = []
    · simp [hnil, findIndex, walkFrom]
    · by_cases hlt : readTs.e < s.vbm.endEpoch <;> simp [hlt, hnil]

theorem iteratorLoopCondition_eq : ∀ fuel o (acc : σ),
    iteratorLoopCondition b readTs callback fuel o acc =
      feed callback acc ((walkFrom b readTs fuel o).map Prod.fst) := by
  intro fuel
  induction fuel with
  | zero =>
    intro o acc
    cases o <;> rfl
  | succ n ih =>
    intro o acc
    cases o with
    | none => rfl
    | some vbs =>
      cases vbs with
      | nil => rfl
      | cons vb rest =>
        rw [iteratorLoopCondition, walkFrom, List.map_append, feed_append, emitBlock]
        congr 1
        · by_cases hown : b = .fineGrain ∧ vb.timestamp = readTs.e
          · rw [if_pos hown, if_pos hown, feed_map, ← loop_takeWhile]
          · rw [if_neg hown, if_neg hown, feed_map, ← loop_takeWhile]
        · funext acc
          exact ih _ acc

/-- What iterate_edges_condition hands to its callback, from the items and the
TmpVersionBlocks. -/
theorem iterateEdgesCondition_eq (acc : σ) :
    iterateEdgesCondition b s readTs callback acc =
      let r := feed callback acc ((scanned b s readTs).map Prod.fst)
      (r.1, if r.2 then none else lastVB b s readTs) := by
  have htvbs : ∀ acc : σ,
      (if b = .fineGrain then
        maskLoop (fun acc idx =>
          loop (fun acc ent =>
            if isDelete ent.edge then (acc, Flow.next)
            else if ¬readTs ≤ ⟨(s.tmpVb idx).timestamp, ent.newIntraC⟩ then (acc, .leave)
            else if ent.old < readTs then call (callback acc ent.oldEdge)
            else (acc, .next)) acc (s.tmpVb idx).entries.reverse)
          16 s.vbm.activeTvbMask acc
      else (acc, false)) =
      feed callback acc ((if b = .fineGrain then s.scanTvbs readTs else []).map Prod.fst) := by
    intro acc
    by_cases hb : b = .fineGrain
    · rw [if_pos hb, if_pos hb, feed_map, ← maskLoop_scanTvbs]
      congr 1
      funext acc idx
      exact loop_scanTvb (fun acc x => callback acc x.1) readTs _ acc _
    · rw [if_neg hb, if_neg hb]
      rfl
  rw [scanned, List.map_append, map_fst_items, feed_append, feed_append, iterateEdgesCondition]
  simp only [htvbs, loop_filter, thenDo_assoc]

/-- for_each_edge_condition hands the emitted edges to its callback until that returns true. -/
theorem forEachEdgeCondition_eq (acc : σ) :
    forEachEdgeCondition b s readTs callback acc =
      (feed callback acc (s.forEachEdge b readTs)).1 := by
  rw [forEachEdgeCondition, iterateEdgesCondition_eq, forEachEdge_eq_scanned, feed_append,
    chainScan_eq]
  dsimp only
  obtain ⟨acc, returned⟩ := feed callback acc ((scanned b s readTs).map Prod.fst)
  cases returned with
  | true => rfl
  | false =>
    rw [thenDo_false, if_neg (by simp)]
    cases lastVB b s readTs with
    | none => rfl
    | some vbs => exact congrArg Prod.fst (iteratorLoopCondition_eq _ _ acc)

end Condition

section Callback

variable {b : Build} {s : VertexEdges} {readTs : Composite}

/-- The scan of the active TmpVersionBlocks with a callback that is never asked to stop. -/
theorem maskLoop_foldl (g : σ → Item → σ) (acc : σ) :
    (maskLoop (fun acc idx =>
      ((loop (fun acc (ent : VersionEntry) =>
        if isDelete ent.edge then (acc, Flow.next)
        else if ¬readTs ≤ ⟨(s.tmpVb idx).timestamp, ent.newIntraC⟩ then (acc, .leave)
        else if ent.old < readTs then (g acc (ent.oldEdge, ent.oldProp), .next)
        else (acc, .next)) acc (s.tmpVb idx).entries.reverse).1, false))
      16 s.vbm.activeTvbMask acc).1 = (s.scanTvbs readTs).foldl g acc := by
  have h := maskLoop_scanTvbs (fun acc x => (g acc x, false)) s readTs acc
  rw [feed_foldl] at h
  apply Eq.trans _ (congrArg Prod.fst h)
  congr 2
  funext acc idx
  have hloop := loop_scanTvb (fun acc x => (g acc x, false)) readTs (s.tmpVb idx).timestamp acc
    (s.tmpVb idx).entries.reverse
  rw [feed_foldl] at hloop ⊢
  have hfst := congrArg Prod.fst hloop
  exact Prod.ext hfst rfl

/-- The record loop in one block. -/
theorem block_foldl (g : σ → Item → σ) (vb : VersionBlock) (acc : σ) :
    (if b = .fineGrain ∧ vb.timestamp = readTs.e then
      (loop (fun acc (r : Item) =>
        if r.1.isVisibleAtCompositeInv readTs ⟨readTs.e, r.2.index⟩ then (g acc r, Flow.next)
        else (acc, .leave)) acc vb.records).1
    else
      (loop (fun acc (r : Item) =>
        if r.1.isVisibleAt readTs.e then (g acc r, Flow.next)
        else (acc, .leave)) acc vb.records).1) = (emitBlock b readTs vb).foldl g acc := by
  rw [emitBlock, loop_takeWhile_foldl, loop_takeWhile_foldl]
  split_ifs <;> rfl

theorem iteratorLoop_eq (callback : σ → EdgeWithIndex → σ) : ∀ fuel o (acc : σ),
    iteratorLoop b readTs callback fuel o acc =
      (walkFrom b readTs fuel o).foldl (fun acc x => callback acc x.1) acc := by
  intro fuel
  induction fuel with
  | zero =>
    intro o acc
    cases o <;> rfl
  | succ n ih =>
    intro o acc
    cases o with
    | none => rfl
    | some vbs =>
      cases vbs with
      | nil => rfl
      | cons vb rest =>
        rw [iteratorLoop, walkFrom, List.foldl_append, ← block_foldl]
        exact ih _ _

theorem iteratorLoopWithProperty_eq (callback : σ → EdgeWithIndex → EdgeWithIndex → σ) :
    ∀ fuel o (acc : σ), iteratorLoopWithProperty b readTs callback fuel o acc =
      (walkFrom b readTs fuel o).foldl (fun acc x => callback acc x.1 x.2) acc := by
  intro fuel
  induction fuel with
  | zero =>
    intro o acc
    cases o <;> rfl
  | succ n ih =>
    intro o acc
    cases o with
    | none => rfl
    | some vbs =>
      cases vbs with
      | nil => rfl
      | cons vb rest =>
        rw [iteratorLoopWithProperty, walkFrom, List.foldl_append, ← block_foldl]
        exact ih _ _

/-- The items handed out in one loop over the buffer and one over the primary adjacency. -/
theorem items_foldl (g : σ → Item → σ) (acc : σ) :
    (loop (fun acc i =>
      if !isDelete (s.start i).e && (s.start i).visibleAt b readTs then
        (g acc (s.itemAt (.start i)), Flow.next)
      else (acc, .next))
      (loop (fun acc i =>
        if !isDelete (s.tmpItem i).e && (s.tmpItem i).visibleAt b readTs then
          (g acc (s.itemAt (.tmp i)), Flow.next)
        else (acc, .next)) acc (List.range s.tmpEv)).1 (List.range s.edgesAndVersions)).1 =
      (s.items.filter (VertexEdges.visible b readTs)).foldl g acc := by
  rw [loop_filter_foldl (fun acc i => g acc (s.itemAt (.start i))),
    loop_filter_foldl (fun acc i => g acc (s.itemAt (.tmp i))), VertexEdges.items,
    VertexEdges.locs, List.map_append, List.map_map, List.map_map, List.filter_append,
    List.foldl_append, List.filter_map, List.filter_map, List.foldl_map, List.foldl_map]
  rfl

/-- for_each_edge hands out the emitted edges in their order. -/
theorem forEachEdge_eq (callback : σ → EdgeWithIndex → σ) (acc : σ) :
    forEachEdge b s readTs callback acc = (s.forEachEdge b readTs).foldl callback acc := by
  have hscan : iterateEdges b s readTs callback acc =
      (((scanned b s readTs).map Prod.fst).foldl callback acc, lastVB b s readTs) := by
    rw [iterateEdges, scanned, List.map_append, map_fst_items, List.foldl_append,
      List.foldl_append]
    simp only [loop_filter_foldl]
    by_cases hb : b = .fineGrain
    · rw [if_pos hb, if_pos hb, List.foldl_map, ← maskLoop_foldl]
    · rw [if_neg hb, if_neg hb]
      rfl
  rw [forEachEdge, hscan, forEachEdge_eq_scanned, List.foldl_append, chainScan_eq]
  cases lastVB b s readTs with
  | none => rfl
  | some vbs =>
    dsimp only
    rw [iteratorLoop_eq, ← List.foldl_map]

/-- for_each_edge_with_property hands out the emitted items in their order. -/
theorem forEachEdgeWithProperty_eq (callback : σ → EdgeWithIndex → EdgeWithIndex → σ) (acc : σ) :
    forEachEdgeWithProperty b s readTs callback acc =
      (s.forEachEdgeWithProperty b readTs).foldl (fun acc x => callback acc x.1 x.2) acc := by
  have hscan : (iterateEdgesWithProperty b s readTs callback acc) =
      ((scanned b s readTs).foldl (fun acc x => callback acc x.1 x.2) acc,
        lastVB b s readTs) := by
    rw [iterateEdgesWithProperty, scanned, List.foldl_append, ← items_foldl]
    by_cases hb : b = .fineGrain
    · rw [if_pos hb, if_pos hb, ← maskLoop_foldl]
      rfl
    · rw [if_neg hb, if_neg hb]
      rfl
  rw [forEachEdgeWithProperty, hscan, VertexEdges.forEachEdgeWithProperty, List.foldl_append,
    chainScan_eq]
  cases lastVB b s readTs with
  | none => rfl
  | some vbs => exact iteratorLoopWithProperty_eq callback _ _ _

/-- The edges that a traversal hands to its callback, in their order. -/
def emission (b : Build) (s : VertexEdges) (readTs : Composite) : List EdgeWithIndex :=
  forEachEdge b s readTs (fun calls x => calls ++ [x]) []

theorem emission_eq : emission b s readTs = s.forEachEdge b readTs := by
  rw [emission, forEachEdge_eq]
  induction s.forEachEdge b readTs using List.reverseRecOn with
  | nil => rfl
  | append_singleton xs x ih => rw [List.foldl_concat, ih]

/-- for_each_edge_condition calls its predicate on the edges of for_each_edge up to the first
hit, and for_each_edge_with_property hands out the edges of for_each_edge. -/
theorem calls_eq (b : Build) (s : VertexEdges) (readTs : Composite) (p : EdgeWithIndex → Bool) :
    (∃ calls rest, forEachEdgeCondition b s readTs (fun calls x => (calls ++ [x], p x)) [] = calls ∧
        emission b s readTs = calls ++ rest ∧
        ((rest = [] ∧ ∀ x ∈ emission b s readTs, p x = false) ∨
          ∃ before x, calls = before ++ [x] ∧ p x = true ∧ ∀ y ∈ before, p y = false)) ∧
      forEachEdgeWithProperty b s readTs (fun calls x _ => calls ++ [x]) [] =
        emission b s readTs := by
  have hcalls : forEachEdgeCondition b s readTs (fun calls x => (calls ++ [x], p x)) [] =
      upTo p (emission b s readTs) := by
    rw [forEachEdgeCondition_eq, feed_calls, emission_eq, List.nil_append]
  constructor
  · obtain ⟨rest, hrest⟩ := upTo_spec p (emission b s readTs)
    exact ⟨_, rest, hcalls, hrest⟩
  · rw [forEachEdgeWithProperty_eq, emission, forEachEdge_eq, VertexEdges.forEachEdge,
      List.foldl_map]

end Callback

end Traversal

end AVBGraph
