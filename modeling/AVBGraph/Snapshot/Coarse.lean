import AVBGraph.Framework.Run
import AVBGraph.Vertex.Times

namespace AVBGraph

open Framework

namespace VertexEdges

variable {S : StdSort} {env : Env} {s t : VertexEdges} {w : Write} {re : Nat}

/-- A scan of the items cannot tell the two vertices apart. -/
structure SameItems (s t : VertexEdges) : Prop where
  tmpEv : t.tmpEv = s.tmpEv
  edgesAndVersions : t.edgesAndVersions = s.edgesAndVersions
  num : t.num = s.num
  capacity : t.capacity = s.capacity
  m : t.m = s.m
  start : t.start = s.start
  tmpItem : t.tmpItem = s.tmpItem
  vbm : t.vbm = s.vbm

namespace SameItems

theorem refl (s : VertexEdges) : SameItems s s := ⟨rfl, rfl, rfl, rfl, rfl, rfl, rfl, rfl⟩

theorem trans {u : VertexEdges} (h : SameItems s t) (h' : SameItems t u) : SameItems s u :=
  ⟨h'.tmpEv.trans h.tmpEv, h'.edgesAndVersions.trans h.edgesAndVersions, h'.num.trans h.num,
    h'.capacity.trans h.capacity, h'.m.trans h.m, h'.start.trans h.start,
    h'.tmpItem.trans h.tmpItem, h'.vbm.trans h.vbm⟩

theorem rep (h : SameItems s t) (hs : Rep s) : Rep t :=
  hs.of_items h.tmpEv h.edgesAndVersions h.num h.capacity h.m h.start h.tmpItem

theorem locs (h : SameItems s t) : t.locs = s.locs := by
  rw [VertexEdges.locs, VertexEdges.locs, h.tmpEv, h.edgesAndVersions]

theorem itemE (h : SameItems s t) (l : Loc) : t.itemE l = s.itemE l := by
  cases l <;> simp [VertexEdges.itemE, h.start, h.tmpItem]

theorem itemP (h : SameItems s t) (l : Loc) : t.itemP l = s.itemP l := by
  cases l <;> simp [VertexEdges.itemP, h.start, h.tmpItem, h.capacity]

theorem itemAt (h : SameItems s t) (l : Loc) : t.itemAt l = s.itemAt l := by
  rw [VertexEdges.itemAt, VertexEdges.itemAt, h.itemE, h.itemP]

theorem item (h : SameItems s t) : t.item = s.item := by
  funext d
  rw [VertexEdges.item, VertexEdges.item, items, items, h.locs,
    show t.itemAt = s.itemAt from funext h.itemAt]

theorem openTvb (s : VertexEdges) (epoch : Nat) : SameItems s (s.openTvb .coarse epoch).2 := by
  unfold VertexEdges.openTvb
  by_cases h : (s.tmpVb (epoch % 16)).timestamp = epoch
  · rw [if_pos h]
    exact refl s
  · rw [if_neg h]
    exact ⟨rfl, rfl, rfl, rfl, rfl, rfl, rfl, rfl⟩

theorem setTmpVb (s : VertexEdges) (tmpVb : Nat → TmpVersionBlock) :
    SameItems s { s with tmpVb := tmpVb } :=
  ⟨rfl, rfl, rfl, rfl, rfl, rfl, rfl, rfl⟩

theorem insertVersion (s : VertexEdges) (w : Write)
    (edge block index link offset lastEpoch oldIntra newIntra : Nat) : SameItems s
      (s.insertVersion w edge block index link offset lastEpoch oldIntra newIntra).2 :=
  setTmpVb s _

theorem linkNext (s : VertexEdges) (pending : Bool) (lastEpoch lastIndex epoch idx : Nat) :
    SameItems s (s.linkNext pending lastEpoch lastIndex epoch idx) := by
  unfold VertexEdges.linkNext
  split_ifs
  · exact ⟨rfl, rfl, rfl, rfl, rfl, rfl, rfl, rfl⟩
  · exact refl s

/-- The new entry of an AVB_COARSE write, and the link of its predecessor. -/
theorem added (s : VertexEdges) (w : Write) (block index link offset : Nat) (l : Loc) :
    let i := s.insertVersion w w.dst block index link offset (s.coarseEpoch l) 0 0
    SameItems s (i.2.linkNext (isTmp (s.itemE l).block) (s.coarseEpoch l) (s.coarseIndex l) w.epoch
      i.1) :=
  (insertVersion ..).trans (linkNext ..)

end SameItems

section Seen

/-- The weight that a coarse reader of epoch `re` is given for an item. -/
def seen (re : Nat) (x : Item) : Option Nat :=
  if visible .coarse ⟨re, 0⟩ x then some x.2.e else none

/-- The weight that the items show it for a destination. -/
def seenAt (s : VertexEdges) (re d : Nat) : Option Nat := (s.item d).bind (seen re)

/-- The pairs of destination and weight that for_each_edge_with_property hands over to a
reader of epoch `re` in the AVB_COARSE build. -/
def coarsePairs (s : VertexEdges) (re : Nat) : Multiset (Nat × Nat) :=
  ((s.forEachEdgeWithProperty .coarse ⟨re, 0⟩).map fun x => (x.1.key, x.2.e) : List (Nat × Nat))

theorem seen_eq (re : Nat) (x : Item) : seen re x =
    if isDelete x.1.e = false ∧ x.1.getCoarseC ≤ re then some x.2.e else none := by
  simp [seen, visible, EdgeWithIndex.visibleAt, EdgeWithIndex.isVisibleAt]

theorem SameItems.seenAt (h : SameItems s t) (d : Nat) : t.seenAt re d = s.seenAt re d := by
  rw [VertexEdges.seenAt, VertexEdges.seenAt, h.item]

/-- The part of the scan that the items account for. -/
def itemPairs (s : VertexEdges) (re : Nat) : Multiset (Nat × Nat) :=
  ((s.items.filter (visible .coarse ⟨re, 0⟩)).map fun x => (x.1.key, x.2.e) : List (Nat × Nat))

theorem mem_itemPairs (h : Rep s) {d weight : Nat} :
    (d, weight) ∈ s.itemPairs re ↔ s.seenAt re d = some weight := by
  unfold itemPairs VertexEdges.seenAt
  simp only [Multiset.mem_coe, List.mem_map, List.mem_filter, Prod.mk.injEq,
    Option.bind_eq_some_iff, h.item_iff, seen]
  constructor
  · rintro ⟨x, ⟨hx, hvis⟩, hd, hw⟩
    exact ⟨x, ⟨hx, hd⟩, by rw [if_pos hvis, hw]⟩
  · rintro ⟨x, ⟨hx, hd⟩, hw⟩
    split_ifs at hw with hvis
    exact ⟨x, ⟨hx, hvis⟩, hd, Option.some.inj hw⟩

theorem nodup_itemPairs (h : Rep s) : (s.itemPairs re).Nodup := by
  have hkeys : (s.items.map keyOf).Nodup := by
    rw [items, List.map_map]
    exact List.Nodup.map_on (fun l hl k hk heq => h.loc_inj hl hk heq) s.locs_nodup
  apply Multiset.coe_nodup.mpr
  apply List.Nodup.of_map Prod.fst
  rw [List.map_map]
  exact hkeys.sublist (List.filter_sublist.map keyOf)

/-- Vertices with the same blocks give a coarse reader the same pairs exactly if their items
show it the same weights. -/
theorem coarsePairs_eq_iff (hs : Rep s) (ht : Rep t) (hvbm : t.vbm = s.vbm) :
    t.coarsePairs re = s.coarsePairs re ↔ ∀ d, t.seenAt re d = s.seenAt re d := by
  have hsplit : ∀ u : VertexEdges, u.coarsePairs re = u.itemPairs re +
      ((u.chainScan .coarse ⟨re, 0⟩).map fun x => (x.1.key, x.2.e) : List (Nat × Nat)) := by
    intro u
    simp [coarsePairs, itemPairs, forEachEdgeWithProperty]
  have hchain : t.chainScan .coarse ⟨re, 0⟩ = s.chainScan .coarse ⟨re, 0⟩ := by
    rw [VertexEdges.chainScan, VertexEdges.chainScan, hvbm]
  rw [hsplit t, hsplit s, hchain, add_left_inj, (nodup_itemPairs ht).ext (nodup_itemPairs hs)]
  constructor
  · intro hmem d
    apply Option.ext
    intro weight
    rw [← mem_itemPairs ht, ← mem_itemPairs hs]
    exact hmem (d, weight)
  · rintro hseen ⟨d, weight⟩
    rw [mem_itemPairs ht, mem_itemPairs hs, hseen]

end Seen

section Write

/-- A merge may drop deleted items only, and these show nothing. -/
theorem seenAt_prepare (h : Rep s) (d : Nat) : (s.prepare S env).seenAt re d = s.seenAt re d := by
  unfold VertexEdges.seenAt
  rcases (item_prepare h d : (s.prepare S env).item d = _ ∨ _) with heq | ⟨hnone, x, hx, hd⟩
  · rw [heq]
  · have hdel : isDelete x.1.e = true := by
      simp only [dropped, decide_eq_true_eq] at hd
      exact hd.1
    simp [hnone, hx, seen_eq, hdel]

theorem rep_prepare (h : Rep s) : Rep (s.prepare S env) := by
  unfold VertexEdges.prepare
  split_ifs with hfull
  · exact (merged S env h hfull).rep
  · exact h

theorem seenAt_setItem (h : Rep s) {l : Loc} {x : Item} (hl : l ∈ s.locs)
    (hx : x.1.key = (s.itemE l).key) (d : Nat) : (s.setItem l x).seenAt re d =
      if d = (s.itemE l).key then seen re x else s.seenAt re d := by
  unfold VertexEdges.seenAt
  rw [h.item_setItem hl hx]
  split_ifs <;> rfl

/-- The conflict test of the AVB_COARSE build, and ChangeVersion's own test. -/
def refusesCoarse (x : Item) (w : Write) : Bool :=
  let lastEpoch := if isTmp x.1.block then x.2.block else x.1.block
  conflicts w.txn lastEpoch w.epoch || (lastEpoch = w.epoch && !w.txn.writeOnly)

/-- The tail of both coarse writes: it leaves the epoch and the weight of the item alone, and
sets the DELETION bit if it is a deletion. -/
theorem writeCoarse_effect (re : Nat) (h : Rep s) {l : Loc} (hl : l ∈ s.locs) (offset : Nat)
    (delete : Bool) (w : Write) : Rep (s.writeCoarse l offset delete w).2 ∧
      (s.writeCoarse l offset delete w).2.vbm = s.vbm ∧
      ∀ d, (s.writeCoarse l offset delete w).2.seenAt re d =
        if d = (s.itemE l).key ∧ delete = true ∧ refusesCoarse (s.itemAt l) w = false then none
        else s.seenAt re d := by
  have hat : s.seenAt re (s.itemE l).key = seen re (s.itemAt l) := by
    rw [VertexEdges.seenAt, h.item_eq hl]
    rfl
  have hrefuses : refusesCoarse (s.itemAt l) w = (conflicts w.txn (s.coarseEpoch l) w.epoch ||
      (s.coarseEpoch l = w.epoch && !w.txn.writeOnly)) := rfl
  -- rewriting the words of the item, with the same epoch and weight
  have hset : ∀ (t : VertexEdges) (y : Item), SameItems s t → y.1.e = s.coarseEdge l delete →
      y.1.getCoarseC = (s.itemE l).getCoarseC → y.2.e = (s.itemP l).e →
      Rep (t.setItem l y) ∧ (t.setItem l y).vbm = s.vbm ∧
        ∀ d, (t.setItem l y).seenAt re d =
          if d = (s.itemE l).key ∧ delete = true then none else s.seenAt re d := by
    intro t y ht he hc hw
    have htl : l ∈ t.locs := by rw [ht.locs]; exact hl
    have hkey : y.1.key = (t.itemE l).key := by
      rw [ht.itemE, EdgeWithIndex.key, he]
      exact clearDelete_coarseEdge s l delete
    refine ⟨(ht.rep h).setItem hkey, vbm_setItem.trans ht.vbm, fun d => ?_⟩
    rw [seenAt_setItem (ht.rep h) htl hkey, ht.itemE, ht.seenAt]
    by_cases hd : d = (s.itemE l).key
    · rw [if_pos hd, hd, hat, seen_eq, seen_eq, he, hc, hw]
      cases delete
      · simp only [Bool.false_eq_true, and_false, if_false]
        rfl
      · simp [coarseEdge]
    · rw [if_neg hd, if_neg fun hand => hd hand.1]
  obtain ⟨hc, hr⟩ | ⟨-, hsame, hreads, hr⟩ | ⟨hc, -, hblind, vb, -, hr⟩ |
    ⟨hc, hother, block, index, link, hr⟩ := s.writeCoarse_tail l offset delete w
  · rw [← hr, hrefuses, hc]
    exact ⟨h, rfl, fun d => by simp⟩
  · rw [← hr, hrefuses, hsame, hreads]
    exact ⟨h, rfl, fun d => by simp⟩
  · have ht := SameItems.setTmpVb s (Function.update s.tmpVb (w.epoch % 16) vb)
    have haccepts : refusesCoarse (s.itemAt l) w = false := by simp [hrefuses, hc, hblind]
    rw [← hr, haccepts]
    dsimp only
    rw [(ht.rep h).setItemE_eq (ht.locs ▸ hl), ht.itemP]
    simpa only [and_true] using
      hset _ ({ s.itemE l with e := s.coarseEdge l delete }, s.itemP l) ht rfl rfl rfl
  · have haccepts : refusesCoarse (s.itemAt l) w = false := by simp [hrefuses, hc, hother]
    rw [← hr, haccepts]
    simp only [and_true]
    exact hset _ _ (SameItems.added s w block index link offset l) rfl (clearTmp_setTmp _) rfl

/-- What a reader sees of the destination after insert_edge_block has found or appended its
item. -/
def foundSeen (s : VertexEdges) (re : Nat) (w : Write) : Option Nat :=
  match s.item w.dst with
  | some x => if x.1.getCoarseC ≤ re then some x.2.e else none
  | none => some w.weight

theorem findOrAppend_seen (h : Rep s) (hlt : s.tmpEv < tmpNum) (hlook : LookupRight s w.dst)
    {f : Found} (hf : s.findOrAppend w = some f) : Rep f.state ∧ f.state.vbm = s.vbm ∧
      f.loc ∈ f.state.locs ∧ (f.state.itemE f.loc).key = w.dst ∧
      ∀ d, f.state.seenAt re d = if d = w.dst then s.foundSeen re w else s.seenAt re d := by
  cases hm : s.m w.dst with
  | true =>
    obtain ⟨l, hl, offset, hget, hk, -⟩ := hlook hm
    have hitem : s.item w.dst = some (s.itemAt l) := by rw [← hk, h.item_eq hl]
    let x : EdgeWithIndex := { s.itemE l with e := clearDelete (s.itemE l).e }
    have hx : x.key = (s.itemE l).key := by simp [x, EdgeWithIndex.key]
    have hset : s.setItemE l x = s.setItem l (x, s.itemP l) := h.setItemE_eq hl x
    obtain rfl : ⟨s.setItem l (x, s.itemP l), l, offset, isDelete (s.itemE l).e⟩ = f := by
      simpa [findOrAppend, hm, hget, x, hset] using hf
    refine ⟨h.setItem hx, vbm_setItem, ?_, ?_, fun d => ?_⟩
    · show l ∈ (s.setItem l _).locs
      rwa [locs_setItem]
    · show ((s.setItem l _).itemE l).key = w.dst
      rw [h.itemE_setItem hl, if_pos rfl, hx, hk]
    · rw [seenAt_setItem h hl hx, hk, foundSeen, hitem, seen_eq]
      simp only [x, EdgeWithIndex.getCoarseC, itemAt, isDelete_clearDelete, true_and]
      rfl
  | false =>
    let x : Item := (⟨w.dst, 0, 0⟩, { s.tmpItem (s.tmpEv + tmpNum) with e := w.weight })
    have hitem : s.item w.dst = none := by
      have := (h.m_iff w.dst).not.mp (by rw [hm]; exact Bool.false_ne_true)
      simpa using this
    obtain rfl : ⟨s.append x, .tmp s.tmpEv, setTmp s.tmpEv, false⟩ = f := by
      simpa [findOrAppend, hm, x] using hf
    refine ⟨h.append hlt w.dst_lt hm, rfl, mem_locs_append.mpr (Or.inl rfl), ?_, fun d => ?_⟩
    · show ((s.append x).itemE (.tmp s.tmpEv)).key = w.dst
      rw [show (s.append x).itemE (.tmp s.tmpEv) = x.1 from congrArg Prod.fst (itemAt_append_new hlt)]
      exact clearDelete_of_lt w.dst_lt
    · show ((s.append x).item d).bind (seen re) = _
      rw [h.item_append hlt w.dst_lt hm, foundSeen, hitem]
      by_cases hd : d = w.dst
      · have hdel : isDelete w.dst = false := isDelete_of_lt w.dst_lt
        simp [hd, x, seen_eq, hdel, EdgeWithIndex.getCoarseC, clearTmp]
      · rw [if_neg hd, if_neg hd, VertexEdges.seenAt]

theorem insert_seen (re : Nat) (h : Rep s) (hlook : LookupRight (s.prepare S env) w.dst)
    {r : WriteResult} (hr : s.insertEdgeBlock .coarse S env w = some r) : Rep r.state ∧ r.state.vbm = s.vbm ∧
      ∀ d, r.state.seenAt re d =
        if d = w.dst then (s.prepare S env).foundSeen re w else s.seenAt re d := by
  obtain ⟨f, hf, rfl⟩ := Option.map_eq_some_iff.mp hr
  obtain ⟨hrep, hvbm, hloc, hk, hseen⟩ :=
    findOrAppend_seen (rep_prepare h) (tmpEv_prepare_lt h) hlook hf
  have hopen := SameItems.openTvb f.state w.epoch
  obtain ⟨hrep', hvbm', hseen'⟩ := writeCoarse_effect re (hopen.rep hrep)
    (hopen.locs ▸ hloc) f.offset false w
  refine ⟨hrep', hvbm'.trans (hopen.vbm.trans (hvbm.trans vbm_prepare)), fun d => ?_⟩
  rw [← seenAt_prepare h d, ← hseen d, ← hopen.seenAt]
  simpa using hseen' d

/-- delete_edge_block takes the item away from every coarse reader unless it is refused. -/
theorem delete_seen (re : Nat) (h : Rep s) (hlook : LookupRight (s.prepare S env) w.dst)
    {r : WriteResult} (hr : s.deleteEdgeBlock .coarse S env w = some r) : Rep r.state ∧ r.state.vbm = s.vbm ∧
      ∀ d, r.state.seenAt re d =
        if d = w.dst ∧ ((s.prepare S env).item w.dst).any fun x => !refusesCoarse x w then none
        else s.seenAt re d := by
  have hp : Rep (s.prepare S env) := rep_prepare h
  unfold deleteEdgeBlock at hr
  simp only at hr
  cases hm : (s.prepare S env).m w.dst with
  | false =>
    have hitem : (s.prepare S env).item w.dst = none := by
      have := (hp.m_iff w.dst).not.mp (by rw [hm]; exact Bool.false_ne_true)
      simpa using this
    rw [hm, if_neg Bool.false_ne_true] at hr
    obtain rfl := Option.some.inj hr
    refine ⟨hp, vbm_prepare, fun d => ?_⟩
    rw [hitem]
    simpa using seenAt_prepare h d
  | true =>
    obtain ⟨l, hl, offset, hget, hk, -⟩ := hlook hm
    rw [hm, if_pos rfl, hget, Option.map_some] at hr
    obtain rfl := Option.some.inj hr
    have hopen := SameItems.openTvb (s.prepare S env) w.epoch
    obtain ⟨hrep, hvbm, hseen⟩ := writeCoarse_effect re (hopen.rep hp) (hopen.locs ▸ hl) offset true w
    refine ⟨hrep, hvbm.trans (hopen.vbm.trans vbm_prepare), fun d => ?_⟩
    rw [← seenAt_prepare h d, ← hopen.seenAt, ← hk, hp.item_eq hl, ← hopen.itemAt, ← hopen.itemE]
    simpa using hseen d

end Write

section Rep

theorem rep_setItemE (h : Rep s) {l : Loc} {x : EdgeWithIndex} (hx : x.key = (s.itemE l).key) :
    Rep (s.setItemE l x) := by
  have hE : ∀ k, (s.setItemE l x).itemE k = if k = l then x else s.itemE k := by
    intro k
    cases l with
    | tmp i => cases k <;> simp [setItemE, itemE, Function.update_apply]
    | start i => cases k <;> simp [setItemE, itemE, Function.update_apply]
  apply h.congr
  · cases l <;> rfl
  · cases l <;> rfl
  · cases l <;> rfl
  · cases l <;> rfl
  · cases l <;> rfl
  · intro k _
    rw [hE]
    split_ifs with hk
    · rw [hx, hk]
    · rfl

/-- A coarse write keeps the invariant of the items whatever position its lookup returns. -/
theorem rep_writeCoarse (h : Rep s) (l : Loc) (offset : Nat) (delete : Bool) :
    Rep (s.writeCoarse l offset delete w).2 := by
  obtain ⟨-, hr⟩ | ⟨-, -, -, hr⟩ | ⟨-, -, -, vb, -, hr⟩ | ⟨-, -, block, index, link, hr⟩ :=
    s.writeCoarse_tail l offset delete w
  · rw [← hr]
    exact h
  · rw [← hr]
    exact h
  · rw [← hr]
    have ht := SameItems.setTmpVb s (Function.update s.tmpVb (w.epoch % 16) vb)
    apply rep_setItemE (ht.rep h)
    rw [ht.itemE]
    exact clearDelete_coarseEdge s l delete
  · rw [← hr]
    have ht := SameItems.added s w block index link offset l
    apply (ht.rep h).setItem
    rw [ht.itemE]
    exact clearDelete_coarseEdge s l delete

theorem rep_insert (h : Rep s) {r : WriteResult}
    (hr : s.insertEdgeBlock .coarse S env w = some r) : Rep r.state := by
  obtain ⟨f, hf, rfl⟩ := Option.map_eq_some_iff.mp hr
  have hfound : Rep f.state := by
    unfold findOrAppend at hf
    split_ifs at hf with hm
    · obtain ⟨⟨l, offset⟩, -, rfl⟩ := Option.map_eq_some_iff.mp hf
      exact rep_setItemE (rep_prepare h) (clearDelete_clearDelete _)
    · obtain rfl := Option.some.inj hf
      exact (rep_prepare h).append (tmpEv_prepare_lt h) w.dst_lt (Bool.eq_false_iff.mpr hm)
  exact rep_writeCoarse ((SameItems.openTvb f.state w.epoch).rep hfound) f.loc f.offset false

theorem rep_delete (h : Rep s) {r : WriteResult}
    (hr : s.deleteEdgeBlock .coarse S env w = some r) : Rep r.state := by
  have hp : Rep (s.prepare S env) := rep_prepare h
  unfold deleteEdgeBlock at hr
  simp only at hr
  split_ifs at hr
  · obtain ⟨⟨l, offset⟩, -, rfl⟩ := Option.map_eq_some_iff.mp hr
    exact rep_writeCoarse ((SameItems.openTvb (s.prepare S env) w.epoch).rep hp) l offset true
  · obtain rfl := Option.some.inj hr
    exact hp

theorem rep_changeLast (h : Rep s) (link : VersionLink) (vb : Nat) : Rep (s.changeLast link vb) :=
  SameItems.rep (s := s) ⟨rfl, rfl, rfl, rfl, rfl, rfl, rfl, rfl⟩ h

theorem rep_publishFresh {slot epoch : Nat} {p q : Progress} {i : Nat} (h : Rep p.state)
    (hq : publishFresh .coarse slot epoch p i = some q) : Rep q.state := by
  obtain ⟨l, -, rfl⟩ := Option.map_eq_some_iff.mp hq
  simp only [reduceCtorEq, if_false]
  split_ifs
  · apply (rep_changeLast h _ _).setItem
    cases l <;> rfl
  · exact h.setItem rfl

theorem rep_publishCoarse {third : Bool} {slot epoch vb : Nat} {p q : Progress} {i : Nat}
    (h : Rep p.state) (hq : publishCoarse third slot epoch vb p i = some q) : Rep q.state := by
  obtain ⟨l, -, rfl⟩ := Option.map_eq_some_iff.mp hq
  simp only
  split_ifs
  · apply (rep_changeLast h _ _).setItem
    cases l <;> rfl
  · exact h.setItem rfl

theorem rep_transform (h : Rep s) {slot vb n : Nat}
    (ht : s.transform .coarse S slot vb = some (n, t)) : Rep t := by
  unfold transform at ht
  split_ifs at ht
  · obtain ⟨-, rfl⟩ := Prod.mk.inj (Option.some.inj ht)
    exact h
  · obtain ⟨u, hu, ht⟩ := Option.map_eq_some_iff.mp ht
    obtain ⟨-, rfl⟩ := Prod.mk.inj ht
    have hrep : Rep u.state := by
      unfold publishAll at hu
      simp only [reduceCtorEq, if_false, Option.bind_eq_bind, Option.bind_eq_some_iff] at hu
      obtain ⟨p, hp, q, hq, hu⟩ := hu
      have hp : Rep p.state := by
        apply foldlM_induction (Q := fun p => Rep p.state) _ _ hp
        · exact fun _ _ _ _ hb hc => rep_publishFresh hb hc
        · exact h
      have hq : Rep q.state := by
        apply foldlM_induction (Q := fun p => Rep p.state) _ hp hq
        exact fun _ _ _ _ hb hc => rep_publishCoarse hb hc
      apply foldlM_induction (Q := fun p => Rep p.state) _ hq hu
      exact fun _ _ _ _ hb hc => rep_publishCoarse hb hc
    exact hrep.of_items rfl rfl rfl rfl rfl rfl rfl

end Rep

end VertexEdges

open VertexEdges

namespace Coarse

/-- What may run on a vertex while the epochs above the reader's are not yet transformed. -/
inductive Pending
  | insert (env : Env) (w : Write)
  | delete (env : Env) (w : Write)
  | merge (env : Env)

variable {S : StdSort} {s t : VertexEdges} {h : History} {re : Nat}

def step (S : StdSort) (s : VertexEdges) : Pending → Option VertexEdges
  | .insert env w => (s.insertEdgeBlock .coarse S env w).map WriteResult.state
  | .delete env w => (s.deleteEdgeBlock .coarse S env w).map WriteResult.state
  | .merge env => some (s.prepare S env)

/-- The lookup of a write returns the item of the destination. -/
def FindsItem (S : StdSort) (s : VertexEdges) : Pending → Prop
  | .insert env w => (s.prepare S env).LookupRight w.dst
  | .delete env w => (s.prepare S env).LookupRight w.dst
  | .merge _ => True

/-- An insertion over an item that is live or too young for the reader; a deletion that is refused,
or of an item that the reader does not see anyway. -/
def Unseen (S : StdSort) (re : Nat) (s : VertexEdges) : Pending → Prop
  | .insert env w => ((s.prepare S env).item w.dst).any fun x =>
      !isDelete x.1.e || re < x.1.getCoarseC
  | .delete env w => ((s.prepare S env).item w.dst).all fun x =>
      isDelete x.1.e || re < x.1.getCoarseC || refusesCoarse x w
  | .merge _ => True

instance (S : StdSort) (s : VertexEdges) (e : Pending) : Decidable (FindsItem S s e) :=
  match e with
  | .insert _ _ => inferInstanceAs (Decidable (VertexEdges.LookupRight _ _))
  | .delete _ _ => inferInstanceAs (Decidable (VertexEdges.LookupRight _ _))
  | .merge _ => isTrue trivial

instance (S : StdSort) (re : Nat) (s : VertexEdges) (e : Pending) : Decidable (Unseen S re s e) :=
  match e with
  | .insert _ _ => inferInstanceAs (Decidable (_ = true))
  | .delete _ _ => inferInstanceAs (Decidable (_ = true))
  | .merge _ => isTrue trivial

theorem rep_step {op : Op} {h' : History} (hrep : Rep h.state)
    (hstep : h.step .coarse S op = some h') : Rep h'.state := by
  cases op with
  | insert env w =>
    obtain ⟨r, hr, rfl⟩ := Option.map_eq_some_iff.mp hstep
    exact rep_insert hrep hr
  | delete env w =>
    obtain ⟨r, hr, rfl⟩ := Option.map_eq_some_iff.mp hstep
    exact rep_delete hrep hr
  | transform epoch vb =>
    simp only [History.step] at hstep
    split_ifs at hstep
    obtain ⟨⟨n, u⟩, hu, rfl⟩ := Option.map_eq_some_iff.mp hstep
    exact rep_transform hrep hu

/-- The items keep their invariant in every run of the AVB_COARSE build. -/
theorem rep_run (hs : s.Built) {es : List Op}
    (hrun : exec (History.step .coarse S) ⟨s, []⟩ es = some h) : Rep h.state := by
  let Inv : History → Prop := fun h => Rep h.state
  have hbuild : Inv ⟨s, []⟩ := (hs.stamped (P := fun _ => True)).rep
  have hinv : Inv h := invariant_of_step (fun _ _ _ hrep _ hstep => rep_step hrep hstep) hbuild
    (along_true ..) hrun
  exact hinv

theorem step_seen (re : Nat) (hs : Rep s) {e : Pending} (hfind : FindsItem S s e)
    (hstep : step S s e = some t) :
    Rep t ∧ t.vbm = s.vbm ∧ (Unseen S re s e ↔ ∀ d, t.seenAt re d = s.seenAt re d) := by
  cases e with
  | insert env w =>
    obtain ⟨r, hr, rfl⟩ := Option.map_eq_some_iff.mp hstep
    obtain ⟨hrep, hvbm, hseen⟩ := insert_seen re hs hfind hr
    refine ⟨hrep, hvbm, ?_⟩
    have hiff : (∀ d, r.state.seenAt re d = s.seenAt re d) ↔
        (s.prepare S env).foundSeen re w = (s.prepare S env).seenAt re w.dst := by
      rw [seenAt_prepare hs]
      constructor
      · intro hall
        rw [← hall, hseen, if_pos rfl]
      · intro heq d
        rw [hseen]
        split_ifs with hd
        · rw [hd, heq]
        · rfl
    rw [hiff, Unseen, foundSeen, VertexEdges.seenAt]
    cases (s.prepare S env).item w.dst with
    | none => simp
    | some x =>
      -- the DELETION bit is cleared, so the item shows unless it is too young
      rw [Option.bind_some, seen_eq]
      by_cases hre : x.1.getCoarseC ≤ re
      · cases hd : isDelete x.1.e <;> simp [hre, hd]
      · simp [hre, Nat.not_le.mp hre]
  | delete env w =>
    obtain ⟨r, hr, rfl⟩ := Option.map_eq_some_iff.mp hstep
    obtain ⟨hrep, hvbm, hseen⟩ := delete_seen re hs hfind hr
    refine ⟨hrep, hvbm, ?_⟩
    have hiff : (∀ d, r.state.seenAt re d = s.seenAt re d) ↔
        (((s.prepare S env).item w.dst).any (fun x => !refusesCoarse x w) = true →
          (s.prepare S env).seenAt re w.dst = none) := by
      rw [seenAt_prepare hs]
      constructor
      · intro hall hany
        rw [← hall, hseen, if_pos ⟨rfl, hany⟩]
      · intro himp d
        rw [hseen]
        split_ifs with hd
        · rw [hd.1, himp hd.2]
        · rfl
    rw [hiff, Unseen, VertexEdges.seenAt]
    cases (s.prepare S env).item w.dst with
    | none => simp
    | some x =>
      rw [Option.bind_some, seen_eq]
      by_cases hre : x.1.getCoarseC ≤ re
      · cases hd : isDelete x.1.e <;> cases hrf : refusesCoarse x w <;> simp [hre, hd, hrf]
      · simp [hre, Nat.not_le.mp hre]
  | merge env =>
    obtain rfl := Option.some.inj hstep
    exact ⟨rep_prepare hs, vbm_prepare, iff_of_true trivial fun d => seenAt_prepare hs d⟩

/-- Writes and merges of later epochs leave a coarse snapshot alone exactly as long as none of
them is a first insertion, brings a deleted item back or deletes an item that the reader sees. -/
theorem snapshot_stable_iff (hs : s.Built) {es : List Op}
    (hrun : exec (History.step .coarse S) ⟨s, []⟩ es = some h) (re : Nat) {ps : List Pending}
    (hpending : exec (step S) h.state ps = some t) (hfind : Along (step S) (FindsItem S) h.state ps) :
    Along (step S) (Unseen S re) h.state ps ↔ ∀ qs u, qs <+: ps →
      exec (step S) h.state qs = some u → u.coarsePairs re = h.state.coarsePairs re := by
  have hrep := rep_run hs hrun
  apply along_iff_prefixes (I := fun u => Rep u ∧ u.vbm = h.state.vbm)
    (P := fun u => u.coarsePairs re = h.state.coarsePairs re) _ ⟨hrep, rfl⟩ rfl hfind hpending
  rintro u p u' ⟨hu, hvbm⟩ heq hok hstep
  obtain ⟨hu', hvbm', hiff⟩ := step_seen re hu hok hstep
  rw [hiff, ← coarsePairs_eq_iff hu hu' hvbm', heq]
  exact ⟨Iff.rfl, fun _ => ⟨hu', hvbm'.trans hvbm⟩⟩

private def writeSeven (epoch weight : Nat) (he : 0 < epoch ∧ epoch < 2 ^ 31) : Write :=
  ⟨7, weight, epoch, ⟨true, 0, 0, 0⟩, Write.seven_lt, Write.pos_of_epoch he, Write.lt_of_epoch he⟩

/-- Edge 7 is published in epoch 1. -/
private def publishSeven : List Op :=
  [.insert History.freshEnv (writeSeven 1 5 Write.epoch_one), .transform 1 100]

/-- An overwrite of epoch 2 leaves the snapshot of epoch 1 alone. -/
theorem snapshot_stable_iff_overwrite : ∃ h t,
    exec (History.step .coarse .stable) History.fresh publishSeven = some h ∧
    exec (step .stable) h.state [.insert History.freshEnv (writeSeven 2 6 (by decide))] = some t ∧
    t.coarsePairs 1 = h.state.coarsePairs 1 := by
  obtain ⟨h, hrun, hsome, hfind, hun⟩ : ∃ h,
      exec (History.step .coarse .stable) History.fresh publishSeven = some h ∧
      (exec (step .stable) h.state
        [.insert History.freshEnv (writeSeven 2 6 (by decide))]).isSome = true ∧
      Along (step .stable) (FindsItem .stable) h.state
        [.insert History.freshEnv (writeSeven 2 6 (by decide))] ∧
      Along (step .stable) (Unseen .stable 1) h.state
        [.insert History.freshEnv (writeSeven 2 6 (by decide))] := by
    apply exists_exec
    decide +kernel
  obtain ⟨t, hpending⟩ := Option.isSome_iff_exists.mp hsome
  refine ⟨h, t, hrun, hpending, ?_⟩
  have hbuilt : History.fresh.state.Built := ⟨[], [], _, _, rfl, List.Pairwise.nil, by simp⟩
  exact (snapshot_stable_iff hbuilt hrun 1 hpending hfind).mp hun _ t List.prefix_rfl hpending

/-- Every write up to the epoch is transformed. -/
def Published (s : VertexEdges) (re : Nat) : Prop :=
  ∀ k < 16, (s.tmpVb k).entries = [] ∨ re < (s.tmpVb k).timestamp

def Later (re : Nat) : Pending → Prop
  | .insert _ w => re < w.epoch
  | .delete _ w => re < w.epoch
  | .merge _ => True

/-- After edge 7 is published in epoch 1, its deletion in epoch 2, still pending, takes it out of
the snapshot of epoch 1. -/
theorem delete_disturbs : ¬∀ (S : StdSort) (s : VertexEdges) (es : List Op) (h : History) (re : Nat)
    (p : Pending) (t : VertexEdges), s.Built → exec (History.step .coarse S) ⟨s, []⟩ es = some h →
      Published h.state re → Later re p → FindsItem S h.state p → step S h.state p = some t →
      t.coarsePairs re = h.state.coarsePairs re := by
  intro hall
  let p : Pending := .delete History.freshEnv (writeSeven 2 0 (by decide))
  obtain ⟨h, hrun, hpub, hsome, hfind, hne⟩ : ∃ h,
      exec (History.step .coarse .stable) History.fresh publishSeven = some h ∧
      (∀ k < 16, (h.state.tmpVb k).entries = [] ∨ 1 < (h.state.tmpVb k).timestamp) ∧
      (step .stable h.state p).isSome = true ∧ FindsItem .stable h.state p ∧
      ((step .stable h.state p).all fun t =>
        t.coarsePairs 1 ≠ h.state.coarsePairs 1) = true := by
    apply exists_exec
    decide +kernel
  obtain ⟨t, hstep⟩ := Option.isSome_iff_exists.mp hsome
  have hbuilt : History.fresh.state.Built := ⟨[], [], _, _, rfl, List.Pairwise.nil, by simp⟩
  rw [hstep] at hne
  simp only [Option.all_some, decide_eq_true_eq] at hne
  have hlater : Later 1 p := Nat.lt_succ_self 1
  exact hne (hall .stable _ _ h 1 p t hbuilt hrun hpub hlater hfind hstep)

end Coarse

end AVBGraph
