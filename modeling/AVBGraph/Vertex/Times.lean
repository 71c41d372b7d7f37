import AVBGraph.Vertex.Effects

namespace AVBGraph

open Framework

/-- Every creation time that an item or a buffered entry shows is one of `P`. -/
structure Stamped (P : Composite → Prop) (s : VertexEdges) : Prop where
  rep : VertexEdges.Rep s
  item : ∀ l ∈ s.locs, (s.itemE l).creation = ⟨0, 0⟩ ∨ P (s.itemE l).creation
  entry : ∀ k, ∀ c ∈ s.view.changes k, P ⟨s.view.stamp k, c.intra⟩
  stamp : ∀ k, s.view.stamp k < 2 ^ 31

/-- The times of a version record. -/
def recordTimes (vb : VersionBlock) (r : Item) : Composite × Composite :=
  (⟨r.1.block, r.1.index⟩, ⟨vb.timestamp, r.2.index⟩)

/-- Superseded versions have a non-empty validity interval, and the new times of a
TmpVersionBlock increase. -/
structure TimeOrdered (v : View) : Prop where
  interval : ∀ k, ∀ c ∈ v.changes k, c.old < ⟨v.stamp k, c.intra⟩
  ascending : ∀ k, (v.changes k).Pairwise fun c c' => c.intra < c'.intra
  record : ∀ vb ∈ v.vbm.vbs, ∀ r ∈ vb.records, (recordTimes vb r).1 < (recordTimes vb r).2

namespace TimeOrdered

variable {v : View} {w : Write}

theorem openTvb (h : TimeOrdered v) (epoch : Nat) : TimeOrdered (v.openTvb epoch) := by
  refine ⟨fun k c hc => ?_, fun k => ?_, ?_⟩
  · obtain ⟨hmem, hts⟩ := View.mem_changes_openTvb hc
    rw [hts]
    exact h.interval k c hmem
  · rw [View.changes_openTvb]
    split_ifs
    · exact List.Pairwise.nil
    · exact h.ascending k
  · rw [View.vbs_openTvb]
    exact h.record

theorem addVersion (h : TimeOrdered v) {delete pending : Bool} {last : Composite}
    {lastIndex weight : Nat} (hts : v.stamp (w.epoch % 16) = w.epoch) (hlast : last < w.time)
    (hnew : ∀ c ∈ v.changes (w.epoch % 16), c.intra < w.txn.intra) :
    TimeOrdered (v.addVersion delete pending last lastIndex weight w) := by
  refine ⟨fun k c hc => ?_, fun k => ?_, ?_⟩
  · rw [View.stamp_addVersion]
    rcases View.mem_addVersion hc with ⟨c', hc', herase⟩ | ⟨rfl, herase⟩
    · obtain ⟨-, -, hold, hintra⟩ := Change.erase_eq_erase.mp herase
      rw [← hold, ← hintra]
      exact h.interval k c' hc'
    · have hold : last = c.old := congrArg Change.old herase
      have hintra : w.txn.intra = c.intra := congrArg Change.intra herase
      rw [← hold, ← hintra, hts]
      exact hlast
  · have hmap : ∀ cs : List Change, (cs.Pairwise fun c c' => c.intra < c'.intra) ↔
        (cs.map Change.erase).Pairwise fun c c' => c.intra < c'.intra := by
      intro cs
      rw [List.pairwise_map]
      rfl
    rw [hmap, View.addVersion_erase, List.pairwise_append, ← hmap]
    refine ⟨h.ascending k, by split_ifs <;> simp, fun a ha b hb => ?_⟩
    split_ifs at hb with hk
    · subst hk
      obtain rfl := List.mem_singleton.mp hb
      obtain ⟨c, hc, rfl⟩ := List.mem_map.mp ha
      exact hnew c hc
    · simp at hb
  · rw [View.vbm_addVersion]
    exact h.record

end TimeOrdered

namespace VertexEdges

variable {S : StdSort} {env : Env} {s : VertexEdges} {w : Write} {P P' : Composite → Prop}

/-- Everything except heads and degree only depends on the version blocks. -/
theorem view_congr {t : VertexEdges} (h : t.tmpVb = s.tmpVb) :
    t.view.changes = s.view.changes ∧ t.view.stamp = s.view.stamp := by
  simp only [view, h, and_self]

/-- The bookkeeping of addVersion in the version blocks, for any position. -/
theorem view_addVersion (l : Loc) (offset : Nat) (delete : Bool) {lastEpoch : Nat}
    (hle : lastEpoch < 2 ^ 31) (lastIndex oldIntra : Nat) :
    let v := s.view.addVersion delete (isTmp (s.itemE l).block) ⟨lastEpoch, oldIntra⟩ lastIndex 0 w
    (s.addVersion l offset delete lastEpoch lastIndex oldIntra w).view.changes = v.changes ∧
      (s.addVersion l offset delete lastEpoch lastIndex oldIntra w).view.stamp = v.stamp ∧
      (s.addVersion l offset delete lastEpoch lastIndex oldIntra w).view.vbm = v.vbm := by
  intro v
  unfold VertexEdges.addVersion
  simp only
  set edge := if delete then setDelete w.dst else w.dst with hedge
  set r := s.insertVersion w edge lastEpoch lastIndex (lastEpoch * 2 ^ 32 + lastIndex) offset
    lastEpoch oldIntra w.txn.intra with hr
  have hvt := view_linkNext (s := r.2) (isTmp (s.itemE l).block) lastEpoch lastIndex r.1 w.epoch_lt
  rw [show r.2.view = _ from view_insertVersion w edge _ _ _ _ _ _ _, clearTmp_of_lt hle] at hvt
  have hidx : r.1 = (s.view.changes (w.epoch % 16)).length := by
    simp [hr, VertexEdges.insertVersion, TmpVersionBlock.insertVersion, view]
  set t := r.2.linkNext (isTmp (s.itemE l).block) lastEpoch lastIndex w.epoch r.1 with ht
  have hset : ∀ x : Item, (t.setItem l x).view.changes = t.view.changes ∧
      (t.setItem l x).view.stamp = t.view.stamp ∧ (t.setItem l x).view.vbm = t.view.vbm := by
    intro x
    simp [view]
  obtain ⟨h1, h2, h3⟩ := hset (⟨if delete then setDelete (s.itemE l).e else (s.itemE l).e,
    setTmp w.epoch, w.txn.intra⟩, ⟨(s.itemP l).e, if delete then 0 else r.1, 0⟩)
  rw [h1, h2, h3, hvt, hidx]
  exact ⟨rfl, rfl, rfl⟩

/-- The creation time of the item of a destination, and that of its version if it is not
deleted. -/
def foundTime (s : VertexEdges) (d : Nat) : Composite :=
  (s.item d).elim ⟨0, 0⟩ fun y => y.1.creation

def liveTime (s : VertexEdges) (d : Nat) : Composite :=
  (s.item d).elim ⟨0, 0⟩ fun y => if isDelete y.1.e then ⟨0, 0⟩ else y.1.creation

section Stamped

theorem stamped_prepare (h : Stamped P s) : Stamped P (s.prepare S env) := by
  have hprep : (s.prepare S env).tmpVb = s.tmpVb := tmpVb_prepare
  obtain ⟨hchanges, hstamp⟩ := view_congr hprep
  have hitem : Rep (s.prepare S env) ∧
      ∀ x ∈ (s.prepare S env).items, x ∈ s.items := by
    unfold VertexEdges.prepare
    split_ifs with hfull
    · have hm := merged S env h.rep hfull
      exact ⟨hm.rep, hm.old⟩
    · exact ⟨h.rep, fun _ hx => hx⟩
  refine ⟨hitem.1, fun l hl => ?_, by rw [hchanges, hstamp]; exact h.entry, by rw [hstamp]; exact h.stamp⟩
  obtain ⟨k, hk, hkl⟩ := List.mem_map.mp (hitem.2 _ (List.mem_map_of_mem hl))
  have hE : s.itemE k = (s.prepare S env).itemE l := congrArg Prod.fst hkl
  rw [← hE]
  exact h.item k hk

theorem stamped_setItem (h : Stamped P s) {l : Loc} {x : Item} (hx : x.1.key = (s.itemE l).key)
    (ht : l ∈ s.locs → x.1.creation = ⟨0, 0⟩ ∨ P x.1.creation) : Stamped P (s.setItem l x) := by
  obtain ⟨hchanges, hstamp⟩ := view_congr (tmpVb_setItem (s := s) (l := l) (x := x))
  refine ⟨h.rep.setItem hx, fun k hk => ?_, by rw [hchanges, hstamp]; exact h.entry,
    by rw [hstamp]; exact h.stamp⟩
  rw [locs_setItem] at hk
  rw [h.rep.itemE_setItem hk]
  split_ifs with hkl
  · exact ht (hkl ▸ hk)
  · exact h.item k hk

/-- Version blocks and degree may change under the items. -/
theorem stamped_of_items (h : Stamped P s) {t : VertexEdges} (htmpEv : t.tmpEv = s.tmpEv)
    (hn : t.edgesAndVersions = s.edgesAndVersions) (hnum : t.num = s.num)
    (hcap : t.capacity = s.capacity) (hm : t.m = s.m) (hstart : t.start = s.start)
    (htmp : t.tmpItem = s.tmpItem) (hPP : ∀ c, P c → P' c)
    (hentry : ∀ k, ∀ c ∈ t.view.changes k, P' ⟨t.view.stamp k, c.intra⟩)
    (hstamp : ∀ k, t.view.stamp k < 2 ^ 31) : Stamped P' t := by
  have hlocs : t.locs = s.locs := by rw [locs, locs, htmpEv, hn]
  refine ⟨h.rep.of_items htmpEv hn hnum hcap hm hstart htmp, fun l hl => ?_, hentry, hstamp⟩
  have hE : t.itemE l = s.itemE l := by cases l <;> simp [itemE, hstart, htmp]
  rw [hE]
  exact (h.item l (hlocs ▸ hl)).imp_right (hPP _)

theorem stamped_openTvb (h : Stamped P s) {epoch : Nat} (he : epoch < 2 ^ 31) :
    Stamped P (s.openTvb .fineGrain epoch).2 := by
  have hview := view_openTvb (s := s) epoch
  have hentry : ∀ k, ∀ c ∈ (s.view.openTvb epoch).changes k,
      P ⟨(s.view.openTvb epoch).stamp k, c.intra⟩ := by
    intro k c hc
    obtain ⟨hmem, hts⟩ := View.mem_changes_openTvb hc
    rw [hts]
    exact h.entry k c hmem
  have hstamp : ∀ k, (s.view.openTvb epoch).stamp k < 2 ^ 31 := by
    intro k
    rw [View.stamp_openTvb]
    split_ifs
    · exact he
    · exact h.stamp k
  rw [← hview] at hentry hstamp
  refine stamped_of_items h ?_ ?_ ?_ ?_ ?_ ?_ ?_ (fun _ hc => hc) hentry hstamp <;>
    (unfold VertexEdges.openTvb; split_ifs <;> rfl)

theorem stamped_addVersion (h : Stamped P s) (hPP : ∀ c, P c → P' c) (hw : P' w.time)
    (hts : s.view.stamp (w.epoch % 16) = w.epoch) (l : Loc) (offset : Nat) (delete : Bool)
    {lastEpoch : Nat} (hle : lastEpoch < 2 ^ 31) (lastIndex oldIntra : Nat) :
    Stamped P' (s.addVersion l offset delete lastEpoch lastIndex oldIntra w) := by
  obtain ⟨hchanges, hstamp, -⟩ :=
    view_addVersion (s := s) (w := w) l offset delete hle lastIndex oldIntra
  rw [View.stamp_addVersion] at hstamp
  have hentry : ∀ k, ∀ c ∈ (s.view.addVersion delete (isTmp (s.itemE l).block)
      ⟨lastEpoch, oldIntra⟩ lastIndex 0 w).changes k, P' ⟨s.view.stamp k, c.intra⟩ := by
    intro k c hc
    rcases View.mem_addVersion hc with ⟨c', hc', herase⟩ | ⟨rfl, herase⟩
    · obtain ⟨-, -, -, hintra⟩ := Change.erase_eq_erase.mp herase
      rw [← hintra]
      exact hPP _ (h.entry k c' hc')
    · have hintra : w.txn.intra = c.intra := congrArg Change.intra herase
      rw [← hintra, hts]
      exact hw
  set edge := if delete then setDelete w.dst else w.dst with hedge
  set r := s.insertVersion w edge lastEpoch lastIndex (lastEpoch * 2 ^ 32 + lastIndex) offset
    lastEpoch oldIntra w.txn.intra with hr
  set t := r.2.linkNext (isTmp (s.itemE l).block) lastEpoch lastIndex w.epoch r.1 with ht
  have htlocs : t.locs = s.locs := by
    simp only [ht, hr, VertexEdges.linkNext]
    split_ifs <;> rfl
  have htitem : ∀ k, t.itemE k = s.itemE k := by
    intro k
    simp only [ht, hr, VertexEdges.linkNext]
    split_ifs <;> (cases k <;> rfl)
  have htrep : Rep t := by
    refine h.rep.of_items ?_ ?_ ?_ ?_ ?_ ?_ ?_ <;>
      (simp only [ht, hr, VertexEdges.linkNext]; split_ifs <;> rfl)
  have hkey : EdgeWithIndex.key ⟨if delete then setDelete (s.itemE l).e else (s.itemE l).e,
      setTmp w.epoch, w.txn.intra⟩ = (t.itemE l).key := by
    rw [htitem]
    cases delete <;> simp [EdgeWithIndex.key]
  refine ⟨htrep.setItem hkey, fun k hk => ?_, by rw [hchanges, hstamp]; exact hentry,
    by rw [hstamp]; exact h.stamp⟩
  have hk' : k ∈ t.locs := by rwa [← locs_setItem (s := t)]
  unfold VertexEdges.addVersion
  simp only [← hedge, ← hr, ← ht]
  rw [htrep.itemE_setItem hk']
  by_cases hkl : k = l
  · right
    rw [if_pos hkl, creation_setTmp _ w.epoch_lt]
    exact hw
  · rw [if_neg hkl, htitem]
    exact (h.item k (htlocs ▸ hk')).imp_right (hPP _)

end Stamped

section Write

/-- The item on which an insertion works. -/
structure FoundAt (P : Composite → Prop) (p : VertexEdges) (w : Write) (f : Found) : Prop where
  stamped : Stamped P f.state
  tmpVb : f.state.tmpVb = p.tmpVb
  vbm : f.state.vbm = p.vbm
  loc : f.loc ∈ f.state.locs
  creation : (f.state.itemE f.loc).creation = p.foundTime w.dst
  wasDeleted : f.wasDeleted = (p.item w.dst).elim false fun y => isDelete y.1.e

theorem findOrAppend_found (h : Stamped P s) (hlt : s.tmpEv < tmpNum) (hlook : LookupRight s w.dst) :
    ∃ f, s.findOrAppend w = some f ∧ FoundAt P s w f := by
  cases hm : s.m w.dst with
  | true =>
    obtain ⟨l, hl, offset, hget, hk, -⟩ := hlook hm
    have hitem : s.item w.dst = some (s.itemAt l) := by rw [← hk, h.rep.item_eq hl]
    let x : EdgeWithIndex := { s.itemE l with e := clearDelete (s.itemE l).e }
    have hx : x.key = (s.itemE l).key := by simp [x, EdgeWithIndex.key]
    have hset : s.setItemE l x = s.setItem l (x, s.itemP l) := h.rep.setItemE_eq hl x
    refine ⟨⟨s.setItemE l x, l, offset, isDelete (s.itemE l).e⟩, by simp [findOrAppend, hm, hget, x],
      ?_, ?_, ?_, ?_, ?_, ?_⟩
    · show Stamped P (s.setItemE l x)
      rw [hset]
      exact stamped_setItem h hx fun hl => h.item l hl
    · show (s.setItemE l x).tmpVb = s.tmpVb
      rw [hset, tmpVb_setItem]
    · show (s.setItemE l x).vbm = s.vbm
      rw [hset, vbm_setItem]
    · show l ∈ (s.setItemE l x).locs
      rwa [hset, locs_setItem]
    · show ((s.setItemE l x).itemE l).creation = s.foundTime w.dst
      rw [hset, h.rep.itemE_setItem hl, if_pos rfl, foundTime, hitem]
      rfl
    · rw [hitem]
      rfl
  | false =>
    let x : Item := (⟨w.dst, 0, 0⟩, { s.tmpItem (s.tmpEv + tmpNum) with e := w.weight })
    have hitem : s.item w.dst = none := by
      have := (h.rep.m_iff w.dst).not.mp (by rw [hm]; exact Bool.false_ne_true)
      simpa using this
    have hat : (s.append x).itemAt (.tmp s.tmpEv) = x := itemAt_append_new hlt
    have hzero : x.1.creation = ⟨0, 0⟩ := by
      simp [x, EdgeWithIndex.creation, EdgeWithIndex.getCoarseC, clearTmp]
    refine ⟨⟨s.append x, .tmp s.tmpEv, setTmp s.tmpEv, false⟩, by simp [findOrAppend, hm, x],
      ⟨h.rep.append hlt w.dst_lt hm, fun k hk => ?_, h.entry, h.stamp⟩, rfl, rfl,
      mem_locs_append.mpr (Or.inl rfl), ?_, by rw [hitem]; rfl⟩
    · rcases mem_locs_append.mp hk with rfl | hk
      · left
        rw [show (s.append x).itemE (.tmp s.tmpEv) = x.1 from congrArg Prod.fst hat, hzero]
      · rw [show (s.append x).itemE k = s.itemE k from congrArg Prod.fst (itemAt_append hlt hk)]
        exact h.item k hk
    · show ((s.append x).itemE (.tmp s.tmpEv)).creation = s.foundTime w.dst
      rw [show (s.append x).itemE (.tmp s.tmpEv) = x.1 from congrArg Prod.fst hat, hzero, foundTime,
        hitem]
      rfl

/-- What a write does when `last` is the version that its conflict test looks at. -/
structure WriteEffect (P : Composite → Prop) (p : VertexEdges) (w : Write) (last : Composite)
    (r : WriteResult) (t : VertexEdges) : Prop where
  stamped : Stamped P t
  ordered : TimeOrdered p.view → TimeOrdered t.view
  state : (r.accepted = false ∧ r.state = t) ∨
    (r.accepted = true ∧ conflicts w.txn last.e w.epoch = false ∧ last.e < 2 ^ 31 ∧
      t.view.stamp (w.epoch % 16) = w.epoch ∧
      (∀ c ∈ t.view.changes (w.epoch % 16),
        p.view.stamp (w.epoch % 16) = w.epoch ∧ c ∈ p.view.changes (w.epoch % 16)) ∧
      ∃ l offset delete lastIndex,
        r.state = t.addVersion l offset delete last.e lastIndex last.i w)

variable {last : Composite} {r : WriteResult} {t : VertexEdges}

theorem WriteEffect.stamped_state (h : WriteEffect P s w last r t) (hPP : ∀ c, P c → P' c)
    (hw : r.accepted = true → P' w.time) : Stamped P' r.state := by
  rcases h.state with ⟨-, hst⟩ | ⟨hacc, -, hlt, hts, -, l, offset, delete, lastIndex, hst⟩
  · rw [hst]
    exact stamped_of_items h.stamped rfl rfl rfl rfl rfl rfl rfl hPP
      (fun k c hc => hPP _ (h.stamped.entry k c hc)) h.stamped.stamp
  · rw [hst]
    exact stamped_addVersion h.stamped hPP (hw hacc) hts l offset delete hlt lastIndex last.i

theorem WriteEffect.ordered_state (h : WriteEffect P s w last r t) (ho : TimeOrdered s.view)
    (hlast : r.accepted = true → last < w.time)
    (hnew : r.accepted = true → s.view.stamp (w.epoch % 16) = w.epoch →
      ∀ c ∈ s.view.changes (w.epoch % 16), c.intra < w.txn.intra) : TimeOrdered r.state.view := by
  rcases h.state with ⟨-, hst⟩ | ⟨hacc, -, hlt, hts, hold, l, offset, delete, lastIndex, hst⟩
  · rw [hst]
    exact h.ordered ho
  · obtain ⟨hchanges, hstamp, hvbm⟩ :=
      view_addVersion (s := t) (w := w) l offset delete hlt lastIndex last.i
    have hord : TimeOrdered
        (t.view.addVersion delete (isTmp (t.itemE l).block) last lastIndex 0 w) :=
      (h.ordered ho).addVersion hts (hlast hacc) fun c hc =>
        hnew hacc (hold c hc).1 c (hold c hc).2
    rw [hst]
    refine ⟨?_, ?_, ?_⟩
    · rw [hchanges, hstamp]
      exact hord.interval
    · rw [hchanges]
      exact hord.ascending
    · rw [hvbm]
      exact hord.record

theorem WriteEffect.passes (h : WriteEffect P s w last r t) (hacc : r.accepted = true) :
    conflicts w.txn last.e w.epoch = false := by
  rcases h.state with ⟨href, -⟩ | ⟨-, hpass, -⟩
  · rw [hacc] at href
    cases href
  · exact hpass

/-- A TmpVersionBlock that the write opens is empty. -/
theorem mem_openTvb {v : View} {epoch : Nat} {c : Change}
    (hc : c ∈ (v.openTvb epoch).changes (epoch % 16)) :
    v.stamp (epoch % 16) = epoch ∧ c ∈ v.changes (epoch % 16) := by
  obtain ⟨hmem, hts⟩ := View.mem_changes_openTvb hc
  rw [View.stamp_openTvb, if_pos rfl] at hts
  exact ⟨hts.symm, hmem⟩

theorem insert_effect (h : Stamped P s) (hlook : LookupRight (s.prepare S env) w.dst)
    (hr : s.insertEdgeBlock .fineGrain S env w = some r) :
    ∃ t, WriteEffect P s w ((s.prepare S env).liveTime w.dst) r t := by
  obtain ⟨f, hf, hfound⟩ :=
    findOrAppend_found (stamped_prepare h) (tmpEv_prepare_lt h.rep) hlook
  obtain ⟨hstamped, htmp, hvbm, hloc, hcreation, hwas⟩ := hfound
  rw [tmpVb_prepare] at htmp
  rw [vbm_prepare] at hvbm
  set t := (f.state.openTvb .fineGrain w.epoch).2 with ht
  have htv : t.view = f.state.view.openTvb w.epoch := view_openTvb w.epoch
  obtain ⟨hchanges, hstamp⟩ := view_congr htmp
  have hE : t.itemE f.loc = f.state.itemE f.loc :=
    congrArg Prod.fst (openTvb_items .fineGrain w.epoch f.loc).2
  have hlast : (⟨if f.wasDeleted then 0 else (t.itemE f.loc).getCoarseC,
      if f.wasDeleted then 0 else (t.itemE f.loc).index⟩ : Composite) =
      (s.prepare S env).liveTime w.dst := by
    rw [hE, hwas, liveTime]
    rw [foundTime] at hcreation
    cases hi : (s.prepare S env).item w.dst with
    | none =>
      rw [hi] at hcreation
      simpa [EdgeWithIndex.creation] using hcreation
    | some y =>
      rw [hi] at hcreation
      cases hd : isDelete y.1.e with
      | false => simpa [hd, EdgeWithIndex.creation] using hcreation
      | true => simp [hd]
  have hfr : (t.insertFine f.loc f.offset f.wasDeleted w).1 = r.accepted ∧
      (t.insertFine f.loc f.offset f.wasDeleted w).2 = r.state := by
    simp only [insertEdgeBlock, hf, Option.map_some, Option.some.injEq] at hr
    rw [← hr]
    exact ⟨rfl, rfl⟩
  refine ⟨t, stamped_openTvb hstamped w.epoch_lt, fun ho => ?_, ?_⟩
  · rw [htv]
    apply TimeOrdered.openTvb
    refine ⟨?_, ?_, ?_⟩
    · rw [hchanges, hstamp]
      exact ho.interval
    · rw [hchanges]
      exact ho.ascending
    · rw [show f.state.view.vbm = s.view.vbm from hvbm]
      exact ho.record
  · rw [← hlast]
    simp only [insertFine] at hfr
    by_cases hc : conflicts w.txn (if f.wasDeleted then 0 else (t.itemE f.loc).getCoarseC)
        w.epoch = true
    · rw [if_pos hc] at hfr
      exact Or.inl ⟨hfr.1.symm, hfr.2.symm⟩
    · rw [if_neg hc] at hfr
      refine Or.inr ⟨hfr.1.symm, Bool.eq_false_iff.mpr hc, ?_, ?_, ?_, f.loc, f.offset, false, _, hfr.2.symm⟩
      · dsimp only
        split_ifs
        · decide
        · exact Nat.mod_lt _ (by decide)
      · rw [htv, View.stamp_openTvb, if_pos rfl]
      · intro c hc'
        rw [htv] at hc'
        rw [← hchanges, ← hstamp]
        exact mem_openTvb hc'

theorem delete_effect (h : Stamped P s) (hlook : LookupRight (s.prepare S env) w.dst)
    (hr : s.deleteEdgeBlock .fineGrain S env w = some r) :
    ∃ t, WriteEffect P s w ((s.prepare S env).foundTime w.dst) r t := by
  have hp : Stamped P (s.prepare S env) := stamped_prepare h
  have hord : TimeOrdered s.view → TimeOrdered (s.prepare S env).view := by
    intro ho
    have hprep : (s.prepare S env).tmpVb = s.tmpVb := tmpVb_prepare
    obtain ⟨hchanges, hstamp⟩ := view_congr hprep
    refine ⟨?_, ?_, ?_⟩
    · rw [hchanges, hstamp]
      exact ho.interval
    · rw [hchanges]
      exact ho.ascending
    · rw [show (s.prepare S env).view.vbm = s.view.vbm from vbm_prepare]
      exact ho.record
  unfold deleteEdgeBlock at hr
  simp only at hr
  cases hm : (s.prepare S env).m w.dst with
  | false =>
    rw [hm, if_neg Bool.false_ne_true] at hr
    obtain rfl := Option.some.inj hr
    exact ⟨s.prepare S env, hp, hord, Or.inl ⟨rfl, rfl⟩⟩
  | true =>
    obtain ⟨l, hl, offset, hget, hk, -⟩ := hlook hm
    rw [hm, if_pos rfl, hget, Option.map_some] at hr
    have hprep : (s.prepare S env).tmpVb = s.tmpVb := tmpVb_prepare
    obtain ⟨hchanges, hstamp⟩ := view_congr hprep
    set t := ((s.prepare S env).openTvb .fineGrain w.epoch).2 with ht
    have htv : t.view = (s.prepare S env).view.openTvb w.epoch := view_openTvb w.epoch
    have hE : t.itemE l = (s.prepare S env).itemE l :=
      congrArg Prod.fst (openTvb_items .fineGrain w.epoch l).2
    have hlast : (s.prepare S env).foundTime w.dst = (t.itemE l).creation := by
      rw [hE, foundTime, ← hk, hp.rep.item_eq hl]
      rfl
    have hfr : (t.deleteFine l offset w).1 = r.accepted ∧ (t.deleteFine l offset w).2 = r.state := by
      obtain rfl := Option.some.inj hr
      exact ⟨rfl, rfl⟩
    refine ⟨t, stamped_openTvb hp w.epoch_lt, fun ho => ?_, ?_⟩
    · rw [htv]
      exact (hord ho).openTvb w.epoch
    · rw [hlast]
      simp only [deleteFine] at hfr
      by_cases hc : conflicts w.txn (t.itemE l).getCoarseC w.epoch = true
      · rw [if_pos hc] at hfr
        exact Or.inl ⟨hfr.1.symm, hfr.2.symm⟩
      · rw [if_neg hc] at hfr
        refine Or.inr ⟨hfr.1.symm, Bool.eq_false_iff.mpr hc, Nat.mod_lt _ (by decide), ?_, ?_, l, offset, true, _,
          hfr.2.symm⟩
        · rw [htv, View.stamp_openTvb, if_pos rfl]
        · intro c hc'
          rw [htv] at hc'
          rw [← hchanges, ← hstamp]
          exact mem_openTvb hc'

end Write

section Publish

variable {slot : Nat}

/-- The loops of Transform keep the TmpVersionBlocks and the manager, and every record shows the
times of a buffered entry. -/
structure Publishing (P : Composite → Prop) (s : VertexEdges) (slot : Nat) (t : Progress) : Prop where
  stamped : Stamped P t.state
  changes : t.state.view.changes = s.view.changes
  stamp : t.state.view.stamp = s.view.stamp
  vbm : t.state.vbm = s.vbm
  record : ∀ r ∈ t.records, ∃ c ∈ s.view.changes slot,
    r.1.block = c.old.e ∧ r.1.index = c.old.i ∧ r.2.index = c.intra

theorem Publishing.entry {t : Progress} (h : Publishing P s slot t) {i : Nat}
    (hi : i < (s.view.changes slot).length) :
    (t.state.entry slot i).change ∈ s.view.changes slot := by
  rw [← view_changes_getD, h.changes, List.getD_eq_getElem _ _ hi]
  exact List.getElem_mem hi

theorem Publishing.time {t : Progress} (h : Publishing P s slot t) {i : Nat}
    (hi : i < (s.view.changes slot).length) :
    P ⟨s.view.stamp slot, (t.state.entry slot i).newIntraC⟩ := by
  have := h.stamped.entry slot (t.state.entry slot i).change (by rw [h.changes]; exact h.entry hi)
  rwa [h.stamp] at this

theorem creation_mk (e i : Nat) {epoch : Nat} (h : epoch < 2 ^ 31) :
    EdgeWithIndex.creation ⟨e, epoch, i⟩ = ⟨epoch, i⟩ := by
  simp [EdgeWithIndex.creation, EdgeWithIndex.getCoarseC, clearTmp_of_lt h]

theorem Publishing.setItem {t : Progress} (h : Publishing P s slot t) {l : Loc} {x : Item}
    (hx : x.1.key = (t.state.itemE l).key)
    (ht : l ∈ t.state.locs → x.1.creation = ⟨0, 0⟩ ∨ P x.1.creation) (edgeNum : Int) :
    Publishing P s slot { t with state := t.state.setItem l x, edgeNum := edgeNum } := by
  obtain ⟨hchanges, hstamp⟩ := view_congr (tmpVb_setItem (s := t.state) (l := l) (x := x))
  exact ⟨stamped_setItem h.stamped hx ht, hchanges.trans h.changes, hstamp.trans h.stamp,
    (vbm_setItem (s := t.state)).trans h.vbm, h.record⟩

theorem Publishing.changeLast {t : Progress} (h : Publishing P s slot t) (link : VersionLink)
    (vb : Nat) : Publishing P s slot { t with state := t.state.changeLast link vb } := by
  have hview := view_changeLast (s := t.state) link vb
  refine ⟨stamped_of_items h.stamped rfl rfl rfl rfl rfl rfl rfl (fun _ hc => hc) ?_ ?_, ?_, ?_, ?_,
    h.record⟩
  · rw [hview]
    exact h.stamped.entry
  · rw [hview]
    exact h.stamped.stamp
  · rw [hview]
    exact h.changes
  · rw [hview]
    exact h.stamp
  · exact h.vbm

theorem publishing_fresh {t t' : Progress} (h : Publishing P s slot t) {i : Nat}
    (hi : i < (s.view.changes slot).length)
    (ht : publishFresh .fineGrain slot (s.view.stamp slot) t i = some t') :
    Publishing P s slot t' := by
  obtain ⟨l, -, rfl⟩ := Option.map_eq_some_iff.mp ht
  simp only [reduceCtorEq, if_false, if_true]
  split_ifs with hnext
  · apply (h.changeLast (t.state.entry slot i).link 0).setItem
    · show _ = ((t.state.changeLast (t.state.entry slot i).link 0).itemE l).key
      rw [(changeLast_items _ 0 l).2]
    · intro hl
      exact h.stamped.item l hl
  · apply h.setItem
    · rfl
    · intro _
      right
      rw [creation_mk _ _ (h.stamp ▸ h.stamped.stamp slot)]
      exact h.time hi

theorem publishing_fine {t t' : Progress} (h : Publishing P s slot t) {i : Nat}
    (hi : i < (s.view.changes slot).length)
    (ht : publishFine slot (s.view.stamp slot) t i = some t') : Publishing P s slot t' := by
  obtain ⟨l, -, rfl⟩ := Option.map_eq_some_iff.mp ht
  let x : Item := (⟨(t.state.itemE l).e, s.view.stamp slot, (t.state.entry slot i).newIntraC⟩,
    ⟨if isDelete (t.state.entry slot i).edge then 0 else (t.state.entry slot i).weight,
      t.records.length, 0⟩)
  have htime : x.1.creation = ⟨0, 0⟩ ∨ P x.1.creation := by
    right
    rw [creation_mk _ _ (h.stamp ▸ h.stamped.stamp slot)]
    exact h.time hi
  have hset := h.setItem (l := l) (x := x) rfl (fun _ => htime) t.edgeNum
  refine ⟨hset.stamped, hset.changes, hset.stamp, hset.vbm, fun r hr => ?_⟩
  rcases List.mem_append.mp hr with hr | hr
  · exact h.record r hr
  · obtain rfl := List.mem_singleton.mp hr
    exact ⟨_, h.entry hi, rfl, rfl, rfl⟩

theorem publishing_all (h : Stamped P s) {vb : Nat} {t : Progress}
    (ht : publishAll .fineGrain S slot vb s = some t) : Publishing P s slot t := by
  have hinit : Publishing P s slot ⟨s, 0, []⟩ := ⟨h, rfl, rfl, rfl, by simp⟩
  unfold publishAll at ht
  simp only [if_true, Option.bind_eq_bind, Option.bind_eq_some_iff] at ht
  obtain ⟨t₁, ht₁, t₂, ht₂, ht⟩ := ht
  set order := transformOrder S (s.tmpVb slot).entries with horder
  have hfresh : ∀ i ∈ order.takeWhile fun i => decide ((s.entry slot i).lastEpoch = 0),
      i < (s.view.changes slot).length :=
    fun i hi => transformOrder_lt ((List.takeWhile_prefix _).subset hi)
  have hrest : ∀ i ∈ order.dropWhile fun i => decide ((s.entry slot i).lastEpoch = 0),
      i < (s.view.changes slot).length :=
    fun i hi => transformOrder_lt ((List.dropWhile_suffix _).subset hi)
  have h₁ : Publishing P s slot t₁ := by
    refine foldlM_induction (fun b i hi c hb hc => ?_) hinit ht₁
    exact publishing_fresh hb (hfresh i (List.mem_of_mem_filter hi)) hc
  have h₂ : Publishing P s slot t₂ := by
    refine foldlM_induction (fun b i hi c hb hc => ?_) h₁ ht₂
    exact publishing_fine hb (hrest i hi) hc
  refine foldlM_induction (fun b i hi c hb hc => ?_) h₂ ht
  exact publishing_fine hb (hfresh i (List.mem_of_mem_filter hi)) hc

/-- Transform keeps the times, and every record of its block has a non-empty interval. -/
theorem transform_times (h : Stamped P s) {vb n : Nat} {t : VertexEdges}
    (ht : transform .fineGrain S slot vb s = some (n, t)) :
    Stamped P t ∧ (TimeOrdered s.view → TimeOrdered t.view) := by
  unfold transform at ht
  split_ifs at ht with hnil
  · obtain ⟨-, rfl⟩ := Prod.mk.inj (Option.some.inj ht)
    exact ⟨h, id⟩
  · obtain ⟨u, hu, ht⟩ := Option.map_eq_some_iff.mp ht
    obtain ⟨-, rfl⟩ := Prod.mk.inj ht
    have hpub := publishing_all h hu
    set t := pushBlock .fineGrain slot (s.tmpVb slot).timestamp vb u with htdef
    have hclear : ∀ k, t.view.changes k = if k = slot then [] else s.view.changes k := by
      intro k
      rw [← hpub.changes]
      by_cases hk : k = slot
      · subst hk
        simp [htdef, pushBlock, view, TmpVersionBlock.clear]
      · simp [htdef, pushBlock, view, hk]
    have hstamp : t.view.stamp = s.view.stamp := by
      rw [← hpub.stamp]
      funext k
      by_cases hk : k = slot
      · subst hk
        simp [htdef, pushBlock, view, TmpVersionBlock.clear]
      · simp [htdef, pushBlock, view, hk]
    have hvbs : t.view.vbm.vbs = ⟨vb, s.view.stamp slot, s.vbm.endEpoch, u.edgeNum, u.records⟩ ::
        s.view.vbm.vbs := by
      rw [← show u.state.vbm = s.view.vbm from hpub.vbm, ← hpub.vbm]
      rfl
    have hsub : ∀ k, ∀ c ∈ t.view.changes k, c ∈ s.view.changes k := by
      intro k c hc
      rw [hclear] at hc
      split_ifs at hc
      · simp at hc
      · exact hc
    refine ⟨stamped_of_items hpub.stamped rfl rfl rfl rfl rfl rfl rfl (fun _ hc => hc) ?_ ?_, ?_⟩
    · intro k c hc
      rw [hstamp]
      exact h.entry k c (hsub k c hc)
    · rw [hstamp]
      exact h.stamp
    · intro ho
      refine ⟨fun k c hc => ?_, fun k => ?_, fun b hb r hr => ?_⟩
      · rw [hstamp]
        exact ho.interval k c (hsub k c hc)
      · rw [hclear]
        split_ifs
        · exact List.Pairwise.nil
        · exact ho.ascending k
      · rw [hvbs] at hb
        rcases List.mem_cons.mp hb with rfl | hb
        · obtain ⟨c, hc, he, hi, hinv⟩ := hpub.record r hr
          have hlt := ho.interval slot c hc
          simpa [recordTimes, he, hi, hinv] using hlt
        · exact ho.record b hb r hr

end Publish

section Build

/-- A vertex as build leaves it, with ascending destinations. -/
def Built (s : VertexEdges) : Prop :=
  ∃ edges properties malloc tmp, s = build edges properties malloc tmp ∧
    edges.Pairwise (· < ·) ∧ ∀ e ∈ edges, e < 2 ^ 63

theorem Built.stamped (h : Built s) : Stamped P s := by
  obtain ⟨edges, properties, malloc, tmp, rfl, hasc, hlt⟩ := h
  have hstart : ∀ i, (hi : i < edges.length) →
      (build edges properties malloc tmp).start i = ⟨edges[i], 0, 0⟩ := by
    intro i hi
    simp [build, hi]
  have hkey : ∀ i, (hi : i < edges.length) →
      ((build edges properties malloc tmp).start i).key = edges[i] := by
    intro i hi
    rw [hstart i hi]
    exact clearDelete_of_lt (hlt _ (List.getElem_mem hi))
  refine ⟨⟨Nat.zero_le _, le_rfl, rfl, ?_, ?_, ?_, ?_⟩, ?_, ?_, ?_⟩
  · intro i j hij hj
    have hj : j < edges.length := hj
    rw [hkey i (hij.trans hj), hkey j hj]
    exact List.pairwise_iff_getElem.mp hasc i j (hij.trans hj) hj hij
  · intro i j hi
    simp [build] at hi
  · intro i j hi
    simp [build] at hi
  · intro d
    show decide (d ∈ edges) = true ↔ _
    rw [decide_eq_true_eq, List.mem_iff_getElem]
    constructor
    · rintro ⟨i, hi, rfl⟩
      exact ⟨.start i, mem_locs.mpr hi, hkey i hi⟩
    · rintro ⟨l, hl, rfl⟩
      cases l with
      | tmp i => simp [mem_locs, build] at hl
      | start i =>
        have hi : i < edges.length := mem_locs.mp hl
        exact ⟨i, hi, (hkey i hi).symm⟩
  · intro l hl
    left
    cases l with
    | tmp i => simp [mem_locs, build] at hl
    | start i =>
      have hi : i < edges.length := mem_locs.mp hl
      show ((build edges properties malloc tmp).start i).creation = ⟨0, 0⟩
      rw [hstart i hi]
      exact creation_mk _ _ (by decide)
  · simp [view, build]
  · simp [view, build]

theorem Built.ordered (h : Built s) : TimeOrdered s.view := by
  obtain ⟨edges, properties, malloc, tmp, rfl, -, -⟩ := h
  exact ⟨by simp [view, build], by simp [view, build], by simp [view, build, VersionBlockManager.empty]⟩

end Build

end VertexEdges

end AVBGraph
