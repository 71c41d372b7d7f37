import AVBGraph.Snapshot.Coarse
import AVBGraph.Vertex.Writers

namespace AVBGraph

open Framework Function

namespace VertexEdges

variable {S : StdSort} {env : Env} {s t : VertexEdges} {w : Write} {l : Loc} {offset epoch : Nat}

/-- A vertex of the AVB_COARSE build between the epochs: a pending item names the entry of its edge
by epoch and index, a published one is not above the last version block, and the entries of a slot
belong to different edges. -/
structure Owned (s : VertexEdges) : Prop where
  wf : Wf s
  owner : ∀ d x, s.item d = some x → isTmp x.1.block = true →
    (s.writers .coarse).stamp (x.2.block % 16) = x.2.block ∧
      ((s.writers .coarse).keys (x.2.block % 16))[x.2.index]? = some d
  published : ∀ d x, s.item d = some x → isTmp x.1.block = false → x.1.block ≤ s.vbm.endEpoch
  single : ∀ k, ((s.writers .coarse).keys k).Nodup
  above : ∀ k, (s.writers .coarse).keys k ≠ [] → s.vbm.endEpoch < (s.writers .coarse).stamp k

theorem lastEpoch_tmp {x : Item} (hx : isTmp x.1.block = true) :
    lastEpoch .coarse x = x.2.block := by
  show (if isTmp x.1.block then x.2.block else x.1.block) = x.2.block
  rw [if_pos hx]

theorem lastEpoch_not_tmp {x : Item} (hx : isTmp x.1.block = false) :
    lastEpoch .coarse x = x.1.block := by
  show (if isTmp x.1.block then x.2.block else x.1.block) = x.1.block
  rw [hx, if_neg Bool.false_ne_true]

namespace Owned

/-- Items may be dropped, and the slots may be stamped as long as no entry is concerned. -/
theorem congr (h : Owned s) (hwf : Wf t)
    (hitem : ∀ d y, t.item d = some y → ∃ x, s.item d = some x ∧ x.1.block = y.1.block ∧
      x.2.block = y.2.block ∧ x.2.index = y.2.index)
    (hkeys : (t.writers .coarse).keys = (s.writers .coarse).keys)
    (hstamp : ∀ k, (s.writers .coarse).keys k ≠ [] →
      (t.writers .coarse).stamp k = (s.writers .coarse).stamp k)
    (hend : t.vbm.endEpoch = s.vbm.endEpoch) : Owned t where
  wf := hwf
  owner d y hy htmp := by
    obtain ⟨x, hx, hb, hp, hi⟩ := hitem d y hy
    obtain ⟨hts, hkey⟩ := h.owner d x hx (hb ▸ htmp)
    rw [hkeys, ← hp, ← hi]
    refine ⟨?_, hkey⟩
    rw [hstamp _ (List.ne_nil_of_mem (List.mem_of_getElem? hkey)), hts]
  published d y hy htmp := by
    obtain ⟨x, hx, hb, -, -⟩ := hitem d y hy
    rw [← hb, hend]
    exact h.published d x hx (hb ▸ htmp)
  single := by
    rw [hkeys]
    exact h.single
  above k hk := by
    rw [hkeys] at hk
    rw [hstamp k hk, hend]
    exact h.above k hk

theorem prepare (h : Owned s) (hwf : Wf (s.prepare S env)) : Owned (s.prepare S env) := by
  apply h.congr hwf
  · intro d y hy
    rcases (item_prepare h.wf.rep d : (s.prepare S env).item d = _ ∨ _) with heq | ⟨hnone, -⟩
    · exact ⟨y, heq ▸ hy, rfl, rfl, rfl⟩
    · rw [hnone] at hy
      cases hy
  · funext k
    show ((s.prepare S env).tmpVb k).entries.map _ = _
    rw [tmpVb_prepare]
    rfl
  · intro k _
    show ((s.prepare S env).tmpVb k).timestamp = _
    rw [tmpVb_prepare]
    rfl
  · rw [vbm_prepare]

theorem openTvb (h : Owned s) (hepoch : epoch < 2 ^ 31) (hfree : s.SlotFree epoch) :
    Owned (s.openTvb .coarse epoch).2 ∧
      ((s.openTvb .coarse epoch).2.writers .coarse) = (s.writers .coarse).openSlot epoch := by
  have hitems := SameItems.openTvb s epoch
  have hkeys : ((s.openTvb .coarse epoch).2.writers .coarse).keys = (s.writers .coarse).keys := by
    funext k
    exact congrArg (List.map VersionEntry.key) (entries_openTvb hfree k)
  have hstamp : ((s.openTvb .coarse epoch).2.writers .coarse).stamp =
      update (s.writers .coarse).stamp (epoch % 16) epoch := (stampAt_openTvb epoch).2
  constructor
  · apply h.congr (h.wf.openTvb .coarse hepoch)
    · intro d y hy
      rw [hitems.item] at hy
      exact ⟨y, hy, rfl, rfl, rfl⟩
    · exact hkeys
    · intro k hk
      rw [hstamp]
      by_cases hks : k = epoch % 16
      · subst hks
        rw [update_self]
        refine (hfree.resolve_right ?_).symm
        intro hnil
        exact hk (keys_eq_nil.mpr hnil)
      · rw [update_of_ne hks]
    · rw [hitems.vbm]
  · ext1
    · funext d
      show ((s.openTvb .coarse epoch).2.item d).map _ = _
      rw [hitems.item]
      rfl
    · exact hkeys
    · exact hstamp

end Owned

/-- The destinations of the entries, from their edge words. -/
theorem keys_eq_edgesAt (b : Build) (s : VertexEdges) (k : Nat) :
    (s.writers b).keys k = (s.edgesAt k).map clearDelete := by
  show (s.tmpVb k).entries.map _ = ((s.tmpVb k).entries.map VersionEntry.edge).map clearDelete
  rw [List.map_map]
  rfl

theorem keys_of_edgesAt {b : Build} (h : t.edgesAt = s.edgesAt) :
    (t.writers b).keys = (s.writers b).keys := by
  funext k
  rw [keys_eq_edgesAt, keys_eq_edgesAt, h]

namespace Owned

/-- The words of one item are replaced, and so are entries with the same destinations. -/
theorem rewrite (h : Owned s) (hwf : Wf t) {d : Nat} {x y : Item} (hx : s.item d = some x)
    (hitem : ∀ k, t.item k = if k = d then some y else s.item k)
    (hsame : isTmp y.1.block = isTmp x.1.block ∧ lastEpoch .coarse y = lastEpoch .coarse x)
    (hindex : isTmp x.1.block = true → y.2.index = x.2.index)
    (hkeys : (t.writers .coarse).keys = (s.writers .coarse).keys)
    (hstamp : (t.writers .coarse).stamp = (s.writers .coarse).stamp) (hend : t.vbm = s.vbm) :
    Owned t ∧ t.writers .coarse = s.writers .coarse := by
  obtain ⟨htmp, hlast⟩ := hsame
  constructor
  · refine ⟨hwf, ?_, ?_, ?_, ?_⟩
    · intro k z hz hp
      rw [hitem] at hz
      rw [hkeys, hstamp]
      split_ifs at hz with hk
      · obtain rfl := Option.some.inj hz
        have hxp : isTmp x.1.block = true := htmp ▸ hp
        rw [lastEpoch_tmp hp, lastEpoch_tmp hxp] at hlast
        rw [hlast, hindex hxp, hk]
        exact h.owner d x hx hxp
      · exact h.owner k z hz hp
    · intro k z hz hp
      rw [hitem] at hz
      rw [hend]
      split_ifs at hz with hk
      · obtain rfl := Option.some.inj hz
        have hxp : isTmp x.1.block = false := htmp ▸ hp
        rw [lastEpoch_not_tmp hp, lastEpoch_not_tmp hxp] at hlast
        rw [hlast]
        exact h.published d x hx hxp
      · exact h.published k z hz hp
    · rw [hkeys]
      exact h.single
    · rw [hkeys, hstamp, hend]
      exact h.above
  · ext1
    · funext k
      show (t.item k).map _ = (s.item k).map _
      rw [hitem]
      split_ifs with hk
      · rw [hk, hx, Option.map_some, Option.map_some, htmp, hlast]
      · rfl
    · exact hkeys
    · exact hstamp

/-- A new item in the buffer. -/
theorem append (h : Owned s) (hlt : s.tmpEv < tmpNum) {x : Item} (he : x.1.e < 2 ^ 63)
    (hnew : s.m x.1.e = false) (hblock : x.1.block = 0) : Owned (s.append x) := by
  have hitem := h.wf.rep.item_append hlt he hnew
  have htmp : isTmp x.1.block = false := by
    rw [hblock]
    rfl
  refine ⟨h.wf.append hlt he hnew, ?_, ?_, h.single, h.above⟩
  · intro d y hy hp
    rw [hitem] at hy
    split_ifs at hy with hd
    · rw [← Option.some.inj hy, htmp] at hp
      cases hp
    · exact h.owner d y hy hp
  · intro d y hy hp
    rw [hitem] at hy
    split_ifs at hy with hd
    · rw [← Option.some.inj hy, hblock]
      exact Nat.zero_le _
    · exact h.published d y hy hp

end Owned

section Write

theorem entries_changeVersion {vb vb' : TmpVersionBlock} {weight index mt : Nat} {txn : Transaction}
    (h : vb.changeVersion weight index txn mt offset = some vb') :
    ∃ f : VersionEntry → VersionEntry, vb'.entries = vb.entries.modify index f ∧
      ∀ x, (f x).offset = offset ∧ (f x).mergeTimes = mt ∧ (f x).edge = x.edge := by
  unfold TmpVersionBlock.changeVersion at h
  split_ifs at h
  obtain rfl := Option.some.inj h
  refine ⟨_, rfl, fun x => ?_⟩
  dsimp only
  split_ifs
  · exact ⟨rfl, rfl, rfl⟩
  · exact ⟨rfl, rfl, rfl⟩

namespace Owned

variable (h : Owned s) (hl : l ∈ s.locs) (hoff : decodeOffset offset = l)
  (hk : (s.itemE l).key = w.dst)

include h hl hk

theorem item_loc : s.item w.dst = some (s.itemAt l) := by
  rw [← hk]
  exact h.wf.rep.item_eq hl

include hoff

/-- ChangeVersion on the entry that a pending item names. -/
theorem fold {vb : TmpVersionBlock} {e : Nat} (he : clearDelete e = (s.itemE l).key)
    (htmp : isTmp (s.itemE l).block = true) (hepoch : (s.itemP l).block = w.epoch)
    (hvb : (s.tmpVb (w.epoch % 16)).changeVersion w.weight (s.itemP l).index w.txn s.mergeTimes
      offset = some vb) :
    let t : VertexEdges := { s with tmpVb := Function.update s.tmpVb (w.epoch % 16) vb }
    let u := t.setItemE l { s.itemE l with e := e }
    Owned u ∧ u.writers .coarse = s.writers .coarse := by
  intro t u
  obtain ⟨f, hentries, hf⟩ := entries_changeVersion hvb
  have htime := timestamp_changeVersion hvb
  have hitem := h.item_loc hl hk
  obtain ⟨-, hown⟩ := h.owner w.dst _ hitem htmp
  have hblock : (s.itemAt l).2.block = w.epoch := hepoch
  rw [hblock] at hown
  have hwf : Wf t := by
    apply h.wf.update (w.epoch % 16) _ (htime ▸ h.wf.stamp _)
    intro x hx
    rw [hentries] at hx
    rcases mem_modify_at hx with hx | ⟨y, hy, rfl⟩
    · exact h.wf.placed _ x hx
    · -- the entry of this edge is placed again
      have hkey : y.key = w.dst := by
        have hmap : ((s.tmpVb (w.epoch % 16)).entries.map VersionEntry.key)[(s.itemP l).index]? =
            some w.dst := hown
        rw [List.getElem?_map, hy] at hmap
        exact Option.some.inj hmap
      obtain ⟨hfo, hfm, hfe⟩ := hf y
      refine Or.inl ⟨hfm, l, hl, hfo ▸ hoff, ?_⟩
      rw [hk, ← hkey, VersionEntry.key, VersionEntry.key, hfe]
  have hset : u = t.setItem l ({ s.itemE l with e := e }, s.itemP l) := by
    have htE : t.itemP l = s.itemP l := by
      cases l <;> rfl
    rw [← htE]
    exact hwf.rep.setItemE_eq hl _
  have htl : t.itemE l = s.itemE l := by
    cases l <;> rfl
  have hy : EdgeWithIndex.key { s.itemE l with e := e } = (t.itemE l).key := by
    rw [htl]
    exact he
  have hstamp : t.stampAt = s.stampAt := stampAt_update rfl htime
  have hedges : t.edgesAt = s.edgesAt := edgesAt_modify rfl hentries fun x => (hf x).2.2
  rw [hset]
  apply h.rewrite (hwf.setItem hy) hitem
  · intro k
    rw [hwf.rep.item_setItem hl hy, htl, hk]
    rfl
  · exact ⟨rfl, rfl⟩
  · intro _
    rfl
  · apply keys_of_edgesAt
    rw [edgesAt_of_tmpVb tmpVb_setItem, hedges]
  · exact (stampAt_setItem l _).trans hstamp
  · rw [vbm_setItem]

/-- A new entry for an edge that has none in the slot. -/
theorem add (hts : (s.writers .coarse).stamp (w.epoch % 16) = w.epoch)
    (hlt : s.vbm.endEpoch < w.epoch)
    (hnew : w.dst ∉ (s.writers .coarse).keys (w.epoch % 16)) {e : Nat}
    (he : clearDelete e = (s.itemE l).key) (block index link lastEpoch lastIndex : Nat)
    (pending : Bool) :
    let r := s.insertVersion w w.dst block index link offset lastEpoch 0 0
    let t := r.2.linkNext pending lastEpoch lastIndex w.epoch r.1
    let u := t.setItem l (⟨e, setTmp (s.itemE l).block, (s.itemE l).index⟩,
      ⟨(s.itemP l).e, w.epoch, r.1⟩)
    Owned u ∧ u.writers .coarse = (s.writers .coarse).append w := by
  intro r t u
  have hclear : clearDelete w.dst = w.dst := clearDelete_of_lt w.dst_lt
  have hwf : Wf t := (h.wf.insertVersion w hl hoff (hk.trans hclear.symm) ..).linkNext ..
  have hsame : SameItems s t := (SameItems.insertVersion ..).trans (SameItems.linkNext ..)
  have htl : l ∈ t.locs := by
    rw [hsame.locs]
    exact hl
  set y : Item := (⟨e, setTmp (s.itemE l).block, (s.itemE l).index⟩,
    ⟨(s.itemP l).e, w.epoch, r.1⟩) with hy
  have hkey : y.1.key = (t.itemE l).key := by
    rw [hsame.itemE]
    exact he
  have hitem : ∀ d, u.item d = if d = w.dst then some y else s.item d := by
    intro d
    rw [hwf.rep.item_setItem htl hkey, hsame.itemE, hk, hsame.item]
  have hstamp : (u.writers .coarse).stamp = (s.writers .coarse).stamp := by
    show u.stampAt = s.stampAt
    rw [stampAt_setItem, stampAt_linkNext, stampAt_insertVersion]
  have hkeys : (u.writers .coarse).keys = ((s.writers .coarse).append w).keys := by
    funext k
    rw [keys_eq_edgesAt, edgesAt_of_tmpVb tmpVb_setItem, edgesAt_linkNext, edgesAt_insertVersion]
    show _ = Function.update (s.writers .coarse).keys _ _ k
    by_cases hs : k = w.epoch % 16
    · rw [hs, update_self, update_self, List.map_append, List.map_singleton, hclear,
        ← keys_eq_edgesAt .coarse]
    · rw [update_of_ne hs, update_of_ne hs, ← keys_eq_edgesAt .coarse]
  have hslot : ∀ k, (u.writers .coarse).keys k = if k = w.epoch % 16 then
      (s.writers .coarse).keys (w.epoch % 16) ++ [w.dst] else (s.writers .coarse).keys k := by
    intro k
    rw [hkeys]
    exact update_apply ..
  have hend : u.vbm = s.vbm := vbm_setItem.trans hsame.vbm
  have htmp : isTmp y.1.block = true := isTmp_setTmp _
  constructor
  · refine ⟨hwf.setItem hkey, ?_, ?_, ?_, ?_⟩
    · intro d x hx hp
      rw [hitem] at hx
      rw [hstamp, hslot]
      split_ifs at hx with hd
      · obtain rfl := Option.some.inj hx
        have hlen : r.1 = ((s.writers .coarse).keys (w.epoch % 16)).length := by
          show (s.tmpVb (w.epoch % 16)).entries.length = _
          exact (List.length_map ..).symm
        refine ⟨hts, ?_⟩
        show (if w.epoch % 16 = w.epoch % 16 then _ else _)[r.1]? = some d
        rw [if_pos rfl, hlen, List.getElem?_concat_length, hd]
      · obtain ⟨hst, hget⟩ := h.owner d x hx hp
        refine ⟨hst, ?_⟩
        split_ifs with hs
        · rw [hs] at hget
          rw [List.getElem?_append_left (List.getElem?_eq_some_iff.mp hget).1, hget]
        · exact hget
    · intro d x hx hp
      rw [hitem] at hx
      rw [hend]
      split_ifs at hx with hd
      · rw [← Option.some.inj hx, htmp] at hp
        cases hp
      · exact h.published d x hx hp
    · intro k
      rw [hslot]
      split_ifs with hs
      · apply List.Nodup.append (h.single _) (List.nodup_singleton _)
        rw [List.disjoint_singleton]
        exact hnew
      · exact h.single k
    · intro k hne
      rw [hstamp, hend]
      rw [hslot] at hne
      split_ifs at hne with hs
      · rw [hs, hts]
        exact hlt
      · exact h.above k hne
  · ext1
    · funext d
      show (u.item d).map _ = Function.update (s.writers .coarse).newest w.dst _ d
      rw [hitem]
      by_cases hd : d = w.dst
      · rw [if_pos hd, hd, update_self, Option.map_some, lastEpoch_tmp htmp, htmp]
      · rw [if_neg hd, update_of_ne hd]
        rfl
    · exact hkeys
    · exact hstamp

omit hoff in
/-- A newest version of the epoch of the write is pending. -/
theorem pending_of_epoch (hlt : s.vbm.endEpoch < w.epoch) (hsame : s.coarseEpoch l = w.epoch) :
    isTmp (s.itemE l).block = true ∧ (s.itemP l).block = w.epoch ∧
      s.coarseIndex l = (s.itemP l).index := by
  have htmp : isTmp (s.itemE l).block = true := by
    by_contra hno
    have hno : isTmp (s.itemAt l).1.block = false := Bool.not_eq_true _ ▸ hno
    have hle := h.published _ _ (h.item_loc hl hk) hno
    have hepoch : lastEpoch .coarse (s.itemAt l) = w.epoch := hsame
    rw [lastEpoch_not_tmp hno] at hepoch
    omega
  rw [coarseEpoch, if_pos htmp] at hsame
  exact ⟨htmp, hsame, if_pos htmp⟩

omit hoff in
/-- A write that is granted over a version of an older epoch has no entry in its slot yet. -/
theorem not_buffered (hts : (s.writers .coarse).stamp (w.epoch % 16) = w.epoch)
    (hbuffered : ∀ k, ∀ d ∈ (s.writers .coarse).keys k, ∃ n, (s.writers .coarse).newest d = some n ∧
      n.pending = true ∧ (s.writers .coarse).stamp k ≤ n.epoch)
    (hfits : conflicts w.txn (s.coarseEpoch l) w.epoch = false)
    (hother : s.coarseEpoch l ≠ w.epoch) : w.dst ∉ (s.writers .coarse).keys (w.epoch % 16) := by
  intro hmem
  obtain ⟨n, hn, -, hle⟩ := hbuffered _ _ hmem
  obtain ⟨x, hx, hxe, -⟩ := newest_eq_some.mp hn
  rw [h.item_loc hl hk] at hx
  rw [hts, ← hxe, ← Option.some.inj hx] at hle
  exact hother (le_antisymm (conflicts_eq_false.mp hfits).1 hle)

/-- The tail of both writes: refused, folded into the entry of the epoch, or a new entry. -/
theorem writeCoarse (hts : (s.writers .coarse).stamp (w.epoch % 16) = w.epoch)
    (hlt : s.vbm.endEpoch < w.epoch)
    (hbuffered : ∀ k, ∀ d ∈ (s.writers .coarse).keys k, ∃ n, (s.writers .coarse).newest d = some n ∧
      n.pending = true ∧ (s.writers .coarse).stamp k ≤ n.epoch) (delete : Bool) :
    Owned (s.writeCoarse l offset delete w).2 ∧
      (s.writers .coarse).Writes .coarse w (s.writeCoarse l offset delete w).1
        ((s.writeCoarse l offset delete w).2.writers .coarse) := by
  have hnewest : (s.writers .coarse).newest w.dst =
      some ⟨s.coarseEpoch l, isTmp (s.itemE l).block⟩ :=
    newest_eq_some.mpr ⟨_, h.item_loc hl hk, rfl, rfl⟩
  have he := clearDelete_coarseEdge s l delete
  obtain ⟨-, hr⟩ | ⟨-, -, -, hr⟩ | ⟨hc, hsame, -, vb, hvb, hr⟩ |
    ⟨hc, hother, block, index, link, hr⟩ := s.writeCoarse_tail l offset delete w
  · rw [← hr]
    exact ⟨h, .refused⟩
  · rw [← hr]
    exact ⟨h, .refused⟩
  · rw [← hr]
    obtain ⟨htmp, hblock, hindex⟩ := h.pending_of_epoch hl hk hlt hsame
    obtain ⟨howned, hwriters⟩ := h.fold hl hoff hk he htmp hblock (hindex ▸ hvb)
    refine ⟨howned, ?_⟩
    dsimp only
    rw [hwriters]
    exact .folded _ hnewest hsame hc
  · rw [← hr]
    have hnew := h.not_buffered hl hk hts hbuffered hc hother
    obtain ⟨howned, hwriters⟩ := h.add hl hoff hk hts hlt hnew he block index link
      (s.coarseEpoch l) (s.coarseIndex l) (isTmp (s.itemE l).block)
    refine ⟨howned, ?_⟩
    dsimp only
    rw [hwriters]
    refine .appended ?_ ?_
    · intro n hn
      rw [hnewest] at hn
      rw [← Option.some.inj hn]
      exact hc
    · intro _ n hn
      rw [hnewest] at hn
      rw [← Option.some.inj hn]
      exact hother

end Owned

/-- The item that insert_edge_block goes on with: the one of its edge, or a new one. -/
theorem Owned.findOrAppend (h : Owned s) (hlook : s.LookupRight w.dst) (htmp : s.tmpEv < tmpNum)
    {f : Found} (hf : s.findOrAppend w = some f) :
    Owned f.state ∧ f.loc ∈ f.state.locs ∧ decodeOffset f.offset = f.loc ∧
      (f.state.itemE f.loc).key = w.dst ∧ f.state.tmpVb = s.tmpVb ∧ f.state.vbm = s.vbm ∧
      (f.state.writers .coarse = s.writers .coarse ∨
        (s.writers .coarse).newest w.dst = none ∧ (f.state.itemE f.loc).block = 0 ∧
          f.state.writers .coarse = (s.writers .coarse).adding w.dst) := by
  cases hm : s.m w.dst with
  | true =>
    obtain ⟨l, hl, offset, hget, hk, hoff⟩ := hlook hm
    let x : EdgeWithIndex := { s.itemE l with e := clearDelete (s.itemE l).e }
    have hx : x.key = (s.itemE l).key := clearDelete_clearDelete _
    have hset : s.setItemE l x = s.setItem l (x, s.itemP l) := h.wf.rep.setItemE_eq hl x
    obtain rfl : ⟨s.setItem l (x, s.itemP l), l, offset, isDelete (s.itemE l).e⟩ = f := by
      rw [← hset]
      simpa only [VertexEdges.findOrAppend, hm, if_true, hget, Option.map_some, Option.some.injEq]
        using hf
    have hy : (x, s.itemP l).1.key = (s.itemE l).key := hx
    have hitem : ∀ k, (s.setItem l (x, s.itemP l)).item k =
        if k = w.dst then some (x, s.itemP l) else s.item k := by
      intro k
      rw [h.wf.rep.item_setItem hl hy, hk]
    obtain ⟨howned, hwriters⟩ := h.rewrite (h.wf.setItem hy) (h.item_loc hl hk) hitem ⟨rfl, rfl⟩
      (fun _ => rfl) (keys_of_edgesAt (edgesAt_of_tmpVb tmpVb_setItem)) (stampAt_setItem l _)
      vbm_setItem
    refine ⟨howned, ?_, hoff, ?_, tmpVb_setItem, vbm_setItem, Or.inl hwriters⟩
    · rw [locs_setItem]
      exact hl
    · have hat := h.wf.rep.itemAt_setItem hl hl (x := (x, s.itemP l))
      rw [if_pos rfl] at hat
      have hE : (s.setItem l (x, s.itemP l)).itemE l = x := congrArg Prod.fst hat
      rw [hE, hx, hk]
  | false =>
    let x : Item := (⟨w.dst, 0, 0⟩, { s.tmpItem (s.tmpEv + tmpNum) with e := w.weight })
    obtain rfl : ⟨s.append x, .tmp s.tmpEv, setTmp s.tmpEv, false⟩ = f := by
      simpa only [VertexEdges.findOrAppend, hm, Bool.false_eq_true, if_false, Option.some.injEq]
        using hf
    have hnone : s.item w.dst = none := by
      rw [← Option.not_isSome_iff_eq_none, ← h.wf.rep.m_iff, hm]
      exact Bool.false_ne_true
    have hlt31 : s.tmpEv < 2 ^ 31 := htmp.trans (by decide)
    have hoff : decodeOffset (setTmp s.tmpEv) = .tmp s.tmpEv := by
      simp [decodeOffset, clearTmp_of_lt hlt31]
    have hat : (s.append x).itemE (.tmp s.tmpEv) = x.1 :=
      congrArg Prod.fst (itemAt_append_new htmp)
    refine ⟨h.append htmp w.dst_lt hm (x := x) rfl, mem_locs_append.mpr (Or.inl rfl), hoff, ?_, rfl,
      rfl, Or.inr ⟨?_, ?_, ?_⟩⟩
    · exact hat ▸ clearDelete_of_lt w.dst_lt
    · show (s.item w.dst).map _ = none
      rw [hnone]
      rfl
    · exact congrArg EdgeWithIndex.block hat
    · have hzero : isTmp 0 = false := by decide
      have hfresh : isTmp x.1.block = false := hzero
      ext1
      · funext d
        show ((s.append x).item d).map _ = update (s.writers .coarse).newest w.dst _ d
        rw [h.wf.rep.item_append htmp (x := x) w.dst_lt hm]
        by_cases hd : d = w.dst
        · rw [if_pos hd, hd, update_self, Option.map_some, lastEpoch_not_tmp hfresh, hfresh]
        · rw [if_neg hd, update_of_ne hd]
          rfl
      · rfl
      · rfl

/-- The first write on an edge is accepted. -/
theorem writeCoarse_first (hblock : (s.itemE l).block = 0) (delete : Bool) :
    (s.writeCoarse l offset delete w).1 = true := by
  have hpos : ¬0 = w.epoch := w.epoch_pos.ne
  have hfits : conflicts w.txn 0 w.epoch = false := by simp [conflicts]
  simp [writeCoarse, hblock, hfits, hpos]

variable (h : Owned s) (hlt : s.vbm.endEpoch < w.epoch) (hfree : s.SlotFree w.epoch)
  (hbuffered : ∀ k, ∀ d ∈ ((s.writers .coarse).openSlot w.epoch).keys k, ∃ n,
    ((s.writers .coarse).openSlot w.epoch).newest d = some n ∧ n.pending = true ∧
      ((s.writers .coarse).openSlot w.epoch).stamp k ≤ n.epoch)

include h hlt hfree hbuffered

/-- Opening the slot and the tail of a write. -/
theorem Owned.openWrite (hl : l ∈ s.locs) (hoff : decodeOffset offset = l)
    (hk : (s.itemE l).key = w.dst) (delete : Bool) :
    let r := (s.openTvb .coarse w.epoch).2.writeCoarse l offset delete w
    Owned r.2 ∧ ((s.writers .coarse).openSlot w.epoch).Writes .coarse w r.1
      (r.2.writers .coarse) := by
  intro r
  obtain ⟨hopen, hwriters⟩ := h.openTvb w.epoch_lt hfree
  have hitems := SameItems.openTvb s w.epoch
  have hlt' : (s.openTvb .coarse w.epoch).2.vbm.endEpoch < w.epoch := by
    rw [hitems.vbm]
    exact hlt
  have hl' : l ∈ (s.openTvb .coarse w.epoch).2.locs := by
    rw [hitems.locs]
    exact hl
  have hk' : ((s.openTvb .coarse w.epoch).2.itemE l).key = w.dst := by
    rw [hitems.itemE]
    exact hk
  have htail := hopen.writeCoarse hl' hoff hk' (by rw [hwriters]; exact update_self ..) hlt'
    (by rw [hwriters]; exact hbuffered) delete
  rw [hwriters] at htail
  exact htail

theorem Owned.found (hlook : s.LookupRight w.dst) (htmp : s.tmpEv < tmpNum) {f : Found}
    (hf : s.findOrAppend w = some f) :
    let r := (f.state.openTvb .coarse w.epoch).2.writeCoarse f.loc f.offset false w
    Owned r.2 ∧ ((s.writers .coarse).openSlot w.epoch).Writes .coarse w r.1
      (r.2.writers .coarse) := by
  obtain ⟨howned, hl, hoff, hk, htvb, hvbm, hwriters⟩ := h.findOrAppend hlook htmp hf
  have hlt' : f.state.vbm.endEpoch < w.epoch := hvbm ▸ hlt
  have hfree' : f.state.SlotFree w.epoch := by
    unfold SlotFree
    rw [stampAt_of_tmpVb htvb, htvb]
    exact hfree
  rcases hwriters with hwriters | ⟨hnone, hblock, hwriters⟩
  · rw [← hwriters] at hbuffered ⊢
    exact howned.openWrite hlt' hfree' hbuffered hl hoff hk false
  · have hunew : ((s.writers .coarse).openSlot w.epoch).newest w.dst = none := hnone
    have hbuffered' := Writers.buffered_adding hnone hbuffered
    rw [← hwriters] at hbuffered'
    have htail := howned.openWrite hlt' hfree' hbuffered' hl hoff hk false
    have hacc : ((f.state.openTvb .coarse w.epoch).2.writeCoarse f.loc f.offset false w).1 =
        true := by
      apply writeCoarse_first
      rw [(SameItems.openTvb _ _).itemE, hblock]
    refine ⟨htail.1, ?_⟩
    have hwrites := htail.2
    rw [hacc] at hwrites ⊢
    generalize ((f.state.openTvb .coarse w.epoch).2.writeCoarse f.loc f.offset false w).2.writers
      .coarse = v at hwrites ⊢
    rw [hwriters] at hwrites
    cases hwrites with
    | folded n hn hepoch _ =>
      have hn : update (s.writers .coarse).newest w.dst (some ⟨0, false⟩) w.dst = some n := hn
      rw [update_self] at hn
      rw [← Option.some.inj hn] at hepoch
      exact absurd hepoch w.epoch_pos.ne
    | appended _ _ =>
      have hsame : (((s.writers .coarse).adding w.dst).openSlot w.epoch).append w =
          ((s.writers .coarse).openSlot w.epoch).append w := by
        ext1
        · show update (update (s.writers .coarse).newest w.dst _) w.dst _ =
            update (s.writers .coarse).newest w.dst _
          rw [update_idem]
        · rfl
        · rfl
      rw [hsame]
      refine .appended ?_ ?_
      · intro n hn
        rw [hunew] at hn
        cases hn
      · intro _ n hn
        rw [hunew] at hn
        cases hn

end Write

section Transform

/-- Transform makes a block of the slot's epoch; its entries have no later version linked, and
the newest version of each edge is of this epoch. -/
structure Ready (s : VertexEdges) (slot : Nat) : Prop where
  unlinked : ∀ y ∈ (s.tmpVb slot).entries, y.link.hasNextVB = false
  newest : ∀ y ∈ (s.tmpVb slot).entries, ∃ x, s.item y.key = some x ∧ isTmp x.1.block = true ∧
    x.2.block = (s.tmpVb slot).timestamp

/-- Transform in the middle of its loops, after the entries `done`. -/
structure Halfway (s : VertexEdges) (slot : Nat) (done : List Nat) (p : Progress) : Prop where
  wf : Wf p.state
  tmpVb : p.state.tmpVb = s.tmpVb
  vbm : p.state.vbm = s.vbm
  item : ∀ d, (∀ i ∈ done, (s.entry slot i).key ≠ d) ∧ p.state.item d = s.item d ∨
    (∃ i ∈ done, (s.entry slot i).key = d) ∧
      ∃ x, p.state.item d = some x ∧ x.1.block = (s.tmpVb slot).timestamp

variable {slot i vb : Nat} {done : List Nat} {p q : Progress}

/-- An entry of an edge that was not treated yet. -/
theorem Halfway.step (hr : Ready s slot) (hp : Halfway s slot done p)
    (hi : i < (s.tmpVb slot).entries.length)
    (hnew : ∀ j ∈ done, (s.entry slot j).key ≠ (s.entry slot i).key) :
    p.state.entry slot i = s.entry slot i ∧ (s.entry slot i).link.hasNextVB = false ∧
      ∃ l, p.state.locate (s.entry slot i) = some l ∧
        (p.state.itemP l).block = (s.tmpVb slot).timestamp ∧
        ∀ y : Item, y.1.key = (p.state.itemE l).key → y.1.block = (s.tmpVb slot).timestamp →
          ∀ edgeNum records, Halfway s slot (done ++ [i]) ⟨p.state.setItem l y, edgeNum, records⟩ := by
  have hentry : p.state.entry slot i = s.entry slot i := by
    rw [entry, hp.tmpVb]
    rfl
  have hmem : s.entry slot i ∈ (s.tmpVb slot).entries := by
    rw [entry, List.getD_eq_getElem _ _ hi]
    exact List.getElem_mem hi
  have hmem' : p.state.entry slot i ∈ (p.state.tmpVb slot).entries := by
    rw [hentry, hp.tmpVb]
    exact hmem
  obtain ⟨l, hl, hloc, hkey⟩ := (hp.wf.placed slot _ hmem').locate hp.wf.rep
  rw [hentry] at hloc hkey
  obtain ⟨x, hx, -, hblock⟩ := hr.newest _ hmem
  have hat : p.state.itemAt l = x := by
    have hitem := hp.wf.rep.item_eq hl
    rw [hkey] at hitem
    rcases hp.item (s.entry slot i).key with ⟨-, heq⟩ | ⟨⟨j, hj, hjk⟩, -⟩
    · rw [heq, hx] at hitem
      exact (Option.some.inj hitem).symm
    · exact absurd hjk (hnew j hj)
  refine ⟨hentry, hr.unlinked _ hmem, l, hloc, ?_, ?_⟩
  · have hP : p.state.itemP l = x.2 := congrArg Prod.snd hat
    rw [hP, hblock]
  · intro y hy hyb edgeNum records
    have hitem : ∀ d, (p.state.setItem l y).item d =
        if d = (s.entry slot i).key then some y else p.state.item d := by
      intro d
      rw [hp.wf.rep.item_setItem hl hy, hkey]
    refine ⟨hp.wf.setItem hy, tmpVb_setItem.trans hp.tmpVb, vbm_setItem.trans hp.vbm, ?_⟩
    intro d
    rw [hitem]
    by_cases hd : d = (s.entry slot i).key
    · right
      rw [if_pos hd]
      exact ⟨⟨i, List.mem_append_right _ (List.mem_singleton_self i), hd.symm⟩, y, rfl, hyb⟩
    · rw [if_neg hd]
      rcases hp.item d with ⟨hno, heq⟩ | ⟨⟨j, hj, hjk⟩, hrest⟩
      · left
        refine ⟨?_, heq⟩
        intro j hj
        rcases List.mem_append.mp hj with hj | hj
        · exact hno j hj
        · rw [List.mem_singleton.mp hj]
          exact Ne.symm hd
      · right
        exact ⟨⟨j, List.mem_append_left _ hj, hjk⟩, hrest⟩

theorem Halfway.publishFresh (hr : Ready s slot) (hp : Halfway s slot done p)
    (hi : i < (s.tmpVb slot).entries.length)
    (hnew : ∀ j ∈ done, (s.entry slot j).key ≠ (s.entry slot i).key)
    (hq : publishFresh .coarse slot (s.tmpVb slot).timestamp p i = some q) :
    Halfway s slot (done ++ [i]) q := by
  obtain ⟨hentry, hnext, l, hloc, -, hset⟩ := hp.step hr hi hnew
  unfold VertexEdges.publishFresh at hq
  simp only [hloc, hentry, hnext, Option.map_some, Option.some.injEq, Bool.false_eq_true,
    if_false] at hq
  rw [← hq]
  exact hset _ rfl rfl _ _

theorem Halfway.publishCoarse {third : Bool} (hr : Ready s slot) (hp : Halfway s slot done p)
    (hi : i < (s.tmpVb slot).entries.length)
    (hnew : ∀ j ∈ done, (s.entry slot j).key ≠ (s.entry slot i).key)
    (hq : publishCoarse third slot (s.tmpVb slot).timestamp vb p i = some q) :
    Halfway s slot (done ++ [i]) q := by
  obtain ⟨hentry, hnext, l, hloc, hblock, hset⟩ := hp.step hr hi hnew
  unfold VertexEdges.publishCoarse at hq
  simp only [hloc, hentry, hnext, Option.map_some, Option.some.injEq, Bool.false_eq_true, false_and,
    if_false] at hq
  rw [← hq]
  exact hset _ rfl hblock _ _

/-- A loop over entries of different edges. -/
theorem foldlM_entries {Q : List Nat → Progress → Prop} {f : Progress → Nat → Option Progress}
    (hf : ∀ done p i q, Q done p → i < (s.tmpVb slot).entries.length →
      (∀ j ∈ done, (s.entry slot j).key ≠ (s.entry slot i).key) → f p i = some q → Q (done ++ [i]) q)
    {is : List Nat} (hlt : ∀ i ∈ is, i < (s.tmpVb slot).entries.length)
    (hnodup : ((done ++ is).map fun i => (s.entry slot i).key).Nodup)
    (hp : Q done p) (h : is.foldlM f p = some q) : Q (done ++ is) q := by
  induction is generalizing done p with
  | nil =>
    obtain rfl : p = q := by simpa using h
    rw [List.append_nil]
    exact hp
  | cons i is ih =>
    rw [List.foldlM_cons] at h
    obtain ⟨p', hp', h⟩ := Option.bind_eq_some_iff.mp h
    have hsplit : done ++ i :: is = (done ++ [i]) ++ is := by simp
    rw [hsplit] at hnodup ⊢
    apply ih (fun j hj => hlt j (List.mem_cons_of_mem i hj)) hnodup _ h
    apply hf done p i p' hp (hlt i List.mem_cons_self) _ hp'
    intro j hj heq
    rw [List.map_append, List.map_append] at hnodup
    have hdisjoint := List.disjoint_of_nodup_append (List.Nodup.of_append_left hnodup)
    exact hdisjoint (List.mem_map_of_mem hj) (by simp [heq])

theorem mem_keys {d : Nat} : d ∈ (s.writers .coarse).keys slot ↔
    ∃ i < (s.tmpVb slot).entries.length, (s.entry slot i).key = d := by
  show d ∈ (s.tmpVb slot).entries.map VersionEntry.key ↔ _
  rw [List.mem_map]
  constructor
  · rintro ⟨y, hy, rfl⟩
    obtain ⟨i, hi, rfl⟩ := List.getElem_of_mem hy
    refine ⟨i, hi, ?_⟩
    rw [entry, List.getD_eq_getElem _ _ hi]
  · rintro ⟨i, hi, rfl⟩
    refine ⟨s.entry slot i, ?_, rfl⟩
    rw [entry, List.getD_eq_getElem _ _ hi]
    exact List.getElem_mem hi

/-- The loops treat every entry once. -/
theorem publishAll_entries {Q : List Nat → Progress → Prop} (hstart : Q [] ⟨s, 0, []⟩)
    (hfresh : ∀ done p i q, Q done p → i < (s.tmpVb slot).entries.length →
      (∀ j ∈ done, (s.entry slot j).key ≠ (s.entry slot i).key) →
      publishFresh .coarse slot (s.tmpVb slot).timestamp p i = some q → Q (done ++ [i]) q)
    (hcoarse : ∀ third done p i q, Q done p → i < (s.tmpVb slot).entries.length →
      (∀ j ∈ done, (s.entry slot j).key ≠ (s.entry slot i).key) →
      publishCoarse third slot (s.tmpVb slot).timestamp vb p i = some q → Q (done ++ [i]) q)
    (hsingle : ((s.writers .coarse).keys slot).Nodup)
    (hp : publishAll .coarse S slot vb s = some p) :
    ∃ done, (∀ i, i ∈ done ↔ i < (s.tmpVb slot).entries.length) ∧ Q done p := by
  unfold VertexEdges.publishAll at hp
  simp only [reduceCtorEq, if_false, Option.bind_eq_bind, Option.bind_eq_some_iff] at hp
  set order := transformOrder S (s.tmpVb slot).entries with horder
  set fresh := order.takeWhile fun i => decide ((s.entry slot i).lastEpoch = 0)
  set rest := order.dropWhile fun i => decide ((s.entry slot i).lastEpoch = 0)
  set inserts := fresh.filter fun i => !isDelete (s.entry slot i).edge
  set deletes := fresh.filter fun i => isDelete (s.entry slot i).edge
  obtain ⟨p₁, hp₁, p₂, hp₂, hp⟩ := hp
  have hperm : (inserts ++ rest ++ deletes).Perm order := by
    have hfresh : (deletes ++ inserts).Perm fresh := List.filter_append_perm _ fresh
    have hmove : (inserts ++ rest ++ deletes).Perm ((deletes ++ inserts) ++ rest) := by
      rw [List.append_assoc deletes]
      exact List.perm_append_comm
    have hall : fresh ++ rest = order := List.takeWhile_append_dropWhile
    rw [← hall]
    exact hmove.trans (hfresh.append_right rest)
  have hlt : ∀ i, i ∈ inserts ++ rest ++ deletes ↔ i < (s.tmpVb slot).entries.length := by
    intro i
    rw [hperm.mem_iff]
    exact S.mem
  have hkeys : (order.map fun i => (s.entry slot i).key).Perm ((s.writers .coarse).keys slot) := by
    have hrange : (List.range (s.tmpVb slot).entries.length).map (fun i => (s.entry slot i).key) =
        (s.tmpVb slot).entries.map VersionEntry.key := by
      apply List.ext_getElem
      · simp
      · intro i hi hi'
        have hlen : i < (s.tmpVb slot).entries.length := by simpa using hi'
        simp [entry, hlen]
    show List.Perm _ ((s.tmpVb slot).entries.map VersionEntry.key)
    rw [← hrange]
    exact (S.perm _ _).map _
  have hnodup : ((inserts ++ rest ++ deletes).map fun i => (s.entry slot i).key).Nodup :=
    ((hperm.map _).trans hkeys).nodup_iff.mpr hsingle
  have hnodup₂ : ((inserts ++ rest).map fun i => (s.entry slot i).key).Nodup := by
    rw [List.map_append] at hnodup
    exact List.Nodup.of_append_left hnodup
  have hnodup₁ : (([] ++ inserts).map fun i => (s.entry slot i).key).Nodup := by
    rw [List.map_append] at hnodup₂
    exact List.Nodup.of_append_left hnodup₂
  have h₁ : Q ([] ++ inserts) p₁ := by
    apply foldlM_entries hfresh _ hnodup₁ hstart hp₁
    intro i hi
    exact (hlt i).mp (List.mem_append_left _ (List.mem_append_left _ hi))
  have h₂ : Q (inserts ++ rest) p₂ := by
    apply foldlM_entries (hcoarse false) _ hnodup₂ h₁ hp₂
    intro i hi
    exact (hlt i).mp (List.mem_append_left _ (List.mem_append_right _ hi))
  refine ⟨inserts ++ rest ++ deletes, hlt, ?_⟩
  apply foldlM_entries (hcoarse true) _ hnodup h₂ hp
  intro i hi
  exact (hlt i).mp (List.mem_append_right _ hi)

theorem Halfway.publishAll (hr : Ready s slot) (h : Owned s)
    (hp : publishAll .coarse S slot vb s = some p) :
    ∃ done, (∀ i, i ∈ done ↔ i < (s.tmpVb slot).entries.length) ∧ Halfway s slot done p := by
  apply publishAll_entries _ _ _ (h.single slot) hp
  · exact ⟨h.wf, rfl, rfl, fun d => Or.inl ⟨fun i hi => absurd hi List.not_mem_nil, rfl⟩⟩
  · intro done p i q hh hi hnew hq
    exact hh.publishFresh hr hi hnew hq
  · intro third done p i q hh hi hnew hq
    exact hh.publishCoarse hr hi hnew hq

theorem Owned.transform (h : Owned s) (hr : Ready s slot) {n : Nat}
    (hslot : ∀ k, (s.writers .coarse).keys k ≠ [] → (s.writers .coarse).stamp k % 16 = k)
    (hasc : ∀ k, (s.writers .coarse).keys k ≠ [] →
      (s.writers .coarse).stamp slot ≤ (s.writers .coarse).stamp k)
    (hne : (s.tmpVb slot).entries ≠ []) (ht : s.transform .coarse S slot vb = some (n, t)) :
    Owned t ∧ (s.writers .coarse).Publishes slot (t.writers .coarse) := by
  unfold VertexEdges.transform at ht
  rw [if_neg hne] at ht
  obtain ⟨u, hu, ht⟩ := Option.map_eq_some_iff.mp ht
  obtain ⟨-, rfl⟩ := Prod.mk.inj ht
  obtain ⟨done, hdone, hh⟩ := Halfway.publishAll hr h hu
  set t := pushBlock .coarse slot (s.tmpVb slot).timestamp vb u with hteq
  have hwf : Wf t := hh.wf.update slot (t := (u.state.tmpVb slot).clear)
    (fun _ hx => absurd hx List.not_mem_nil) (hh.wf.stamp slot) _ _
  have hend : t.vbm.endEpoch = (s.writers .coarse).stamp slot := rfl
  have htmp : t.tmpVb = update s.tmpVb slot (s.tmpVb slot).clear := by
    show update u.state.tmpVb slot (u.state.tmpVb slot).clear = _
    rw [hh.tmpVb]
  have hkeys : ∀ k, (t.writers .coarse).keys k =
      if k = slot then [] else (s.writers .coarse).keys k := by
    intro k
    show (t.tmpVb k).entries.map _ = _
    rw [htmp]
    by_cases hk : k = slot
    · rw [if_pos hk, hk, update_self]
      rfl
    · rw [if_neg hk, update_of_ne hk]
      rfl
  have hstamp : (t.writers .coarse).stamp = (s.writers .coarse).stamp := by
    show t.stampAt = s.stampAt
    exact stampAt_update htmp rfl
  have hitem : ∀ d, d ∉ (s.writers .coarse).keys slot ∧ t.item d = s.item d ∨
      d ∈ (s.writers .coarse).keys slot ∧ ∃ x, t.item d = some x ∧ isTmp x.1.block = false ∧
        x.1.block = (s.writers .coarse).stamp slot := by
    intro d
    rcases hh.item d with ⟨hno, heq⟩ | ⟨⟨i, hi, hkey⟩, x, hx, hblock⟩
    · left
      refine ⟨fun hmem => ?_, heq⟩
      obtain ⟨i, hi, hkey⟩ := mem_keys.mp hmem
      exact hno i ((hdone i).mpr hi) hkey
    · right
      refine ⟨mem_keys.mpr ⟨i, (hdone i).mp hi, hkey⟩, x, hx, ?_, hblock⟩
      rw [hblock]
      exact isTmp_of_lt (h.wf.stamp slot)
  have hfull : (s.writers .coarse).keys slot ≠ [] := fun hnil => hne (keys_eq_nil.mp hnil)
  constructor
  · refine ⟨hwf, ?_, ?_, ?_, ?_⟩
    · intro d x hx hp
      rcases hitem d with ⟨hno, heq⟩ | ⟨-, y, hy, hfalse, -⟩
      · rw [heq] at hx
        obtain ⟨hst, hget⟩ := h.owner d x hx hp
        rw [hstamp, hkeys]
        refine ⟨hst, ?_⟩
        rw [if_neg, hget]
        intro hs
        rw [hs] at hget
        exact hno (List.mem_of_getElem? hget)
      · rw [hx] at hy
        rw [← Option.some.inj hy, hp] at hfalse
        cases hfalse
    · intro d x hx hp
      rw [hend]
      rcases hitem d with ⟨-, heq⟩ | ⟨-, y, hy, -, hblock⟩
      · rw [heq] at hx
        exact (h.published d x hx hp).trans (h.above slot hfull).le
      · rw [hx] at hy
        rw [Option.some.inj hy, hblock]
    · intro k
      rw [hkeys]
      split_ifs
      · exact List.nodup_nil
      · exact h.single k
    · intro k hk
      rw [hkeys] at hk
      have hks : k ≠ slot := fun heq => hk (if_pos heq)
      rw [if_neg hks] at hk
      rw [hstamp, hend]
      refine lt_of_le_of_ne (hasc k hk) fun heq => hks ?_
      rw [← hslot k hk, ← heq, hslot slot hfull]
  · refine ⟨hstamp, ?_, ?_⟩
    · funext k
      rw [hkeys, update_apply]
    · intro d
      rcases hitem d with ⟨-, heq⟩ | ⟨hmem, x, hx, hp, hblock⟩
      · left
        show (t.item d).map _ = (s.item d).map _
        rw [heq]
      · right
        obtain ⟨i, hi, hkey⟩ := mem_keys.mp hmem
        have hentry : s.entry slot i ∈ (s.tmpVb slot).entries := by
          rw [entry, List.getD_eq_getElem _ _ hi]
          exact List.getElem_mem hi
        obtain ⟨y, hy, hyp, hyb⟩ := hr.newest _ hentry
        rw [hkey] at hy
        have hyl : lastEpoch .coarse y = (s.writers .coarse).stamp slot :=
          (lastEpoch_tmp hyp).trans hyb
        have hxl : lastEpoch .coarse x = (s.writers .coarse).stamp slot :=
          (lastEpoch_not_tmp hp).trans hblock
        refine ⟨hmem, ⟨lastEpoch .coarse y, true⟩, ⟨lastEpoch .coarse x, false⟩,
          newest_eq_some.mpr ⟨y, hy, rfl, hyp⟩, newest_eq_some.mpr ⟨x, hx, rfl, hp⟩, ?_, ?_⟩
        · exact (hyl.trans hxl.symm).le
        · exact hyl.le

end Transform

end VertexEdges

end AVBGraph
