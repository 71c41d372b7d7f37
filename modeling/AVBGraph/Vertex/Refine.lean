import AVBGraph.Vertex.View
import Mathlib.Data.List.GetD

namespace AVBGraph

open Framework

namespace VertexEdges

/-- Transform will find the item of the entry: by its offset as long as nothing was merged,
by the search of the primary adjacency afterwards. -/
def Placed (s : VertexEdges) (x : VersionEntry) : Prop :=
  (x.mergeTimes = s.mergeTimes ∧ ∃ l ∈ s.locs, decodeOffset x.offset = l ∧ (s.itemE l).key = x.key) ∨
  (x.mergeTimes < s.mergeTimes ∧ ∃ k < s.edgesAndVersions, (s.start k).key = x.key)

structure Wf (s : VertexEdges) : Prop where
  rep : Rep s
  placed : ∀ slot, ∀ x ∈ (s.tmpVb slot).entries, Placed s x
  stamp : ∀ slot, (s.tmpVb slot).timestamp < 2 ^ 31

theorem Placed.locate {s : VertexEdges} {x : VersionEntry} (h : Placed s x) (hs : Rep s) :
    ∃ l ∈ s.locs, s.locate x = some l ∧ (s.itemE l).key = x.key := by
  rcases h with ⟨hmt, l, hl, hoff, hk⟩ | ⟨hmt, k, hk, hkey⟩
  · refine ⟨l, hl, ?_, hk⟩
    rw [VertexEdges.locate, if_neg (not_not.mpr hmt), hoff]
  · refine ⟨.start k, mem_locs.mpr hk, ?_, hkey⟩
    rw [VertexEdges.locate, if_pos hmt.ne, ← hkey, hs.getEdgeIndex2_eq hk]

/-- Only the live keys and the number of merges matter. -/
theorem Placed.congr {s t : VertexEdges} {x : VersionEntry} (h : Placed s x)
    (hmt : t.mergeTimes = s.mergeTimes) (hn : t.edgesAndVersions = s.edgesAndVersions)
    (hlocs : ∀ l ∈ s.locs, l ∈ t.locs ∧ (t.itemE l).key = (s.itemE l).key) : Placed t x := by
  rcases h with ⟨h1, l, hl, hoff, hk⟩ | ⟨h1, k, hk, hkey⟩
  · exact Or.inl ⟨h1.trans hmt.symm, l, (hlocs l hl).1, hoff, (hlocs l hl).2.trans hk⟩
  · have := hlocs (.start k) (mem_locs.mpr hk)
    exact Or.inr ⟨hmt ▸ h1, k, hn ▸ hk, this.2.trans hkey⟩

theorem Placed.setItem {s : VertexEdges} {x : VersionEntry} {l : Loc} {y : Item} (h : Placed s x)
    (hs : Rep s) (hy : y.1.key = (s.itemE l).key) : Placed (s.setItem l y) x :=
  h.congr mergeTimes_setItem edgesAndVersions_setItem
    fun k hk => ⟨by rwa [locs_setItem], hs.key_setItem hy k hk⟩

theorem Merged.placed {oldest : Nat} {s t : VertexEdges} {x : VersionEntry} (h : Merged oldest s t)
    (hmt : t.mergeTimes = s.mergeTimes + 1) (hs : Rep s) (hx : Placed s x)
    (hkeep : ∀ y, s.item x.key = some y → dropped oldest y.1 = false) : Placed t x := by
  have hle : x.mergeTimes < t.mergeTimes := by
    rcases hx with ⟨h1, -⟩ | ⟨h1, -⟩ <;> omega
  obtain ⟨l, hl, -, hkey⟩ := hx.locate hs
  have hitem := hs.item_eq hl
  rw [hkey] at hitem
  obtain ⟨k, hk, -, hkd⟩ := exists_loc (h.item_of hs hitem (hkeep _ hitem))
  cases k with
  | tmp i =>
    have := mem_locs.mp hk
    simp only [h.tmpEv] at this
    omega
  | start k => exact Or.inr ⟨hle, k, mem_locs.mp hk, hkd⟩

section Prepare

variable {S : StdSort} {env : Env} {s : VertexEdges}

/-- No item of the vertex, or of its buffered entries, is dropped by a merge. -/
theorem Wf.prepare (h : Wf s)
    (hkeep : ∀ slot, ∀ x ∈ (s.tmpVb slot).entries, ∀ y, s.item x.key = some y →
      dropped env.oldest y.1 = false) : Wf (s.prepare S env) := by
  unfold VertexEdges.prepare
  split_ifs with hfull
  · have hm := merged S env h.rep hfull
    exact ⟨hm.rep, fun slot x hx => hm.placed rfl h.rep (h.placed slot x hx) (hkeep slot x hx),
      h.stamp⟩
  · exact h

theorem tmpVb_prepare : (s.prepare S env).tmpVb = s.tmpVb := by
  unfold VertexEdges.prepare
  split_ifs <;> rfl

theorem vbm_prepare : (s.prepare S env).vbm = s.vbm := by
  unfold VertexEdges.prepare
  split_ifs <;> rfl

theorem edgeNum_prepare : (s.prepare S env).edgeNum = s.edgeNum := by
  unfold VertexEdges.prepare
  split_ifs <;> rfl

theorem tmpEv_prepare_lt (h : Rep s) : (s.prepare S env).tmpEv < tmpNum := by
  have := h.tmpEv_le
  unfold VertexEdges.prepare
  split_ifs with hfull
  · rw [(merged S env h hfull).tmpEv]; decide
  · omega

/-- A merge keeps every item, except that it may drop a deleted one. -/
theorem item_prepare (h : Rep s) (d : Nat) : (s.prepare S env).item d = s.item d ∨
    (s.prepare S env).item d = none ∧ ∃ x, s.item d = some x ∧ dropped env.oldest x.1 = true := by
  unfold VertexEdges.prepare
  split_ifs with hfull
  · have hm := merged S env h hfull
    cases hx : s.item d with
    | none =>
      left
      cases hy : (mergeTmpevWithEb S env s).item d with
      | none => rfl
      | some y =>
        rw [hm.item_old h hy] at hx
        cases hx
    | some x =>
      cases hd : dropped env.oldest x.1 with
      | false => exact Or.inl (hm.item_of h hx hd)
      | true =>
        cases hy : (mergeTmpevWithEb S env s).item d with
        | none => exact Or.inr ⟨rfl, x, rfl, hd⟩
        | some y =>
          have := hm.item_old h hy
          rw [hx] at this
          exact Or.inl this.symm
  · exact Or.inl rfl

theorem view_prepare (h : Rep s)
    (hkeep : ∀ d x, s.item d = some x → dropped env.oldest x.1 = false) :
    (s.prepare S env).view = s.view := by
  have hitem : (s.prepare S env).item = s.item := by
    funext d
    rcases (item_prepare h d : (s.prepare S env).item d = _ ∨ _) with heq | ⟨-, x, hx, hd⟩
    · exact heq
    · rw [hkeep d x hx] at hd
      cases hd
  unfold view
  rw [hitem, tmpVb_prepare, vbm_prepare, edgeNum_prepare]

end Prepare

section Steps

variable {s : VertexEdges}

/-- The items do not depend on version blocks and degree. -/
theorem Rep.of_items {t : VertexEdges} (h : Rep s) (htmpEv : t.tmpEv = s.tmpEv)
    (hn : t.edgesAndVersions = s.edgesAndVersions) (hnum : t.num = s.num)
    (hcap : t.capacity = s.capacity) (hm : t.m = s.m) (hstart : t.start = s.start)
    (htmp : t.tmpItem = s.tmpItem) : Rep t :=
  h.congr htmpEv hn hcap hnum hm fun k _ => by cases k <;> simp [itemE, hstart, htmp]

theorem Wf.of_tmpVb (h : Wf s) {f : Nat → TmpVersionBlock}
    (hf : ∀ slot, (∀ x ∈ (f slot).entries, Placed s x) ∧ (f slot).timestamp < 2 ^ 31)
    (edgeNum : Int) (vbm : VersionBlockManager) :
    Wf { s with tmpVb := f, edgeNum := edgeNum, vbm := vbm } :=
  ⟨h.rep.of_items rfl rfl rfl rfl rfl rfl rfl,
    fun slot x hx => ((hf slot).1 x hx).congr rfl rfl fun l hl => ⟨hl, by cases l <;> rfl⟩,
    fun slot => (hf slot).2⟩

theorem Wf.setItem (h : Wf s) {l : Loc} {x : Item} (hx : x.1.key = (s.itemE l).key) :
    Wf (s.setItem l x) := by
  refine ⟨h.rep.setItem hx, fun slot y hy => ?_, by rw [tmpVb_setItem]; exact h.stamp⟩
  rw [tmpVb_setItem] at hy
  exact (h.placed slot y hy).setItem h.rep hx

@[simp] theorem edgeNum_setItem {l : Loc} {x : Item} : (s.setItem l x).edgeNum = s.edgeNum := by
  cases l <;> rfl

theorem view_setItem (h : Rep s) {l : Loc} {x : Item} (hl : l ∈ s.locs)
    (hx : x.1.key = (s.itemE l).key) : (s.setItem l x).view =
      { s.view with head := Function.update s.view.head (s.itemE l).key (some (headOf x)) } := by
  have hhead : (fun d => ((s.setItem l x).item d).map headOf) =
      Function.update s.view.head (s.itemE l).key (some (headOf x)) := by
    funext d
    rw [h.item_setItem hl hx]
    by_cases hd : d = (s.itemE l).key
    · subst hd; simp
    · simp [hd, view]
  unfold view at hhead ⊢
  rw [hhead]
  simp

/-- One slot may change as long as its entries stay placed. -/
theorem Wf.update (h : Wf s) (slot : Nat) {t : TmpVersionBlock}
    (hp : ∀ x ∈ t.entries, Placed s x) (ht : t.timestamp < 2 ^ 31) (edgeNum : Int)
    (vbm : VersionBlockManager) :
    Wf { s with
      tmpVb := Function.update s.tmpVb slot t
      edgeNum := edgeNum
      vbm := vbm } := by
  refine h.of_tmpVb (fun k => ?_) edgeNum vbm
  by_cases hs : k = slot
  · subst hs
    rw [Function.update_self]
    exact ⟨hp, ht⟩
  · rw [Function.update_of_ne hs]
    exact ⟨h.placed k, h.stamp k⟩

theorem Wf.openTvb (h : Wf s) (b : Build) {epoch : Nat} (he : epoch < 2 ^ 31) :
    Wf (s.openTvb b epoch).2 := by
  unfold VertexEdges.openTvb
  split_ifs
  · exact h
  · exact h.update _ (by simp) he _ _
  · exact h.update _ (by simp) he _ _

theorem view_openTvb (epoch : Nat) : (s.openTvb .fineGrain epoch).2.view = s.view.openTvb epoch := by
  unfold VertexEdges.openTvb View.openTvb
  have hstamp : s.view.stamp (epoch % 16) = (s.tmpVb (epoch % 16)).timestamp := rfl
  rw [hstamp, if_pos rfl]
  split_ifs
  · rfl
  · unfold view
    congr 1
    · funext slot
      by_cases hs : slot = epoch % 16
      · subst hs; simp
      · simp [hs]
    · funext slot
      by_cases hs : slot = epoch % 16
      · subst hs; simp
      · simp [hs]

theorem Wf.insertVersion (h : Wf s) (w : Write) {l : Loc} {edge offset : Nat} (hl : l ∈ s.locs)
    (hoff : decodeOffset offset = l) (hk : (s.itemE l).key = clearDelete edge)
    (block index link lastEpoch oldIntra newIntra : Nat) :
    Wf (s.insertVersion w edge block index link offset lastEpoch oldIntra newIntra).2 := by
  refine h.update _ (fun x hx => ?_) ?_ _ _
  · rcases List.mem_append.mp hx with hx | hx
    · exact h.placed _ x hx
    · obtain rfl := List.mem_singleton.mp hx
      exact Or.inl ⟨rfl, l, hl, hoff, hk⟩
  · exact h.stamp _

theorem view_insertVersion (w : Write) (edge block index link offset lastEpoch oldIntra
    newIntra : Nat) :
    (s.insertVersion w edge block index link offset lastEpoch oldIntra newIntra).2.view =
      s.view.push (w.epoch % 16)
        ⟨edge, w.weight, ⟨lastEpoch, oldIntra⟩, newIntra, clearTmp block, index⟩ := by
  unfold VertexEdges.insertVersion View.push view
  congr 1
  · funext slot
    by_cases hs : slot = w.epoch % 16
    · subst hs; simp [TmpVersionBlock.insertVersion]
    · simp [hs]
  · funext slot
    by_cases hs : slot = w.epoch % 16
    · subst hs; simp [TmpVersionBlock.insertVersion, VersionEntry.change, VersionEntry.old]
    · simp [hs]

theorem Wf.modify (h : Wf s) (slot i : Nat) {f : VersionEntry → VersionEntry}
    (hf : ∀ x, (f x).offset = x.offset ∧ (f x).mergeTimes = x.mergeTimes ∧ (f x).edge = x.edge) :
    Wf { s with
      tmpVb := Function.update s.tmpVb slot
        (.mk (s.tmpVb slot).timestamp ((s.tmpVb slot).entries.modify i f)) } := by
  refine h.update _ (fun x hx => ?_) ?_ _ _
  · obtain ⟨y, hy, rfl | rfl⟩ := mem_modify hx
    · exact h.placed slot _ hy
    · obtain ⟨h1, h2, h3⟩ := hf y
      have := h.placed slot y hy
      unfold Placed VersionEntry.key at this ⊢
      rwa [h1, h2, h3]
  · exact h.stamp slot

theorem Wf.linkNext (h : Wf s) (isTmp : Bool) (lastEpoch lastIndex epoch idx : Nat) :
    Wf (s.linkNext isTmp lastEpoch lastIndex epoch idx) := by
  unfold VertexEdges.linkNext
  split_ifs
  · exact h.modify _ _ fun x => ⟨rfl, rfl, rfl⟩
  · exact h

theorem clearTmp_or {b epoch : Nat} (h : epoch < 2 ^ 31) :
    clearTmp (b ||| epoch) = clearTmp b ||| epoch := by
  unfold clearTmp
  rw [Nat.or_mod_two_pow, Nat.mod_eq_of_lt h]

theorem view_modify (slot i : Nat) {f : VersionEntry → VersionEntry} {g : Change → Change}
    (hf : ∀ x, (f x).change = g x.change) :
    VertexEdges.view { s with
      tmpVb := Function.update s.tmpVb slot
        (.mk (s.tmpVb slot).timestamp ((s.tmpVb slot).entries.modify i f)) } =
    { s.view with
      changes := Function.update s.view.changes slot ((s.view.changes slot).modify i g) } := by
  unfold view
  congr 1
  · funext k
    by_cases hs : k = slot
    · subst hs; simp
    · simp [hs]
  · funext k
    by_cases hs : k = slot
    · subst hs; simp [map_modify hf]
    · simp [hs]

theorem view_linkNext (isTmp : Bool) (lastEpoch lastIndex idx : Nat) {epoch : Nat}
    (h : epoch < 2 ^ 31) :
    (s.linkNext isTmp lastEpoch lastIndex epoch idx).view =
      s.view.linkNext isTmp lastEpoch lastIndex epoch idx := by
  unfold VertexEdges.linkNext View.linkNext
  split_ifs
  · refine view_modify _ _ fun x => ?_
    simp [VersionEntry.change, VersionEntry.old, clearTmp_or h]
  · rfl

@[simp] theorem creation_setTmp (e : Nat) {epoch i : Nat} (h : epoch < 2 ^ 31) :
    EdgeWithIndex.creation ⟨e, setTmp epoch, i⟩ = ⟨epoch, i⟩ := by
  simp [EdgeWithIndex.creation, EdgeWithIndex.getCoarseC, clearTmp_of_lt h]

theorem head_itemAt (h : Rep s) {l : Loc} (hl : l ∈ s.locs) :
    s.view.head (s.itemE l).key = some (headOf (s.itemAt l)) := by
  simp only [view, h.item_eq hl, Option.map_some]

theorem addVersion_refines (h : Wf s) {l : Loc} {offset : Nat} {w : Write} (hl : l ∈ s.locs)
    (hoff : decodeOffset offset = l) (hk : (s.itemE l).key = w.dst) (delete : Bool)
    (hnd : delete = false → isDelete (s.itemE l).e = false) {lastEpoch : Nat}
    (hle : lastEpoch < 2 ^ 31) (lastIndex oldIntra : Nat) :
    Wf (s.addVersion l offset delete lastEpoch lastIndex oldIntra w) ∧
    (s.addVersion l offset delete lastEpoch lastIndex oldIntra w).view =
      s.view.addVersion delete (isTmp (s.itemE l).block) ⟨lastEpoch, oldIntra⟩ lastIndex
        (s.itemP l).e w := by
  unfold VertexEdges.addVersion
  simp only
  set edge := if delete then setDelete w.dst else w.dst with hedge
  have hkey : clearDelete edge = w.dst := by
    cases delete <;> simp [hedge, clearDelete_of_lt w.dst_lt]
  set r := s.insertVersion w edge lastEpoch lastIndex (lastEpoch * 2 ^ 32 + lastIndex) offset
    lastEpoch oldIntra w.txn.intra with hr
  have hwr : Wf r.2 := h.insertVersion w hl hoff (hk.trans hkey.symm) _ _ _ _ _ _
  have hwt := hwr.linkNext (isTmp (s.itemE l).block) lastEpoch lastIndex w.epoch r.1
  have hvt := view_linkNext (s := r.2) (isTmp (s.itemE l).block) lastEpoch lastIndex r.1 w.epoch_lt
  rw [show r.2.view = _ from view_insertVersion w edge _ _ _ _ _ _ _, clearTmp_of_lt hle] at hvt
  set t := r.2.linkNext (isTmp (s.itemE l).block) lastEpoch lastIndex w.epoch r.1 with ht
  -- the bookkeeping of the version blocks does not touch the items
  have hitem : t.locs = s.locs ∧ t.itemE l = s.itemE l := by
    simp only [ht, hr, VertexEdges.linkNext]
    split_ifs <;> exact ⟨rfl, by cases l <;> rfl⟩
  have hlt : l ∈ t.locs := hitem.1 ▸ hl
  have hx : EdgeWithIndex.key ⟨if delete then setDelete (s.itemE l).e else (s.itemE l).e,
      setTmp w.epoch, w.txn.intra⟩ = (t.itemE l).key := by
    rw [hitem.2]
    cases delete <;> simp [EdgeWithIndex.key]
  refine ⟨hwt.setItem hx, ?_⟩
  rw [view_setItem hwt.rep hlt hx, hitem.2, hk, hvt]
  have hidx : r.1 = (s.view.changes (w.epoch % 16)).length := by
    simp [hr, VertexEdges.insertVersion, TmpVersionBlock.insertVersion, view]
  have hhead : headOf (⟨if delete then setDelete (s.itemE l).e else (s.itemE l).e,
      setTmp w.epoch, w.txn.intra⟩, ⟨(s.itemP l).e, if delete then 0 else r.1, 0⟩) =
      ⟨delete, ⟨w.epoch, w.txn.intra⟩, true, (s.itemP l).e, if delete then 0 else r.1⟩ := by
    cases delete with
    | false => simp [headOf, hnd rfl, creation_setTmp _ w.epoch_lt]
    | true => simp [headOf, creation_setTmp _ w.epoch_lt]
  rw [hhead, hidx]
  rfl

theorem insertFine_refines (h : Wf s) {l : Loc} {offset : Nat} {w : Write} (hl : l ∈ s.locs)
    (hoff : decodeOffset offset = l) (hk : (s.itemE l).key = w.dst)
    (hnd : isDelete (s.itemE l).e = false) (wasDeleted : Bool) :
    Wf (s.insertFine l offset wasDeleted w).2 ∧
    ((s.insertFine l offset wasDeleted w).1, (s.insertFine l offset wasDeleted w).2.view) =
      s.view.insertHead (some { headOf (s.itemAt l) with deleted := wasDeleted }) 0 w := by
  have hhead := head_itemAt h.rep hl
  rw [hk] at hhead
  have hlast : View.lastTime (some { headOf (s.itemAt l) with deleted := wasDeleted }) =
      ⟨if wasDeleted then 0 else (s.itemE l).getCoarseC,
        if wasDeleted then 0 else (s.itemE l).index⟩ := by
    cases wasDeleted <;> rfl
  have hidx : View.lastIndex 0 (some { headOf (s.itemAt l) with deleted := wasDeleted }) =
      if wasDeleted then 0 else predecessor (s.itemP l).block := by
    cases wasDeleted <;> rfl
  have hle : (if wasDeleted then 0 else (s.itemE l).getCoarseC) < 2 ^ 31 := by
    split_ifs
    · decide
    · exact Nat.mod_lt _ (by decide)
  unfold VertexEdges.insertFine View.insertHead
  rw [hlast, hidx]
  simp only
  generalize (if wasDeleted then 0 else (s.itemE l).getCoarseC) = lastEpoch at hle
  by_cases hc : conflicts w.txn lastEpoch w.epoch = true
  · rw [if_pos hc, if_pos hc]
    refine ⟨h, Prod.ext rfl ?_⟩
    have : Function.update s.view.head w.dst (Option.map (fun h : Head => { h with deleted := false })
        (some { headOf (s.itemAt l) with deleted := wasDeleted })) = s.view.head := by
      refine Function.update_eq_self_iff.mpr ?_
      rw [hhead]
      simp [headOf, itemAt, hnd]
    simp only [this]
  · rw [if_neg hc, if_neg hc]
    obtain ⟨hw, hv⟩ := addVersion_refines h hl hoff hk false (fun _ => hnd) hle
      (if wasDeleted then 0 else predecessor (s.itemP l).block)
      (if wasDeleted then 0 else (s.itemE l).index)
    exact ⟨hw, Prod.ext rfl hv⟩

theorem deleteFine_refines (h : Wf s) {l : Loc} {offset : Nat} {w : Write} (hl : l ∈ s.locs)
    (hoff : decodeOffset offset = l) (hk : (s.itemE l).key = w.dst) :
    Wf (s.deleteFine l offset w).2 ∧
    ((s.deleteFine l offset w).1, (s.deleteFine l offset w).2.view) =
      s.view.deleteFine (headOf (s.itemAt l)) w := by
  have hle : (s.itemE l).getCoarseC < 2 ^ 31 := Nat.mod_lt _ (by decide)
  unfold VertexEdges.deleteFine View.deleteFine
  by_cases hc : conflicts w.txn (s.itemE l).getCoarseC w.epoch = true
  · have hc' : conflicts w.txn (headOf (s.itemAt l)).time.e w.epoch = true := hc
    rw [if_pos hc, if_pos hc']
    exact ⟨h, rfl⟩
  · have hc' : ¬ conflicts w.txn (headOf (s.itemAt l)).time.e w.epoch = true := hc
    rw [if_neg hc, if_neg hc']
    obtain ⟨hw, hv⟩ := addVersion_refines h hl hoff hk true (by simp) hle
      (predecessor (s.itemP l).block) (s.itemE l).index
    exact ⟨hw, Prod.ext rfl hv⟩

theorem registered_openTvb (b : Build) (epoch : Nat) :
    (s.openTvb b epoch).1 = decide (s.view.stamp (epoch % 16) ≠ epoch) := by
  have hstamp : s.view.stamp (epoch % 16) = (s.tmpVb (epoch % 16)).timestamp := rfl
  unfold VertexEdges.openTvb
  rw [hstamp]
  split_ifs with h <;> simp [h]

theorem openTvb_items (b : Build) (epoch : Nat) (l : Loc) :
    (s.openTvb b epoch).2.locs = s.locs ∧ (s.openTvb b epoch).2.itemAt l = s.itemAt l := by
  unfold VertexEdges.openTvb
  split_ifs <;> exact ⟨rfl, by cases l <;> rfl⟩

theorem View.openTvb_head (v : View) (epoch : Nat) (f : Nat → Option Head) :
    View.openTvb { v with head := f } epoch = { v.openTvb epoch with head := f } := by
  unfold View.openTvb
  split_ifs <;> rfl

/-- The head below a write does not matter beyond what the write reads of it. -/
theorem View.insertHead_update (v : View) (w : Write) (x : Option Head) (h : Option Head)
    (unset : Nat) :
    View.insertHead { v with head := Function.update v.head w.dst x } h unset w =
      v.insertHead h unset w := by
  unfold View.insertHead View.addVersion
  simp only [View.push, View.linkNext]
  split_ifs <;> simp

end Steps

section Coarse

variable {s : VertexEdges} {w : Write} {l : Loc} {offset : Nat} {delete : Bool}

/-- The epoch of the newest version, as both AVB_COARSE writes read it. -/
def coarseEpoch (s : VertexEdges) (l : Loc) : Nat :=
  if isTmp (s.itemE l).block then (s.itemP l).block else (s.itemE l).block

/-- The position of the newest version: its entry while it is pending. -/
def coarseIndex (s : VertexEdges) (l : Loc) : Nat :=
  if isTmp (s.itemE l).block then (s.itemP l).index else (s.itemE l).index

/-- The edge word that an AVB_COARSE write leaves. -/
def coarseEdge (s : VertexEdges) (l : Loc) (delete : Bool) : Nat :=
  if delete then setDelete (s.itemE l).e else (s.itemE l).e

/-- What the tail of both AVB_COARSE writes does: nothing, or it folds the write into the entry of
its epoch, or adds an entry. -/
inductive CoarseTail (s : VertexEdges) (l : Loc) (offset : Nat) (delete : Bool) (w : Write)
    (r : Bool × VertexEdges) : Prop
  | conflict (conflict : conflicts w.txn (s.coarseEpoch l) w.epoch = true) (result : (false, s) = r)
  | unfolded (fits : conflicts w.txn (s.coarseEpoch l) w.epoch = false)
      (same : s.coarseEpoch l = w.epoch) (reads : w.txn.writeOnly = false) (result : (false, s) = r)
  | folded (fits : conflicts w.txn (s.coarseEpoch l) w.epoch = false)
      (same : s.coarseEpoch l = w.epoch) (blind : w.txn.writeOnly = true) (vb : TmpVersionBlock)
      (changed : (s.tmpVb (w.epoch % 16)).changeVersion w.weight (s.coarseIndex l) w.txn
        s.mergeTimes offset = some vb)
      (result : (true, setItemE { s with tmpVb := Function.update s.tmpVb (w.epoch % 16) vb } l
        { s.itemE l with e := s.coarseEdge l delete }) = r)
  | added (fits : conflicts w.txn (s.coarseEpoch l) w.epoch = false)
      (other : s.coarseEpoch l ≠ w.epoch) (block index link : Nat)
      (result : (true,
        let i := s.insertVersion w w.dst block index link offset (s.coarseEpoch l) 0 0
        (i.2.linkNext (isTmp (s.itemE l).block) (s.coarseEpoch l) (s.coarseIndex l) w.epoch
          i.1).setItem l (⟨s.coarseEdge l delete, setTmp (s.itemE l).block, (s.itemE l).index⟩,
            ⟨(s.itemP l).e, w.epoch, i.1⟩)) = r)

theorem writeCoarse_tail (s : VertexEdges) (l : Loc) (offset : Nat) (delete : Bool) (w : Write) :
    CoarseTail s l offset delete w (s.writeCoarse l offset delete w) := by
  unfold writeCoarse
  dsimp only
  rw [← coarseEpoch, ← coarseIndex, ← coarseEdge]
  cases hc : conflicts w.txn (s.coarseEpoch l) w.epoch with
  | true => exact .conflict hc rfl
  | false =>
    rw [if_neg Bool.false_ne_true]
    by_cases hepoch : s.coarseEpoch l = w.epoch
    · rw [if_pos hepoch]
      cases hw : w.txn.writeOnly with
      | false =>
        refine .unfolded hc hepoch hw ?_
        rw [TmpVersionBlock.changeVersion, hw]
        rfl
      | true =>
        cases hvb : (s.tmpVb (w.epoch % 16)).changeVersion w.weight (s.coarseIndex l) w.txn
            s.mergeTimes offset with
        | none => simp [TmpVersionBlock.changeVersion, hw] at hvb
        | some vb => exact .folded hc hepoch hw vb hvb rfl
    · rw [if_neg hepoch]
      split_ifs
      · exact .added hc hepoch _ _ _ rfl
      · exact .added hc hepoch _ _ _ rfl

theorem clearDelete_coarseEdge (s : VertexEdges) (l : Loc) (delete : Bool) :
    clearDelete (s.coarseEdge l delete) = (s.itemE l).key := by
  cases delete
  · rfl
  · exact clearDelete_setDelete _

end Coarse

section Found

variable {s : VertexEdges} {w : Write} {f : Found}

/-- The item of a known destination without its deletion mark. -/
def unmarked (s : VertexEdges) (l : Loc) : Item :=
  ({ s.itemE l with e := clearDelete (s.itemE l).e }, s.itemP l)

/-- The first item of a destination. -/
def firstItem (s : VertexEdges) (w : Write) : Item :=
  (⟨w.dst, 0, 0⟩, { s.tmpItem (s.tmpEv + tmpNum) with e := w.weight })

/-- What insert_edge_block goes on with when the lookup is right. -/
inductive FoundItem (s : VertexEdges) (w : Write) (f : Found) : Prop
  | known (l : Loc) (offset : Nat) (loc : l ∈ s.locs) (key : (s.itemE l).key = w.dst)
      (decode : decodeOffset offset = l)
      (found : ⟨s.setItem l (s.unmarked l), l, offset, isDelete (s.itemE l).e⟩ = f)
  | first (unknown : s.m w.dst = false)
      (found : ⟨s.append (s.firstItem w), .tmp s.tmpEv, setTmp s.tmpEv, false⟩ = f)

theorem key_unmarked (s : VertexEdges) (l : Loc) : (s.unmarked l).1.key = (s.itemE l).key :=
  clearDelete_clearDelete _

theorem Rep.findOrAppend_cases (h : Rep s) (hlook : s.LookupRight w.dst)
    (hf : s.findOrAppend w = some f) : FoundItem s w f := by
  cases hm : s.m w.dst with
  | true =>
    obtain ⟨l, hl, offset, hget, hk, hoff⟩ := hlook hm
    refine .known l offset hl hk hoff ?_
    rw [unmarked, ← h.setItemE_eq hl]
    simpa only [findOrAppend, hm, if_true, hget, Option.map_some, Option.some.injEq] using hf
  | false =>
    refine .first hm ?_
    simpa only [findOrAppend, hm, Bool.false_eq_true, if_false, Option.some.injEq, firstItem] using hf

theorem FoundItem.tmpVb (hf : FoundItem s w f) : f.state.tmpVb = s.tmpVb := by
  cases hf with
  | known l _ _ _ _ hf =>
    subst hf
    exact tmpVb_setItem
  | first _ hf =>
    subst hf
    rfl

theorem FoundItem.located (hf : FoundItem s w f) (h : Rep s) (hlt : s.tmpEv < tmpNum) :
    f.loc ∈ f.state.locs ∧ decodeOffset f.offset = f.loc ∧ (f.state.itemE f.loc).key = w.dst := by
  cases hf with
  | known l offset hl hk hoff hf =>
    subst hf
    refine ⟨?_, hoff, ?_⟩
    · rw [locs_setItem]
      exact hl
    · rw [h.key_setItem (key_unmarked s l) l hl, hk]
  | first hm hf =>
    subst hf
    have hlt31 : s.tmpEv < 2 ^ 31 := hlt.trans (by decide)
    refine ⟨mem_locs_append.mpr (Or.inl rfl), ?_, ?_⟩
    · simp [decodeOffset, clearTmp_of_lt hlt31]
    · rw [show (s.append (s.firstItem w)).itemE (.tmp s.tmpEv) = (s.firstItem w).1 from
        congrArg Prod.fst (itemAt_append_new hlt)]
      exact clearDelete_of_lt w.dst_lt

end Found

section Refinement

variable {S : StdSort} {env : Env} {s : VertexEdges} {w : Write}

/-- From the item on, an insertion is the one of the view. -/
theorem insertFound_refines {f : Found} {h : Option Head} (unset : Nat) (hf : Wf f.state)
    (hl : f.loc ∈ f.state.locs) (hoff : decodeOffset f.offset = f.loc)
    (hk : (f.state.itemE f.loc).key = w.dst) (hnd : isDelete (f.state.itemE f.loc).e = false)
    {v : View} (hv : f.state.view =
      { v with head := Function.update v.head w.dst (some (headOf (f.state.itemAt f.loc))) })
    (hh : ∀ u : View,
      u.insertHead (some { headOf (f.state.itemAt f.loc) with deleted := f.wasDeleted }) 0 w =
        u.insertHead h unset w) :
    let t := (f.state.openTvb .fineGrain w.epoch).2
    let r := t.insertFine f.loc f.offset f.wasDeleted w
    Wf r.2 ∧ (f.state.openTvb .fineGrain w.epoch).1 = decide (v.stamp (w.epoch % 16) ≠ w.epoch) ∧
      (r.1, r.2.view) = (v.openTvb w.epoch).insertHead h unset w := by
  intro t r
  obtain ⟨hlocs, hitem⟩ := openTvb_items (s := f.state) .fineGrain w.epoch f.loc
  have hitemE : t.itemE f.loc = f.state.itemE f.loc := congrArg Prod.fst hitem
  obtain ⟨hw, hview⟩ := insertFine_refines (s := t) (hf.openTvb .fineGrain w.epoch_lt)
    (hlocs ▸ hl) hoff (by rw [hitemE, hk]) (by rw [hitemE, hnd]) f.wasDeleted
  refine ⟨hw, ?_, ?_⟩
  · rw [registered_openTvb, hv]
  · rw [hview, hitem, hh, view_openTvb, hv, View.openTvb_head]
    have hhead : (v.openTvb w.epoch).head = v.head := by
      unfold View.openTvb
      split_ifs <;> rfl
    rw [← hhead]
    exact View.insertHead_update _ _ _ _ _

theorem Wf.append (h : Wf s) (hlt : s.tmpEv < tmpNum) {x : Item} (he : x.1.e < 2 ^ 63)
    (hnew : s.m x.1.e = false) : Wf (s.append x) :=
  ⟨h.rep.append hlt he hnew, fun slot y hy => (h.placed slot y hy).congr rfl rfl fun _ hk =>
    ⟨mem_locs_append.mpr (Or.inr hk), congrArg (fun z : Item => z.1.key) (itemAt_append hlt hk)⟩,
    h.stamp⟩

theorem view_append (h : Rep s) (hlt : s.tmpEv < tmpNum) {x : Item} (he : x.1.e < 2 ^ 63)
    (hnew : s.m x.1.e = false) : (s.append x).view =
      { s.view with head := Function.update s.view.head x.1.e (some (headOf x)) } := by
  have hhead : (fun d => ((s.append x).item d).map headOf) =
      Function.update s.view.head x.1.e (some (headOf x)) := by
    funext d
    rw [h.item_append hlt he hnew]
    by_cases hd : d = x.1.e
    · subst hd; simp
    · simp [hd, view]
  unfold view at hhead ⊢
  rw [hhead]
  rfl

theorem head_eq_none (h : Rep s) {d : Nat} (hm : s.m d = false) : s.view.head d = none := by
  cases hi : s.item d with
  | none => simp [view, hi]
  | some x =>
    have := (h.m_iff d).mpr (by rw [hi]; rfl)
    rw [hm] at this
    cases this

/-- insert_edge_block is the insertion of the view, after the merge of a full buffer. -/
theorem insert_refines (h : Wf (s.prepare S env)) (hlt : (s.prepare S env).tmpEv < tmpNum)
    (hlook : LookupRight (s.prepare S env) w.dst) :
    ∃ r unset, insertEdgeBlock .fineGrain S env s w = some r ∧ Wf r.state ∧
      r.registered = decide ((s.prepare S env).view.stamp (w.epoch % 16) ≠ w.epoch) ∧
      (r.accepted, r.state.view) =
        ((s.prepare S env).view.openTvb w.epoch).insertFine unset w := by
  unfold insertEdgeBlock
  generalize s.prepare S env = p at *
  have hopen : (p.view.openTvb w.epoch).head = p.view.head := by
    unfold View.openTvb
    split_ifs <;> rfl
  unfold View.insertFine
  rw [hopen]
  cases hm : p.m w.dst with
  | true =>
    obtain ⟨l, hl, offset, hget, hk, hoff⟩ := hlook hm
    have hhead := head_itemAt h.rep hl
    rw [hk] at hhead
    -- the item is found and its DELETION bit is cleared
    let x : EdgeWithIndex := { p.itemE l with e := clearDelete (p.itemE l).e }
    have hx : x.key = (p.itemE l).key := by simp [x, EdgeWithIndex.key]
    let f : Found := ⟨p.setItemE l x, l, offset, isDelete (p.itemE l).e⟩
    have hf : p.findOrAppend w = some f := by
      simp [findOrAppend, hm, hget, f, x]
    have hset : f.state = p.setItem l (x, p.itemP l) := h.rep.setItemE_eq hl x
    have hat : f.state.itemAt l = (x, p.itemP l) := by
      rw [hset, h.rep.itemAt_setItem hl hl, if_pos rfl]
    have hatE : f.state.itemE l = x := congrArg Prod.fst hat
    obtain ⟨hw, hreg, hview⟩ := insertFound_refines (w := w) (f := f) (h := p.view.head w.dst)
      0 (v := p.view) (by rw [hset]; exact h.setItem hx)
      (by rw [hset]; simpa using hl) hoff (by rw [hatE, hx, hk]) (by rw [hatE]; simp [x])
      (by rw [hat, hset, view_setItem h.rep hl hx, hk]) (fun u => by
        rw [hhead, hat]
        congr 1)
    rw [hf]
    exact ⟨_, 0, rfl, hw, hreg, hview⟩
  | false =>
    let x : Item := (⟨w.dst, 0, 0⟩, { p.tmpItem (p.tmpEv + tmpNum) with e := w.weight })
    let f : Found := ⟨p.append x, .tmp p.tmpEv, setTmp p.tmpEv, false⟩
    have hf : p.findOrAppend w = some f := by simp [findOrAppend, hm, f, x]
    have hat : f.state.itemAt f.loc = x := itemAt_append_new hlt
    have hatE : f.state.itemE f.loc = x.1 := congrArg Prod.fst hat
    have hlt31 : p.tmpEv < 2 ^ 31 := hlt.trans (by decide)
    obtain ⟨hw, hreg, hview⟩ := insertFound_refines (w := w) (f := f) (h := p.view.head w.dst)
      (predecessor x.2.block) (v := p.view) (h.append hlt w.dst_lt hm)
      (mem_locs_append.mpr (Or.inl rfl))
      (by simp [f, decodeOffset, clearTmp_of_lt hlt31])
      (by rw [hatE]; exact clearDelete_of_lt w.dst_lt)
      (by rw [hatE]; exact isDelete_of_lt w.dst_lt)
      (by rw [hat]; exact view_append h.rep hlt w.dst_lt hm) (fun u => by
        rw [head_eq_none h.rep hm, hat]
        have hc : conflicts w.txn 0 w.epoch = false := by simp [conflicts]
        simp [View.insertHead, View.lastTime, View.lastIndex, View.isPending, headOf, x, hc,
          EdgeWithIndex.creation, EdgeWithIndex.getCoarseC, clearTmp, isTmp, f])
    rw [hf]
    exact ⟨_, _, rfl, hw, hreg, hview⟩

/-- delete_edge_block is the deletion of the view; an unknown destination is refused. -/
theorem delete_refines (h : Wf (s.prepare S env)) (hlook : LookupRight (s.prepare S env) w.dst) :
    ((s.prepare S env).view.head w.dst = none →
      deleteEdgeBlock .fineGrain S env s w = some ⟨false, false, s.prepare S env⟩) ∧
    ∀ hd, (s.prepare S env).view.head w.dst = some hd →
      ∃ r, deleteEdgeBlock .fineGrain S env s w = some r ∧ Wf r.state ∧
        r.registered = decide ((s.prepare S env).view.stamp (w.epoch % 16) ≠ w.epoch) ∧
        (r.accepted, r.state.view) =
          ((s.prepare S env).view.openTvb w.epoch).deleteFine hd w := by
  unfold deleteEdgeBlock
  generalize s.prepare S env = p at *
  cases hm : p.m w.dst with
  | false =>
    have hnone := head_eq_none h.rep hm
    refine ⟨fun _ => by simp [hm], fun hd hhd => ?_⟩
    rw [hnone] at hhd
    cases hhd
  | true =>
    obtain ⟨l, hl, offset, hget, hk, hoff⟩ := hlook hm
    have hhead := head_itemAt h.rep hl
    rw [hk] at hhead
    rw [hhead]
    refine ⟨fun hnone => absurd hnone (by simp), fun hd hhd => ?_⟩
    obtain rfl := Option.some.inj hhd
    obtain ⟨hlocs, hitem⟩ := openTvb_items (s := p) .fineGrain w.epoch l
    obtain ⟨hw, hview⟩ := deleteFine_refines (s := (p.openTvb .fineGrain w.epoch).2)
      (h.openTvb .fineGrain w.epoch_lt) (hlocs ▸ hl) hoff
      ((congrArg (fun y : Item => y.1.key) hitem).trans hk)
    rw [hitem, view_openTvb] at hview
    simp only [hm, if_true, hget, Option.map_some]
    exact ⟨_, rfl, hw, registered_openTvb _ _, hview⟩

end Refinement

section Publish

variable {S : StdSort} {s : VertexEdges} {slot : Nat} {v : View}

theorem clearTmp_xor (b : Nat) : clearTmp (b ^^^ 2 ^ 31) = clearTmp b := by
  unfold clearTmp
  rw [Nat.xor_mod_two_pow, Nat.mod_self, Nat.xor_zero]

theorem view_changeLast (link : VersionLink) (vb : Nat) : (s.changeLast link vb).view = s.view := by
  have h := view_modify (s := s) (link.block % 16) link.index (f := fun x =>
    { x with link := ⟨x.link.block ^^^ 2 ^ 31, x.link.index, vb⟩ }) (g := id) fun x => by
      simp only [VersionEntry.change, VersionEntry.old, clearTmp_xor, id]
  rw [List.modify_id, Function.update_eq_self] at h
  exact h

theorem Wf.changeLast (h : Wf s) (link : VersionLink) (vb : Nat) : Wf (s.changeLast link vb) :=
  h.modify _ _ fun _ => ⟨rfl, rfl, rfl⟩

theorem changeLast_items (link : VersionLink) (vb : Nat) (l : Loc) :
    (s.changeLast link vb).locs = s.locs ∧ (s.changeLast link vb).itemE l = s.itemE l :=
  ⟨rfl, by cases l <;> rfl⟩

/-- The loops of Transform change heads, the edge counter and the records alike. -/
structure Related (v : View) (t : Progress) (p : View.Publication) : Prop where
  wf : Wf t.state
  view : t.state.view = { v with head := p.head }
  edgeNum : t.edgeNum = p.edgeNum
  records : t.records = p.records

/-- The entry of an index, where its item is, and what the view knows of both. -/
theorem Related.locate {t : Progress} {p : View.Publication} (h : Related v t p) {i : Nat}
    (hi : i < (v.changes slot).length) :
    (t.state.entry slot i).change = (v.changes slot).getD i default ∧
    ∃ l ∈ t.state.locs, t.state.locate (t.state.entry slot i) = some l ∧
      (t.state.itemE l).key = ((v.changes slot).getD i default).key ∧
      p.head ((v.changes slot).getD i default).key = some (headOf (t.state.itemAt l)) := by
  have hcs : (t.state.tmpVb slot).entries.map VersionEntry.change = v.changes slot :=
    congrArg (fun u : View => u.changes slot) h.view
  have hchange : (t.state.entry slot i).change = (v.changes slot).getD i default := by
    rw [← hcs, entry]
    exact (List.getD_map _ _ VersionEntry.change).symm
  have hlen : i < (t.state.tmpVb slot).entries.length := by
    rwa [← hcs, List.length_map] at hi
  have hmem : t.state.entry slot i ∈ (t.state.tmpVb slot).entries := by
    rw [entry, List.getD_eq_getElem _ _ hlen]
    exact List.getElem_mem hlen
  obtain ⟨l, hl, hloc, hk⟩ := (h.wf.placed slot _ hmem).locate h.wf.rep
  have hkey : (t.state.itemE l).key = ((v.changes slot).getD i default).key := by
    rw [hk, ← hchange]
    rfl
  refine ⟨hchange, l, hl, hloc, hkey, ?_⟩
  have hhead := head_itemAt h.wf.rep hl
  rw [h.view, hkey] at hhead
  exact hhead

theorem publishFresh_refines (slot : Nat) {epoch : Nat} (he : epoch < 2 ^ 31) {t : Progress}
    {p : View.Publication} (h : Related v t p) {i : Nat} (hi : i < (v.changes slot).length) :
    ∃ t', publishFresh .fineGrain slot epoch t i = some t' ∧
      Related v t' (View.publishFresh epoch p ((v.changes slot).getD i default)) := by
  obtain ⟨hchange, l, hl, hloc, hk, hhead⟩ := h.locate hi
  obtain ⟨hwf, hview, hnum, hrec⟩ := h
  rw [← hchange] at hk hhead ⊢
  set x := t.state.entry slot i with hx
  unfold publishFresh View.publishFresh
  simp only [← hx, hloc, hhead, Option.map_some]
  refine ⟨_, rfl, ?_⟩
  have hnext : x.link.hasNextVB = true ↔ x.change.next ≠ 0 := by
    simp [VersionLink.hasNextVB, VersionEntry.change]
  simp only [View.freshHead, ← hnext]
  by_cases hn : x.link.hasNextVB = true
  · -- a later write of the edge is pending: only the weight is published
    rw [if_pos hn, if_pos hn]
    obtain ⟨hlocs, hitem⟩ := changeLast_items (s := t.state) x.link 0 l
    have hw := hwf.changeLast x.link 0
    have hlt : l ∈ (t.state.changeLast x.link 0).locs := hlocs ▸ hl
    have hy : (t.state.itemE l).key = ((t.state.changeLast x.link 0).itemE l).key := by rw [hitem]
    refine ⟨hw.setItem hy, ?_, by simp [hnum], hrec⟩
    rw [view_setItem hw.rep hlt hy, view_changeLast, hitem, hview, hk]
    rfl
  · rw [if_neg hn, if_neg hn]
    have hy : EdgeWithIndex.key ⟨(t.state.itemE l).e, epoch, x.newIntraC⟩ = (t.state.itemE l).key := rfl
    refine ⟨hwf.setItem hy, ?_, by simp [hnum], hrec⟩
    simp only [if_true]
    rw [view_setItem hwf.rep hl hy, hview, hk]
    simp [headOf, EdgeWithIndex.creation, EdgeWithIndex.getCoarseC, clearTmp_of_lt he,
      isTmp_of_lt he, itemAt, VersionEntry.change]

theorem publishFine_refines (slot : Nat) {epoch : Nat} (he : epoch < 2 ^ 31) {t : Progress}
    {p : View.Publication} (h : Related v t p) {i : Nat} (hi : i < (v.changes slot).length) :
    ∃ t', publishFine slot epoch t i = some t' ∧
      Related v t' (View.publishFine epoch p ((v.changes slot).getD i default)) := by
  obtain ⟨hchange, l, hl, hloc, hk, hhead⟩ := h.locate hi
  obtain ⟨hwf, hview, hnum, hrec⟩ := h
  rw [← hchange] at hk hhead ⊢
  set x := t.state.entry slot i with hx
  unfold publishFine View.publishFine
  simp only [← hx, hloc, hhead, Option.map_some, Option.elim_some]
  refine ⟨_, rfl, ?_⟩
  have hy : EdgeWithIndex.key ⟨(t.state.itemE l).e, epoch, x.newIntraC⟩ = (t.state.itemE l).key := rfl
  refine ⟨hwf.setItem hy, ?_, ?_, ?_⟩
  · rw [view_setItem hwf.rep hl hy, hview, hk]
    simp only [headOf, View.replacedHead, EdgeWithIndex.creation, EdgeWithIndex.getCoarseC,
      clearTmp_of_lt he, isTmp_of_lt he, itemAt, hrec]
    rfl
  · simp only [hnum]
    rfl
  · simp [hrec, View.recordOf, VersionEntry.change, headOf, itemAt, VersionEntry.key, Change.key,
      VersionEntry.old]

theorem foldlM_refines {f : Progress → Nat → Option Progress}
    {g : View.Publication → Change → View.Publication}
    (hstep : ∀ t p i, Related v t p → i < (v.changes slot).length →
      ∃ t', f t i = some t' ∧ Related v t' (g p ((v.changes slot).getD i default)))
    (is : List Nat) (his : ∀ i ∈ is, i < (v.changes slot).length) {t : Progress}
    {p : View.Publication} (h : Related v t p) :
    ∃ t', is.foldlM f t = some t' ∧
      Related v t' ((is.map fun i => (v.changes slot).getD i default).foldl g p) := by
  induction is generalizing t p with
  | nil => exact ⟨t, rfl, h⟩
  | cons i is ih =>
    obtain ⟨t', ht', hr⟩ := hstep t p i h (his i (by simp))
    obtain ⟨u, hu, hru⟩ := ih (fun j hj => his j (by simp [hj])) hr
    exact ⟨u, by simp [ht', hu], hru⟩

theorem createdBefore_eq (x y : VersionEntry) : createdBefore x y = decide (x.old < y.old) := by
  unfold createdBefore
  by_cases h : x.lastEpoch = y.lastEpoch
  · simp [h, Composite.lt_def, VersionEntry.old]
  · simp [h, Composite.lt_def, VersionEntry.old]

theorem view_changes_getD (i : Nat) :
    (s.view.changes slot).getD i default = (s.entry slot i).change :=
  (List.getD_map (n := i) (s.tmpVb slot).entries default VersionEntry.change :)

theorem view_sorted : View.sorted S (s.view.changes slot) =
    (transformOrder S (s.tmpVb slot).entries).map fun i => (s.view.changes slot).getD i default := by
  have hlen : (s.view.changes slot).length = (s.tmpVb slot).entries.length := List.length_map _
  have hlt : (fun i j => decide (((s.view.changes slot).getD i default).old <
      ((s.view.changes slot).getD j default).old)) = fun i j =>
      createdBefore ((s.tmpVb slot).entries.getD i default) ((s.tmpVb slot).entries.getD j default) := by
    funext i j
    rw [createdBefore_eq, view_changes_getD, view_changes_getD]
    rfl
  rw [View.sorted, transformOrder, hlen, hlt]

theorem transformOrder_lt {i : Nat} (hi : i ∈ transformOrder S (s.tmpVb slot).entries) :
    i < (s.view.changes slot).length := by
  have hlen : (s.view.changes slot).length = (s.tmpVb slot).entries.length := List.length_map _
  rw [hlen]
  exact S.mem.mp hi

theorem publishAll_refines (h : Wf s) (slot vb : Nat) :
    ∃ t, publishAll .fineGrain S slot vb s = some t ∧
      Related s.view t (View.publishAll S slot s.view) := by
  have hinit : Related s.view ⟨s, 0, []⟩ ⟨s.view.head, 0, []⟩ := ⟨h, rfl, rfl, rfl⟩
  have hzero : ∀ i, decide (((s.view.changes slot).getD i default).old.e = 0) =
      decide ((s.entry slot i).lastEpoch = 0) := by
    intro i
    rw [view_changes_getD]
    rfl
  have hdel : ∀ i, isDelete ((s.view.changes slot).getD i default).edge =
      isDelete (s.entry slot i).edge := by
    intro i
    rw [view_changes_getD]
    rfl
  unfold publishAll View.publishAll View.inserts View.replaced
  simp only [view_sorted, List.takeWhile_map, List.dropWhile_map, List.filter_map,
    Function.comp_def, hzero, hdel, ← List.map_append, if_true]
  set order := transformOrder S (s.tmpVb slot).entries with horder
  have hfresh : ∀ i ∈ order.takeWhile fun i => decide ((s.entry slot i).lastEpoch = 0),
      i < (s.view.changes slot).length :=
    fun i hi => transformOrder_lt ((List.takeWhile_prefix _).subset hi)
  have hrest : ∀ i ∈ order.dropWhile fun i => decide ((s.entry slot i).lastEpoch = 0),
      i < (s.view.changes slot).length :=
    fun i hi => transformOrder_lt ((List.dropWhile_suffix _).subset hi)
  obtain ⟨t, ht, hr⟩ := foldlM_refines
    (fun _ _ _ hr hi => publishFresh_refines slot (h.stamp slot) hr hi) _
    (fun i hi => hfresh i (List.mem_of_mem_filter hi)) hinit
  obtain ⟨u, hu, hru⟩ := foldlM_refines
    (fun _ _ _ hr hi => publishFine_refines slot (h.stamp slot) hr hi) _
    (fun i hi => (List.mem_append.mp hi).elim (hrest i) fun hi => hfresh i (List.mem_of_mem_filter hi))
    hr
  refine ⟨u, ?_, hru⟩
  rw [List.foldlM_append] at hu
  simp only [ht]
  exact hu

/-- Transform of one slot never meets an unset item pointer, and does on the view what
`View.transform` says. -/
theorem transform_refines (h : Wf s) (slot vb : Nat) :
    ∃ n t, transform .fineGrain S slot vb s = some (n, t) ∧ Wf t ∧
      t.view = s.view.transform S slot vb := by
  have hnil : s.view.changes slot = [] ↔ (s.tmpVb slot).entries = [] := List.map_eq_nil_iff
  unfold transform View.transform
  simp only [hnil]
  by_cases he : (s.tmpVb slot).entries = []
  · exact ⟨0, s, by rw [if_pos he], h, by rw [if_pos he]⟩
  · obtain ⟨t, ht, hr⟩ := publishAll_refines (S := S) h slot vb
    rw [if_neg he, if_neg he, ht]
    obtain ⟨hwf, hview, hnum, hrec⟩ := hr
    have hstamp : (fun k => (t.state.tmpVb k).timestamp) = s.view.stamp :=
      congrArg View.stamp hview
    have hchanges : (fun k => (t.state.tmpVb k).entries.map VersionEntry.change) = s.view.changes :=
      congrArg View.changes hview
    refine ⟨_, _, rfl, hwf.update slot (t := (t.state.tmpVb slot).clear)
      (fun _ hx => absurd hx List.not_mem_nil) (hwf.stamp slot) _ _, ?_⟩
    have htmp : (pushBlock .fineGrain slot (s.tmpVb slot).timestamp vb t).tmpVb =
        Function.update t.state.tmpVb slot (t.state.tmpVb slot).clear := rfl
    have hvbm : (pushBlock .fineGrain slot (s.tmpVb slot).timestamp vb t).vbm =
        (t.state.vbm.pushVB .fineGrain t.state.edgeNum
          ⟨vb, (s.tmpVb slot).timestamp, 0, t.edgeNum, t.records⟩).2.markTvbInactive
          (s.tmpVb slot).timestamp := rfl
    rw [hnum, hrec, show t.state.vbm = s.vbm from congrArg View.vbm hview] at hvbm
    rw [VertexEdges.view, View.mk.injEq, htmp]
    refine ⟨?_, congrArg View.head hview, ?_, ?_, hvbm⟩
    · rw [← hnum]
      exact congrArg (· + t.edgeNum) (congrArg View.edgeNum hview)
    · funext k
      by_cases hk : k = slot
      · subst hk
        rw [Function.update_self]
        exact congrFun hstamp k
      · rw [Function.update_of_ne hk]
        exact congrFun hstamp k
    · funext k
      by_cases hk : k = slot
      · subst hk
        rw [Function.update_self, Function.update_self]
        rfl
      · rw [Function.update_of_ne hk, Function.update_of_ne hk]
        exact congrFun hchanges k

end Publish

end VertexEdges

end AVBGraph
