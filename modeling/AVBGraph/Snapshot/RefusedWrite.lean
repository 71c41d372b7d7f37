import AVBGraph.Snapshot.ConflictTest
import AVBGraph.Snapshot.DeleteAgain
import AVBGraph.Snapshot.Primary

namespace AVBGraph

open Framework Function

namespace VertexEdges

variable {b : Build} {S : StdSort} {env : Env} {s t : VertexEdges} {w : Write} {l : Loc}
  {offset : Nat}

/-- A well-formed vertex whose edge words fit 64 bits. -/
structure Regular (s : VertexEdges) : Prop where
  wf : Wf s
  word : ∀ l ∈ s.locs, (s.itemE l).e < 2 ^ 64

/-- The entry that an AVB_COARSE write would be folded into is one of its edge. -/
def FoldsOwn (s : VertexEdges) (w : Write) : Prop :=
  ∀ x ∈ s.item w.dst, lastEpoch .coarse x = w.epoch →
    ∀ y ∈ (s.tmpVb (w.epoch % 16)).entries[if isTmp x.1.block then x.2.index else x.1.index]?,
      y.key = w.dst

theorem Rep.bounds (h : Rep s) : Bounds s := ⟨h.tmpEv_le, h.le_capacity, h.num_eq⟩

theorem setDelete_lt (e : Nat) : setDelete e < 2 ^ 64 := by
  unfold setDelete
  omega

theorem clearDelete_lt (e : Nat) : clearDelete e < 2 ^ 64 := by
  unfold clearDelete
  omega

namespace Regular

theorem prepare (h : Regular s) (S : StdSort)
    (hkeep : s.tmpEv = tmpNum → KeepsBuffered env.oldest s) : Regular (s.prepare S env) := by
  refine ⟨?_, (prepare_live (P := fun x => x.e < 2 ^ 64) S env h.wf.rep.bounds h.word).2.2⟩
  unfold VertexEdges.prepare
  split_ifs with hfull
  · have hwf := h.wf.prepare (S := S) (hkeep hfull)
    rwa [VertexEdges.prepare, if_pos hfull] at hwf
  · exact h.wf

theorem setItem (h : Regular s) {x : Item} (hx : x.1.key = (s.itemE l).key)
    (hword : l ∈ s.locs → x.1.e < 2 ^ 64) : Regular (s.setItem l x) :=
  ⟨h.wf.setItem hx, (setItem_live (P := fun x => x.e < 2 ^ 64) h.wf.rep.bounds h.word hword).2⟩

theorem append (h : Regular s) (hlt : s.tmpEv < tmpNum) {x : Item} (he : x.1.e < 2 ^ 63)
    (hnew : s.m x.1.e = false) : Regular (s.append x) := by
  refine ⟨h.wf.append hlt he hnew, fun k hk => ?_⟩
  rcases mem_locs_append.mp hk with rfl | hk
  · rw [show (s.append x).itemE (.tmp s.tmpEv) = x.1 from
      congrArg Prod.fst (itemAt_append_new hlt)]
    exact he.trans (by decide)
  · rw [show (s.append x).itemE k = s.itemE k from congrArg Prod.fst (itemAt_append hlt hk)]
    exact h.word k hk

theorem findOrAppend (h : Regular s) (hlt : s.tmpEv < tmpNum) {f : Found}
    (hf : FoundItem s w f) : Regular f.state := by
  cases hf with
  | known l offset hl _ _ hf =>
    subst hf
    exact h.setItem (key_unmarked s l) fun _ => clearDelete_lt _
  | first hm hf =>
    subst hf
    exact h.append hlt w.dst_lt hm

/-- The TmpVersionBlocks alone change. -/
theorem of_items (h : Regular s) (hwf : Wf t) (hlocs : t.locs = s.locs)
    (hitem : ∀ l, t.itemE l = s.itemE l) : Regular t := by
  refine ⟨hwf, fun l hl => ?_⟩
  rw [hitem]
  exact h.word l (hlocs ▸ hl)

theorem openTvb (h : Regular s) (b : Build) {epoch : Nat} (he : epoch < 2 ^ 31) :
    Regular (s.openTvb b epoch).2 :=
  h.of_items (h.wf.openTvb b he) (openTvb_items b epoch (.tmp 0)).1
    fun l => congrArg Prod.fst (openTvb_items b epoch l).2

/-- InsertVersion, ChangeNextIndex and the new words of the item. -/
theorem add (h : Regular s) (hl : l ∈ s.locs) (hoff : decodeOffset offset = l)
    (hk : (s.itemE l).key = w.dst) {edge : Nat} (hedge : clearDelete edge = w.dst)
    (block index link lastEpoch lastIndex oldIntra newIntra : Nat) (pending : Bool) {x : Item}
    (hx : x.1.key = w.dst) (hword : x.1.e < 2 ^ 64) :
    let r := s.insertVersion w edge block index link offset lastEpoch oldIntra newIntra
    Regular ((r.2.linkNext pending lastEpoch lastIndex w.epoch r.1).setItem l x) := by
  intro r
  have hwf : Wf (r.2.linkNext pending lastEpoch lastIndex w.epoch r.1) :=
    (h.wf.insertVersion w hl hoff (hk.trans hedge.symm) ..).linkNext ..
  have hsame : SameItems s (r.2.linkNext pending lastEpoch lastIndex w.epoch r.1) :=
    (SameItems.insertVersion ..).trans (SameItems.linkNext ..)
  apply (h.of_items hwf hsame.locs hsame.itemE).setItem
  · rw [hsame.itemE, hk, hx]
  · exact fun _ => hword

section Tail

variable (h : Regular s) (hl : l ∈ s.locs) (hoff : decodeOffset offset = l)
  (hk : (s.itemE l).key = w.dst)

include h hl hoff hk

theorem addVersion (delete : Bool) (lastEpoch lastIndex oldIntra : Nat) :
    Regular (s.addVersion l offset delete lastEpoch lastIndex oldIntra w) := by
  have hdst : clearDelete w.dst = w.dst := clearDelete_of_lt w.dst_lt
  apply h.add hl hoff hk
  · cases delete
    · exact hdst
    · exact (clearDelete_setDelete _).trans hdst
  · cases delete
    · exact hk
    · exact (clearDelete_setDelete _).trans hk
  · cases delete
    · exact h.word l hl
    · exact setDelete_lt _

theorem insertFine (wasDeleted : Bool) : Regular (s.insertFine l offset wasDeleted w).2 := by
  unfold VertexEdges.insertFine
  dsimp only
  cases conflicts w.txn (if wasDeleted then 0 else (s.itemE l).getCoarseC) w.epoch with
  | true => exact h
  | false => exact h.addVersion hl hoff hk ..

theorem deleteFine : Regular (s.deleteFine l offset w).2 := by
  unfold VertexEdges.deleteFine
  dsimp only
  split_ifs
  · exact h
  · exact h.addVersion hl hoff hk ..

theorem writeCoarse (hown : s.FoldsOwn w) (delete : Bool) :
    Regular (s.writeCoarse l offset delete w).2 := by
  have hword : s.coarseEdge l delete < 2 ^ 64 := by
    cases delete
    · exact h.word l hl
    · exact setDelete_lt _
  have hedge := clearDelete_coarseEdge s l delete
  obtain ⟨-, hr⟩ | ⟨-, -, -, hr⟩ | ⟨-, hsame, -, vb, hvb, hr⟩ | ⟨-, -, block, index, link, hr⟩ :=
    s.writeCoarse_tail l offset delete w
  · rw [← hr]
    exact h
  · rw [← hr]
    exact h
  · rw [← hr]
    have hitem : s.item w.dst = some (s.itemAt l) := hk ▸ h.wf.rep.item_eq hl
    obtain ⟨f, hentries, hf⟩ := entries_changeVersion hvb
    have hwf : Wf { s with tmpVb := update s.tmpVb (w.epoch % 16) vb } := by
      apply h.wf.update (w.epoch % 16) _ (timestamp_changeVersion hvb ▸ h.wf.stamp _)
      intro y hy
      rw [hentries] at hy
      rcases mem_modify_at hy with hy | ⟨z, hz, rfl⟩
      · exact h.wf.placed _ y hy
      · -- the entry of this edge is placed again
        have hkey : z.key = w.dst := hown _ hitem hsame z hz
        obtain ⟨hfo, hfm, hfe⟩ := hf z
        refine Or.inl ⟨hfm, l, hl, hfo ▸ hoff, ?_⟩
        rw [hk, ← hkey, VersionEntry.key, VersionEntry.key, hfe]
    have hitems := SameItems.setTmpVb s (update s.tmpVb (w.epoch % 16) vb)
    dsimp only
    rw [hwf.rep.setItemE_eq hl]
    apply (h.of_items hwf hitems.locs hitems.itemE).setItem
    · rw [hitems.itemE]
      exact hedge
    · exact fun _ => hword
  · rw [← hr]
    exact h.add hl hoff hk (clearDelete_of_lt w.dst_lt) block index link _ _ 0 0 _ (hedge.trans hk)
      hword

end Tail

theorem transform (h : Regular s) {slot vb n : Nat}
    (ht : s.transform b S slot vb = some (n, t)) : Regular t := by
  obtain ⟨n', s', t', hs, -, halike⟩ := (Alike.refl h.wf).transform (S := S) b slot vb
  obtain rfl : t = s' := by
    rw [ht, Option.some.injEq, Prod.mk.injEq] at hs
    exact hs.2
  refine ⟨halike.left, ?_⟩
  unfold VertexEdges.transform at ht
  split_ifs at ht
  · obtain ⟨-, rfl⟩ := Prod.mk.inj (Option.some.inj ht)
    exact h.word
  · obtain ⟨p, hp, ht⟩ := Option.map_eq_some_iff.mp ht
    obtain ⟨-, rfl⟩ := Prod.mk.inj ht
    have hlive : Bounds p.state ∧ ∀ l ∈ p.state.locs, (p.state.itemE l).e < 2 ^ 64 := by
      apply publishAll_preserves (I := fun u => Bounds u ∧ ∀ l ∈ u.locs, (u.itemE l).e < 2 ^ 64)
        _ _ hp ⟨h.wf.rep.bounds, h.word⟩
      · intro u l x hx hu
        apply setItem_live (P := fun x => x.e < 2 ^ 64) hu.1 hu.2
        intro hl
        rw [hx]
        exact hu.2 l hl
      · intro u link addr hu
        refine ⟨⟨hu.1.tmpEv_le, hu.1.le_capacity, hu.1.num_eq⟩, fun l hl => ?_⟩
        have hitem : (u.changeLast link addr).itemE l = u.itemE l := by cases l <;> rfl
        rw [hitem]
        exact hu.2 l hl
    intro l hl
    have hitem : (pushBlock b slot (s.tmpVb slot).timestamp vb p).itemE l = p.state.itemE l := by
      cases l <;> rfl
    rw [hitem]
    exact hlive.2 l hl

end Regular

/-- What a write may expect: its lookup returns the item of the edge, its slot is free or its own,
a merge drops no edge with pending entries, and an AVB_COARSE write is folded into an entry of its
edge only. -/
structure Granted (b : Build) (S : StdSort) (env : Env) (s : VertexEdges) (w : Write) : Prop where
  lookup : (s.prepare S env).LookupRight w.dst
  free : s.SlotFree w.epoch
  merge : s.tmpEv = tmpNum → KeepsBuffered env.oldest s
  own : b = .coarse → s.FoldsOwn w

theorem FoldsOwn.of_item (h : FoldsOwn s w) (hentries : (t.tmpVb (w.epoch % 16)).entries =
    (s.tmpVb (w.epoch % 16)).entries) (hitem : ∀ x ∈ t.item w.dst, lastEpoch .coarse x = w.epoch →
      ∃ y ∈ s.item w.dst, y.1.block = x.1.block ∧ y.1.index = x.1.index ∧ y.2 = x.2) :
    FoldsOwn t w := by
  intro x hx hlast y hy
  obtain ⟨z, hz, hblock, hindex, hprop⟩ := hitem x hx hlast
  have hlast' : lastEpoch .coarse z = lastEpoch .coarse x := by
    simp only [lastEpoch, hblock, hprop]
  apply h z hz (hlast'.trans hlast) y
  rw [hblock, hindex, hprop, ← hentries]
  exact hy

theorem lastEpoch_firstItem (s : VertexEdges) (w : Write) :
    lastEpoch .coarse (s.firstItem w) = 0 := by
  simp [lastEpoch, firstItem, isTmp]

/-- A merge changes no item that it keeps. -/
theorem alike_prepare (h : Wf s) (hkeep : s.tmpEv = tmpNum → KeepsBuffered env.oldest s) :
    Alike s (s.prepare S env) := by
  by_cases hfull : s.tmpEv = tmpNum
  · exact Alike.prepare h (hkeep hfull)
  · rw [VertexEdges.prepare, if_neg hfull]
    exact Alike.refl h

theorem Alike.item_of_some (h : Alike s t) {d : Nat} {x : Item} (hx : t.item d = some x) :
    s.item d = some x := by
  rcases h.item d with heq | ⟨hnone, -⟩
  · exact heq.symm.trans hx
  · rw [hnone] at hx
    cases hx

/-- Every call keeps the vertex regular. -/
theorem Regular.write (h : Regular s) {o : Applied} {r : WriteResult}
    (hg : Granted b S env s o.write) (hr : o.run b S env s = some r) : Regular r.state := by
  have hp := h.prepare S hg.merge
  have hlt : (s.prepare S env).tmpEv < tmpNum := tmpEv_prepare_lt h.wf.rep
  have htmp : (s.prepare S env).tmpVb = s.tmpVb := tmpVb_prepare
  have hfree : (s.prepare S env).SlotFree o.write.epoch := by
    unfold SlotFree stampAt
    rw [htmp]
    exact hg.free
  have hown : b = .coarse → (s.prepare S env).FoldsOwn o.write := by
    intro hb
    apply (hg.own hb).of_item
    · rw [htmp]
    · intro x hx _
      exact ⟨x, (alike_prepare h.wf hg.merge).item_of_some hx, rfl, rfl, rfl⟩
  -- the slot is opened, and the tail runs
  have hopened : ∀ {u : VertexEdges} {l : Loc}, Regular u → u.SlotFree o.write.epoch →
      (b = .coarse → u.FoldsOwn o.write) → l ∈ u.locs → (u.itemE l).key = o.write.dst →
      Regular (u.openTvb b o.write.epoch).2 ∧ l ∈ (u.openTvb b o.write.epoch).2.locs ∧
        ((u.openTvb b o.write.epoch).2.itemE l).key = o.write.dst ∧
        (b = .coarse → (u.openTvb b o.write.epoch).2.FoldsOwn o.write) := by
    intro u l hu hfree hown hl hk
    obtain ⟨hlocs, hitem⟩ := openTvb_items (s := u) b o.write.epoch l
    refine ⟨hu.openTvb b o.write.epoch_lt, hlocs ▸ hl, ?_, fun hb => ?_⟩
    · rw [show (u.openTvb b o.write.epoch).2.itemE l = u.itemE l from congrArg Prod.fst hitem, hk]
    · apply (hown hb).of_item (entries_openTvb hfree _)
      intro x hx _
      have hsame : (u.openTvb b o.write.epoch).2.item = u.item := by
        rw [hb]
        exact (SameItems.openTvb u o.write.epoch).item
      exact ⟨x, hsame ▸ hx, rfl, rfl, rfl⟩
  unfold Applied.run at hr
  split_ifs at hr
  · unfold deleteEdgeBlock at hr
    dsimp only at hr
    split_ifs at hr with hm
    · obtain ⟨l, hl, offset, hget, hk, hoff⟩ := hg.lookup hm
      rw [hget, Option.map_some, Option.some.injEq] at hr
      subst hr
      obtain ⟨ho, hl', hk', hown'⟩ := hopened hp hfree hown hl hk
      cases b with
      | fineGrain => exact ho.deleteFine hl' hoff hk'
      | coarse => exact ho.writeCoarse hl' hoff hk' (hown' rfl) true
    · rw [← Option.some.inj hr]
      exact hp
  · obtain ⟨f, hf, rfl⟩ := Option.map_eq_some_iff.mp hr
    have hcase := hp.wf.rep.findOrAppend_cases hg.lookup hf
    obtain ⟨hl, hoff, hk⟩ := hcase.located hp.wf.rep hlt
    have hfound := hp.findOrAppend hlt hcase
    have hfree' : f.state.SlotFree o.write.epoch := by
      unfold SlotFree stampAt
      rw [hcase.tmpVb]
      exact hfree
    have hown' : b = .coarse → f.state.FoldsOwn o.write := by
      intro hb
      apply (hown hb).of_item
      · rw [hcase.tmpVb]
      · intro x hx hlast
        cases hcase with
        | known l offset hmem hkey _ hf =>
          subst hf
          rw [hp.wf.rep.item_setItem hmem (key_unmarked _ l), if_pos hkey.symm] at hx
          obtain rfl := Option.some.inj hx
          have hitem := hp.wf.rep.item_eq hmem
          rw [hkey] at hitem
          exact ⟨_, hitem, rfl, rfl, rfl⟩
        | first hm hf =>
          subst hf
          have hself : o.write.dst = ((s.prepare S env).firstItem o.write).1.e := rfl
          rw [hp.wf.rep.item_append hlt o.write.dst_lt hm, if_pos hself] at hx
          obtain rfl := Option.some.inj hx
          rw [lastEpoch_firstItem] at hlast
          exact absurd hlast o.write.epoch_pos.ne
    obtain ⟨ho, hl', hk', hown''⟩ := hopened hfound hfree' hown' hl hk
    cases b with
    | fineGrain => exact ho.insertFine hl' hoff hk' f.wasDeleted
    | coarse => exact ho.writeCoarse hl' hoff hk' (hown'' rfl) false

section Refused

/-- Readers are given the same edges and properties, in some order, and the same degrees, now and
after any Transforms. -/
def Intact (b : Build) (S : StdSort) (s t : VertexEdges) : Prop :=
  ∀ todo, ∃ s' t', s.transformAll b S todo = some s' ∧ t.transformAll b S todo = some t' ∧
    (∀ readTs, (t'.forEachEdgeWithProperty b readTs).Perm (s'.forEachEdgeWithProperty b readTs)) ∧
    ∀ e, t'.getDegree e = s'.getDegree e

/-- The newest version of the edge is a deletion, and an AVB_COARSE insertion is about to clear its
mark. -/
def Revives (b : Build) (s : VertexEdges) (o : Applied) : Prop :=
  b = .coarse ∧ o.delete = false ∧ ∃ x, s.item o.write.dst = some x ∧ isDelete x.1.e = true

theorem Alike.intact (h : Alike s t) : Intact b S s t := by
  intro todo
  obtain ⟨s', t', hs', ht', h'⟩ := h.transformAll (S := S) b todo
  exact ⟨s', t', hs', ht', h'.forEachEdgeWithProperty b, h'.getDegree⟩

/-- A reader sees an edge again that was deleted. -/
theorem not_intact_of_unmarked (hs : Rep s) (ht : Rep t) {d : Nat} {x y : Item}
    (hx : s.item d = some x) (hdel : isDelete x.1.e = true) (hy : t.item d = some y)
    (hlive : isDelete y.1.e = false) (hend : t.vbm.endEpoch = s.vbm.endEpoch) :
    ¬Intact .coarse S s t := by
  intro hintact
  obtain ⟨s', t', hs', ht', hshown, -⟩ := hintact []
  obtain rfl : s = s' := Option.some.inj hs'
  obtain rfl : t = t' := Option.some.inj ht'
  -- a reader that is served from the items alone
  set readTs : Composite := ⟨max s.vbm.endEpoch y.1.getCoarseC, 0⟩ with hread
  have hitems : ∀ u : VertexEdges, u.vbm.endEpoch = s.vbm.endEpoch →
      u.forEachEdgeWithProperty .coarse readTs = u.items.filter (visible .coarse readTs) := by
    intro u hu
    have hle : ¬readTs.e < u.vbm.endEpoch := by
      rw [hu]
      exact not_lt.mpr (le_max_left _ _)
    unfold forEachEdgeWithProperty chainScan
    simp [hle]
  have hperm := hshown readTs
  rw [hitems t hend, hitems s rfl] at hperm
  obtain ⟨hmem, hkey⟩ := ht.item_iff.mp hy
  have hvisible : visible .coarse readTs y = true := by
    simp [visible, hlive, EdgeWithIndex.visibleAt, EdgeWithIndex.isVisibleAt, hread]
  have hshow := hperm.mem_iff.mp (List.mem_filter.mpr ⟨hmem, hvisible⟩)
  have hsame := hs.item_iff.mpr ⟨(List.mem_filter.mp hshow).1, hkey⟩
  rw [hx, Option.some.injEq] at hsame
  rw [hsame, hlive] at hdel
  cases hdel

theorem conflicts_zero (txn : Transaction) (epoch : Nat) : conflicts txn 0 epoch = false := by
  simp [conflicts]

/-- A refused tail of insert_edge_block found an older version, and changes nothing. -/
theorem insertFine_refused {deleted : Bool}
    (hacc : (s.insertFine l offset deleted w).1 = false) :
    deleted = false ∧ (s.itemE l).getCoarseC ≠ 0 ∧ (s.insertFine l offset deleted w).2 = s := by
  unfold insertFine at hacc ⊢
  dsimp only at hacc ⊢
  cases hc : conflicts w.txn (if deleted then 0 else (s.itemE l).getCoarseC) w.epoch with
  | false =>
    rw [hc] at hacc
    cases hacc
  | true =>
    rw [if_pos rfl]
    cases deleted with
    | true =>
      rw [if_pos rfl, conflicts_zero] at hc
      cases hc
    | false =>
      refine ⟨rfl, fun hzero => ?_, rfl⟩
      rw [hzero, if_neg Bool.false_ne_true, conflicts_zero] at hc
      cases hc

theorem deleteFine_refused (hacc : (s.deleteFine l offset w).1 = false) :
    (s.deleteFine l offset w).2 = s := by
  obtain ⟨heq, -⟩ | ⟨hacc', -⟩ := deleteFine_accepted (s := s) (l := l) (w := w) offset
  · rw [heq]
  · rw [hacc] at hacc'
    cases hacc'

theorem writeCoarse_refused {delete : Bool} (hacc : (s.writeCoarse l offset delete w).1 = false) :
    s.coarseEpoch l ≠ 0 ∧ (s.writeCoarse l offset delete w).2 = s := by
  obtain ⟨hc, hr⟩ | ⟨-, hsame, -, hr⟩ | ⟨-, -, -, vb, -, hr⟩ | ⟨-, -, block, index, link, hr⟩ :=
    s.writeCoarse_tail l offset delete w
  · refine ⟨fun hzero => ?_, by rw [← hr]⟩
    rw [hzero, conflicts_zero] at hc
    cases hc
  · refine ⟨?_, by rw [← hr]⟩
    rw [hsame]
    exact w.epoch_pos.ne'
  · rw [← hr] at hacc
    cases hacc
  · rw [← hr] at hacc
    cases hacc

theorem setItem_itemAt (s : VertexEdges) (l : Loc) : s.setItem l (s.itemAt l) = s := by
  cases l <;> simp [VertexEdges.setItem, setItemE, setItemP, itemAt, itemE, itemP, update_eq_self]

theorem unmarked_of_live (h : isDelete (s.itemE l).e = false) (hlt : (s.itemE l).e < 2 ^ 64) :
    s.unmarked l = s.itemAt l := by
  have he : clearDelete (s.itemE l).e = (s.itemE l).e := by
    simp only [isDelete, decide_eq_false_iff_not] at h
    unfold clearDelete
    omega
  simp only [unmarked, he]
  rfl

/-- What a refused call leaves: the same vertex to all readers, or a deleted edge without its
mark. -/
theorem Regular.refused (h : Regular s) {o : Applied} {r : WriteResult}
    (hg : Granted b S env s o.write) (hr : o.run b S env s = some r) (hacc : r.accepted = false) :
    ¬Revives b s o ∧ Alike s r.state ∨
      Revives b s o ∧ r.state.vbm.endEpoch = s.vbm.endEpoch ∧
        ∃ y, r.state.item o.write.dst = some y ∧ isDelete y.1.e = false := by
  have hp := h.prepare S hg.merge
  have hprep : Alike s (s.prepare S env) := alike_prepare h.wf hg.merge
  have hlt : (s.prepare S env).tmpEv < tmpNum := tmpEv_prepare_lt h.wf.rep
  have hfree : (s.prepare S env).SlotFree o.write.epoch := by
    unfold SlotFree stampAt
    rw [tmpVb_prepare]
    exact hg.free
  have hopen : Alike s ((s.prepare S env).openTvb b o.write.epoch).2 :=
    hprep.trans (Alike.openTvb hp.wf b o.write.epoch_lt hfree)
  unfold Applied.run at hr
  split_ifs at hr with hdelete
  · left
    refine ⟨fun hrev => ?_, ?_⟩
    · rw [Revives, hdelete] at hrev
      cases hrev.2.1
    · unfold deleteEdgeBlock at hr
      dsimp only at hr
      split_ifs at hr with hm
      · obtain ⟨l, hl, offset, hget, hk, hoff⟩ := hg.lookup hm
        rw [hget, Option.map_some, Option.some.injEq] at hr
        subst hr
        cases b with
        | fineGrain =>
          show Alike s (VertexEdges.deleteFine _ _ _ _).2
          rw [deleteFine_refused hacc]
          exact hopen
        | coarse =>
          show Alike s (VertexEdges.writeCoarse _ _ _ _ _).2
          rw [(writeCoarse_refused hacc).2]
          exact hopen
      · rw [← Option.some.inj hr]
        exact hprep
  · obtain ⟨f, hf, hr⟩ := Option.map_eq_some_iff.mp hr
    have hdelete : o.delete = false := Bool.eq_false_of_not_eq_true hdelete
    have hcase := hp.wf.rep.findOrAppend_cases hg.lookup hf
    -- the tail found an older version, and left the opened vertex alone
    obtain ⟨hlive, hold, hstate⟩ : (b = .fineGrain → f.wasDeleted = false) ∧
        (f.state.itemE f.loc).block ≠ 0 ∧ r.state = (f.state.openTvb b o.write.epoch).2 := by
      subst hr
      have hE : ∀ b, (f.state.openTvb b o.write.epoch).2.itemE f.loc = f.state.itemE f.loc := fun b =>
        congrArg Prod.fst (openTvb_items b o.write.epoch f.loc).2
      cases b with
      | fineGrain =>
        obtain ⟨hd, hne, hsame⟩ := insertFine_refused hacc
        refine ⟨fun _ => hd, fun hzero => hne ?_, hsame⟩
        rw [hE, EdgeWithIndex.getCoarseC, hzero]
        rfl
      | coarse =>
        obtain ⟨hne, hsame⟩ := writeCoarse_refused hacc
        refine ⟨(fun hb => by cases hb), fun hzero => hne ?_, hsame⟩
        unfold coarseEpoch
        rw [hE, hzero]
        rfl
    rw [hstate]
    cases hcase with
    | first hm hf =>
      -- a first version is never refused
      subst hf
      exact absurd (congrArg (fun x : Item => x.1.block) (itemAt_append_new hlt)) hold
    | known l offset hl hk _ hf =>
      subst hf
      have hfound : s.item o.write.dst = some ((s.prepare S env).itemAt l) := by
        apply hprep.item_of_some
        rw [← hk]
        exact hp.wf.rep.item_eq hl
      cases hd : isDelete ((s.prepare S env).itemE l).e with
      | false =>
        left
        refine ⟨?_, ?_⟩
        · rintro ⟨-, -, x, hx, hdel⟩
          rw [hfound, Option.some.injEq] at hx
          rw [← hx] at hdel
          rw [show isDelete ((s.prepare S env).itemAt l).1.e = false from hd] at hdel
          cases hdel
        · dsimp only
          rw [unmarked_of_live hd (hp.word l hl), setItem_itemAt]
          exact hopen
      | true =>
        right
        have hb : b = .coarse := by
          cases b with
          | coarse => rfl
          | fineGrain =>
            have hfalse : isDelete ((s.prepare S env).itemE l).e = false := hlive rfl
            rw [hfalse] at hd
            cases hd
        refine ⟨⟨hb, hdelete, _, hfound, hd⟩, ?_, (s.prepare S env).unmarked l, ?_, ?_⟩
        · subst hb
          rw [(SameItems.openTvb _ _).vbm, vbm_setItem, vbm_prepare]
        · subst hb
          rw [(SameItems.openTvb _ _).item, hp.wf.rep.item_setItem hl (key_unmarked _ l),
            if_pos hk.symm]
        · exact isDelete_clearDelete _

/-- A refused call leaves the graph intact, except for the insertion of a deleted edge in the
AVB_COARSE build. -/
theorem Regular.intact_iff (h : Regular s) {o : Applied} {r : WriteResult}
    (hg : Granted b S env s o.write) (hr : o.run b S env s = some r) (hacc : r.accepted = false) :
    Intact b S s r.state ↔ ¬Revives b s o := by
  obtain ⟨hno, halike⟩ | ⟨hrev, hend, y, hy, hlive⟩ := h.refused hg hr hacc
  · exact ⟨fun _ => hno, fun _ => halike.intact⟩
  · refine ⟨fun hintact => ?_, fun hno => absurd hrev hno⟩
    obtain ⟨rfl, -, x, hx, hdel⟩ := hrev
    exact absurd hintact (not_intact_of_unmarked h.wf.rep (h.write hg hr).wf.rep hx hdel hy hlive hend)

end Refused

theorem Built.regular (h : Built s) : Regular s := by
  refine ⟨h.wf, fun l hl => ?_⟩
  obtain ⟨edges, properties, malloc, tmp, rfl, -, hlt⟩ := h
  rw [mem_locs] at hl
  cases l with
  | tmp i => exact absurd hl (Nat.not_lt_zero i)
  | start i =>
    have hi : i < edges.length := hl
    have he : ((build edges properties malloc tmp).itemE (.start i)).e = edges[i] := by
      show ((build edges properties malloc tmp).start i).e = _
      simp [build, hi]
    rw [he]
    exact (hlt _ (List.getElem_mem hi)).trans (by decide)

end VertexEdges

namespace Trace

variable {b : Build} {S : StdSort} {env : Env} {h h' : Trace}

/-- What the writes of a run may expect. -/
def Grants (b : Build) (S : StdSort) (h : Trace) : Op → Prop
  | .insert env w | .delete env w => VertexEdges.Granted b S env h.state w
  | .transform _ _ => True

theorem regular_step {op : Op} (hreg : h.state.Regular) (hg : h.Grants b S op)
    (hstep : h.step b S op = some h') : h'.state.Regular := by
  cases op with
  | insert env w =>
    obtain ⟨r, hr, rfl⟩ := Option.map_eq_some_iff.mp hstep
    exact hreg.write (o := ⟨false, w⟩) hg hr
  | delete env w =>
    obtain ⟨r, hr, rfl⟩ := Option.map_eq_some_iff.mp hstep
    exact hreg.write (o := ⟨true, w⟩) hg hr
  | transform epoch vb =>
    rw [step] at hstep
    split_ifs at hstep
    obtain ⟨⟨n, t⟩, ht, rfl⟩ := Option.map_eq_some_iff.mp hstep
    exact hreg.transform ht

/-- After any run, a write that is refused leaves the graph intact, unless it is an insertion of a
deleted edge in the AVB_COARSE build. -/
theorem refused_intact_iff {s : VertexEdges} (hs : s.Built) {es : List Op} {o : Applied}
    (hg : Along (step b S) (Grants b S) ⟨s, []⟩ (es ++ [o.op env]))
    (hrun : exec (step b S) ⟨s, []⟩ es = some h) {r : WriteResult}
    (hr : o.run b S env h.state = some r) (hacc : r.accepted = false) :
    VertexEdges.Intact b S h.state r.state ↔ ¬VertexEdges.Revives b h.state o := by
  rw [along_append hrun] at hg
  have hreg : h.state.Regular :=
    invariant_of_step (fun _ _ _ hi ho hstep => regular_step hi ho hstep) hs.regular hg.1 hrun
  have hlast : VertexEdges.Granted b S env h.state o.write := by
    have hlast : h.Grants b S (o.op env) := hg.2.1
    obtain ⟨delete, w⟩ := o
    cases delete with
    | false => exact hlast
    | true => exact hlast
  exact hreg.intact_iff hlast hr hacc

/-- What a write may expect while there is room in the buffer. -/
def Roomy (b : Build) (S : StdSort) (h : Trace) : Op → Prop
  | .insert env w | .delete env w => (h.state.prepare S env).LookupRight w.dst ∧
      h.state.SlotFree w.epoch ∧ h.state.tmpEv ≠ tmpNum ∧ (b = .coarse → h.state.FoldsOwn w)
  | .transform _ _ => True

instance (b : Build) (S : StdSort) (h : Trace) (op : Op) : Decidable (h.Roomy b S op) :=
  match op with
  | .insert _ _ | .delete _ _ => inferInstanceAs (Decidable (VertexEdges.LookupRight _ _ ∧
      ((_ : Nat) = _ ∨ _ = []) ∧ _ ≠ tmpNum ∧ (b = .coarse → ∀ x ∈ _, _ → ∀ y ∈ _, _)))
  | .transform _ _ => isTrue trivial

theorem Roomy.grants {op : Op} (hr : h.Roomy b S op) : h.Grants b S op := by
  cases op with
  | insert env w => exact ⟨hr.1, hr.2.1, fun hfull => absurd hfull hr.2.2.1, hr.2.2.2⟩
  | delete env w => exact ⟨hr.1, hr.2.1, fun hfull => absurd hfull hr.2.2.1, hr.2.2.2⟩
  | transform epoch vb => trivial

/-- The edge 7 is overwritten in epoch 5; an insertion in epoch 3 comes too late. -/
theorem refused_intact_seven : ∃ h r,
    exec (step .coarse .stable) ⟨sevenLoaded, []⟩ [overwriteSeven 5 1 4 (by decide)] = some h ∧
      Applied.run .coarse .stable History.freshEnv h.state ⟨false, sevenWrite 3 1 9 (by decide)⟩ =
        some r ∧ r.accepted = false ∧ VertexEdges.Intact .coarse .stable h.state r.state := by
  obtain ⟨h, hrun, hlive, hany⟩ : ∃ h,
      exec (step .coarse .stable) ⟨sevenLoaded, []⟩ [overwriteSeven 5 1 4 (by decide)] = some h ∧
        (∀ x ∈ h.state.item 7, isDelete x.1.e = false) ∧
        (Applied.run .coarse .stable History.freshEnv h.state
          ⟨false, sevenWrite 3 1 9 (by decide)⟩).any (fun r => !r.accepted) = true := by
    apply exists_exec
    decide +kernel
  obtain ⟨r, hr, hacc⟩ := (Option.any_eq_true ..).mp hany
  have hacc : r.accepted = false := by simpa using hacc
  refine ⟨h, r, hrun, hr, hacc, ?_⟩
  have hroomy : Along (step .coarse .stable) (Roomy .coarse .stable) ⟨sevenLoaded, []⟩
      ([overwriteSeven 5 1 4 (by decide)] ++
        [Applied.op History.freshEnv ⟨false, sevenWrite 3 1 9 (by decide)⟩]) := by
    decide +kernel
  apply (refused_intact_iff built_sevenLoaded (hroomy.mono fun _ _ => Roomy.grants) hrun hr hacc).mpr
  rintro ⟨-, -, x, hx, hdel⟩
  rw [hlive x hx] at hdel
  cases hdel

/-- The edge 7 is deleted in epoch 2; the insertion in epoch 1 is refused, and the edge is back. -/
theorem refused_revives_seven : ∃ h r,
    exec (step .coarse .stable) ⟨sevenLoaded, []⟩ [deleteSeven 2 1 (by decide)] = some h ∧
      Applied.run .coarse .stable History.freshEnv h.state ⟨false, sevenWrite 1 1 9 (by decide)⟩ =
        some r ∧ r.accepted = false ∧ ¬VertexEdges.Intact .coarse .stable h.state r.state := by
  obtain ⟨h, hrun, hdel, hany⟩ : ∃ h,
      exec (step .coarse .stable) ⟨sevenLoaded, []⟩ [deleteSeven 2 1 (by decide)] = some h ∧
        (h.state.item 7).any (fun x => isDelete x.1.e) = true ∧
        (Applied.run .coarse .stable History.freshEnv h.state
          ⟨false, sevenWrite 1 1 9 (by decide)⟩).any (fun r => !r.accepted) = true := by
    apply exists_exec
    decide +kernel
  obtain ⟨r, hr, hacc⟩ := (Option.any_eq_true ..).mp hany
  have hacc : r.accepted = false := by simpa using hacc
  obtain ⟨x, hx, hmark⟩ := (Option.any_eq_true ..).mp hdel
  have hroomy : Along (step .coarse .stable) (Roomy .coarse .stable) ⟨sevenLoaded, []⟩
      ([deleteSeven 2 1 (by decide)] ++
        [Applied.op History.freshEnv ⟨false, sevenWrite 1 1 9 (by decide)⟩]) := by
    decide +kernel
  obtain ⟨hbefore, hgranted, -⟩ := (along_append hrun).mp (hroomy.mono fun _ _ => Roomy.grants)
  have hreg : h.state.Regular := invariant_of_step
    (fun _ _ _ hi ho hstep => regular_step hi ho hstep) built_sevenLoaded.regular hbefore hrun
  refine ⟨h, r, hrun, hr, hacc, fun hintact => ?_⟩
  exact (hreg.intact_iff hgranted hr hacc).mp hintact ⟨rfl, rfl, x, hx, hmark⟩

end Trace

end AVBGraph
