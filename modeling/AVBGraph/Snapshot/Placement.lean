import AVBGraph.Snapshot.ConflictTest
import AVBGraph.Vertex.LookupExact

namespace AVBGraph

open Framework Function

/-- Where Transform looks for the item of an entry, and the edge that it looks for. -/
def VersionEntry.place (y : VersionEntry) : Nat × Nat × Nat := (y.offset, y.mergeTimes, y.key)

namespace VertexEdges

variable {S : StdSort} {env : Env} {s t : VertexEdges} {w : Write} {y : VersionEntry}

/-- The location rule of Transform yields the two halves of the entry's edge, and where it
searches for them, get_edge_index2 reads live positions only. -/
structure Located (s : VertexEdges) (y : VersionEntry) : Prop where
  item : ∃ l ∈ s.locs, s.locate y = some l ∧ s.item y.key = some (s.itemE l, s.itemP l)
  search : y.mergeTimes ≠ s.mergeTimes → ∃ k, s.Searched y.key (some k) ∧
    s.getEdgeIndex2 y.key = some (.start k) ∧ s.locate y = some (.start k)

theorem Placed.located (h : Placed s y) (hs : Rep s) : Located s y := by
  constructor
  · obtain ⟨l, hl, hloc, hkey⟩ := h.locate hs
    refine ⟨l, hl, hloc, ?_⟩
    rw [← hkey]
    exact hs.item_eq hl
  · intro hmt
    rcases h with ⟨heq, -⟩ | ⟨-, k, hk, hkey⟩
    · exact absurd heq hmt
    · have hfound : s.getEdgeIndex2 y.key = some (.start k) := by
        rw [← hkey]
        exact hs.getEdgeIndex2_eq hk
      refine ⟨k, ?_, hfound, (if_pos hmt).trans hfound⟩
      obtain ⟨r, reads, hreads, hsearch, hout⟩ := search_outcome hs.sorted y.key
      have hr : r = some k := by
        rw [getEdgeIndex2, hsearch] at hfound
        obtain ⟨m, hm, hmk⟩ := Option.map_eq_some_iff.mp hfound
        cases hmk
        exact hm
      rw [← hr]
      exact ⟨reads, hreads, hout.below ⟨k, hk, hkey.ge⟩⟩

end VertexEdges

namespace VertexEdges

variable {b : Build} {S : StdSort} {env : Env} {s t : VertexEdges} {w : Write} {l : Loc}
  {offset : Nat}

theorem Placed.of_place {x y : VersionEntry} (h : Placed s x) (heq : x.place = y.place) :
    Placed s y := by
  obtain ⟨hoff, hmt, hkey⟩ : x.offset = y.offset ∧ x.mergeTimes = y.mergeTimes ∧ x.key = y.key := by
    simpa only [VersionEntry.place, Prod.mk.injEq] using heq
  unfold Placed at h ⊢
  rwa [← hoff, ← hmt, ← hkey]

/-- The newest version of the edge is pending. -/
def Pending (s : VertexEdges) (d : Nat) : Prop := ∃ x, s.item d = some x ∧ isTmp x.1.block = true

/-- The pending entries designate their edges, which no merge drops. -/
structure Anchored (s : VertexEdges) : Prop where
  wf : Wf s
  pending : ∀ k, ∀ e ∈ s.edgesAt k, s.Pending (clearDelete e)

namespace Anchored

theorem prepare (h : Anchored s) (S : StdSort) (env : Env) : Anchored (s.prepare S env) := by
  constructor
  · apply h.wf.prepare
    intro k y hy x hx
    obtain ⟨z, hz, hp⟩ := h.pending k y.edge (List.mem_map_of_mem hy)
    obtain rfl := Option.some.inj (hx.symm.trans hz)
    exact not_dropped_of_pending env hp
  · intro k e he
    rw [edgesAt_of_tmpVb tmpVb_prepare] at he
    obtain ⟨x, hx, hp⟩ := h.pending k e he
    rcases (item_prepare h.wf.rep (clearDelete e) : (s.prepare S env).item _ = _ ∨ _) with
      heq | ⟨-, z, hz, hdrop⟩
    · exact ⟨x, heq.trans hx, hp⟩
    · obtain rfl := Option.some.inj (hx.symm.trans hz)
      rw [not_dropped_of_pending env hp] at hdrop
      cases hdrop

/-- An item is rewritten and stays pending. -/
theorem setItem (h : Anchored s) {x : Item} (hl : l ∈ s.locs) (hx : x.1.key = (s.itemE l).key)
    (hp : isTmp (s.itemE l).block = true → isTmp x.1.block = true) :
    Anchored (s.setItem l x) := by
  refine ⟨h.wf.setItem hx, fun k e he => ?_⟩
  rw [edgesAt_of_tmpVb tmpVb_setItem] at he
  obtain ⟨z, hz, hpz⟩ := h.pending k e he
  have hitem := h.wf.rep.item_setItem hl hx (clearDelete e)
  by_cases hd : clearDelete e = (s.itemE l).key
  · rw [if_pos hd] at hitem
    refine ⟨x, hitem, hp ?_⟩
    rw [hd, h.wf.rep.item_eq hl] at hz
    rw [← Option.some.inj hz] at hpz
    exact hpz
  · rw [if_neg hd] at hitem
    exact ⟨z, hitem.trans hz, hpz⟩

theorem append (h : Anchored s) (hlt : s.tmpEv < tmpNum) {x : Item} (he : x.1.e < 2 ^ 63)
    (hnew : s.m x.1.e = false) : Anchored (s.append x) := by
  refine ⟨h.wf.append hlt he hnew, fun k e hmem => ?_⟩
  obtain ⟨z, hz, hp⟩ := h.pending k e hmem
  refine ⟨z, ?_, hp⟩
  rw [h.wf.rep.item_append hlt he hnew, if_neg, hz]
  intro heq
  rw [heq] at hz
  have hm := (h.wf.rep.m_iff _).mpr (Option.isSome_of_eq_some hz)
  rw [hnew] at hm
  cases hm

theorem findOrAppend (h : Anchored s) (hlt : s.tmpEv < tmpNum) {f : Found}
    (hf : FoundItem s w f) : Anchored f.state := by
  cases hf with
  | known l offset hl _ _ hf =>
    subst hf
    exact h.setItem hl (key_unmarked s l) id
  | first hm hf =>
    subst hf
    exact h.append hlt w.dst_lt hm

theorem openTvb (h : Anchored s) (b : Build) {epoch : Nat} (he : epoch < 2 ^ 31) :
    Anchored (s.openTvb b epoch).2 := by
  refine ⟨h.wf.openTvb b he, fun k e hmem => ?_⟩
  unfold VertexEdges.openTvb at hmem ⊢
  split_ifs at hmem ⊢
  · exact h.pending k e hmem
  all_goals
    apply h.pending k e
    by_cases hk : k = epoch % 16
    · simp [edgesAt, hk] at hmem
    · simpa [edgesAt, hk] using hmem

/-- InsertVersion and ChangeNextIndex for an item that becomes pending. -/
theorem add (h : Anchored s) (hl : l ∈ s.locs) (hoff : decodeOffset offset = l)
    (hk : (s.itemE l).key = w.dst) {edge : Nat} (hedge : clearDelete edge = w.dst)
    (block index link lastEpoch lastIndex oldIntra newIntra : Nat) (pending : Bool) {x : Item}
    (hx : x.1.key = w.dst) (hp : isTmp x.1.block = true) :
    let r := s.insertVersion w edge block index link offset lastEpoch oldIntra newIntra
    Anchored ((r.2.linkNext pending lastEpoch lastIndex w.epoch r.1).setItem l x) := by
  intro r
  set u := r.2.linkNext pending lastEpoch lastIndex w.epoch r.1 with hu
  have hwf : Wf u := (h.wf.insertVersion w hl hoff (hk.trans hedge.symm) ..).linkNext ..
  have hsame : SameItems s u := (SameItems.insertVersion ..).trans (SameItems.linkNext ..)
  have hkey : x.1.key = (u.itemE l).key := by
    rw [hsame.itemE, hk, hx]
  have hlu : l ∈ u.locs := by
    rw [hsame.locs]
    exact hl
  have hitem : ∀ d, (u.setItem l x).item d = if d = w.dst then some x else s.item d := by
    intro d
    rw [hwf.rep.item_setItem hlu hkey, hsame.itemE, hk, hsame.item]
  refine ⟨hwf.setItem hkey, fun k e he => ?_⟩
  by_cases hd : clearDelete e = w.dst
  · exact ⟨x, by rw [hitem, if_pos hd], hp⟩
  · have hold : e ∈ s.edgesAt k := by
      rw [edgesAt_of_tmpVb tmpVb_setItem, hu, edgesAt_linkNext, edgesAt_insertVersion] at he
      by_cases hs : k = w.epoch % 16
      · subst hs
        rw [update_self, List.mem_append, List.mem_singleton] at he
        refine he.resolve_right fun heq => hd ?_
        rw [heq, hedge]
      · rwa [update_of_ne hs] at he
    obtain ⟨z, hz, hpz⟩ := h.pending k e hold
    exact ⟨z, by rw [hitem, if_neg hd, hz], hpz⟩

/-- ChangeVersion; `hown` says whose entry it changes. -/
theorem fold (h : Anchored s) (hl : l ∈ s.locs) (hoff : decodeOffset offset = l)
    (hk : (s.itemE l).key = w.dst) {vb : TmpVersionBlock} {index : Nat}
    (hvb : (s.tmpVb (w.epoch % 16)).changeVersion w.weight index w.txn s.mergeTimes offset =
      some vb)
    (hown : (s.tmpVb (w.epoch % 16)).entries ≠ [] → ∀ y ∈ vb.entries,
      y.place ∉ (s.tmpVb (w.epoch % 16)).entries.map VersionEntry.place → y.key = w.dst) :
    Anchored { s with tmpVb := update s.tmpVb (w.epoch % 16) vb } := by
  obtain ⟨f, hentries, hf⟩ := entries_changeVersion hvb
  constructor
  · apply h.wf.update (w.epoch % 16) _ (timestamp_changeVersion hvb ▸ h.wf.stamp _)
    intro y hy
    by_cases hplace : y.place ∈ (s.tmpVb (w.epoch % 16)).entries.map VersionEntry.place
    · obtain ⟨z, hz, heq⟩ := List.mem_map.mp hplace
      exact (h.wf.placed _ z hz).of_place heq
    · have hne : (s.tmpVb (w.epoch % 16)).entries ≠ [] := by
        intro hnil
        simp [hentries, hnil] at hy
      have hkey := hown hne y hy hplace
      rw [hentries] at hy
      rcases mem_modify_at hy with hy | ⟨z, -, rfl⟩
      · exact h.wf.placed _ y hy
      · obtain ⟨hfo, hfm, -⟩ := hf z
        exact Or.inl ⟨hfm, l, hl, hfo ▸ hoff, hk.trans hkey.symm⟩
  · rw [edgesAt_modify (t := { s with tmpVb := update s.tmpVb (w.epoch % 16) vb }) rfl hentries
      fun y => (hf y).2.2]
    exact h.pending

section Tail

variable (h : Anchored s) (hl : l ∈ s.locs) (hoff : decodeOffset offset = l)
  (hk : (s.itemE l).key = w.dst)

include h hl hoff hk

theorem addVersion (delete : Bool) (lastEpoch lastIndex oldIntra : Nat) :
    Anchored (s.addVersion l offset delete lastEpoch lastIndex oldIntra w) := by
  have hdst : clearDelete w.dst = w.dst := clearDelete_of_lt w.dst_lt
  apply h.add hl hoff hk
  · cases delete
    · exact hdst
    · exact (clearDelete_setDelete _).trans hdst
  · cases delete
    · exact hk
    · exact (clearDelete_setDelete _).trans hk
  · exact isTmp_setTmp _

theorem insertFine (wasDeleted : Bool) : Anchored (s.insertFine l offset wasDeleted w).2 := by
  unfold VertexEdges.insertFine
  dsimp only
  by_cases hc : conflicts w.txn (if wasDeleted then 0 else (s.itemE l).getCoarseC) w.epoch = true
  · rw [if_pos hc]
    exact h
  · rw [if_neg hc]
    exact h.addVersion hl hoff hk ..

theorem deleteFine : Anchored (s.deleteFine l offset w).2 := by
  unfold VertexEdges.deleteFine
  dsimp only
  split_ifs
  · exact h
  · exact h.addVersion hl hoff hk ..

theorem writeCoarse (delete : Bool)
    (hown : (s.tmpVb (w.epoch % 16)).entries ≠ [] →
      ∀ y ∈ ((s.writeCoarse l offset delete w).2.tmpVb (w.epoch % 16)).entries,
        y.place ∉ (s.tmpVb (w.epoch % 16)).entries.map VersionEntry.place → y.key = w.dst) :
    Anchored (s.writeCoarse l offset delete w).2 := by
  have he := clearDelete_coarseEdge s l delete
  obtain ⟨-, hr⟩ | ⟨-, -, -, hr⟩ | ⟨-, -, -, vb, hvb, hr⟩ | ⟨-, -, block, index, link, hr⟩ :=
    s.writeCoarse_tail l offset delete w
  · rw [← hr]
    exact h
  · rw [← hr]
    exact h
  · rw [← hr] at hown ⊢
    set u : VertexEdges := { s with tmpVb := update s.tmpVb (w.epoch % 16) vb } with hu
    have hitems : SameItems s u := SameItems.setTmpVb s _
    have hset := (hitems.rep h.wf.rep).setItemE_eq hl
      { s.itemE l with e := s.coarseEdge l delete }
    have hentries : (u.tmpVb (w.epoch % 16)).entries = vb.entries := by
      rw [hu]
      simp
    have hfold : Anchored u := by
      apply h.fold hl hoff hk hvb
      intro hne y hy
      apply hown hne y
      dsimp only
      rw [hset, tmpVb_setItem, hentries]
      exact hy
    dsimp only
    rw [hset]
    apply hfold.setItem hl
    · rw [hitems.itemE]
      exact he
    · intro hp
      rwa [hitems.itemE] at hp
  · rw [← hr]
    exact h.add hl hoff hk (clearDelete_of_lt w.dst_lt) block index link (s.coarseEpoch l)
      (s.coarseIndex l) 0 0 (isTmp (s.itemE l).block) (he.trans hk) (isTmp_setTmp _)

end Tail

section Opened

variable (h : Anchored s) (hl : l ∈ s.locs) (hoff : decodeOffset offset = l)
  (hk : (s.itemE l).key = w.dst)

include h hl hoff hk

/-- Opening the slot and the FINEGRAIN tails. -/
theorem openFine (wasDeleted : Bool) :
    Anchored ((s.openTvb .fineGrain w.epoch).2.insertFine l offset wasDeleted w).2 ∧
      Anchored ((s.openTvb .fineGrain w.epoch).2.deleteFine l offset w).2 := by
  obtain ⟨hlocs, hitem⟩ := openTvb_items (s := s) .fineGrain w.epoch l
  have hopen := h.openTvb .fineGrain w.epoch_lt
  have hl' : l ∈ (s.openTvb .fineGrain w.epoch).2.locs := hlocs ▸ hl
  have hk' : ((s.openTvb .fineGrain w.epoch).2.itemE l).key = w.dst := by
    rw [show (s.openTvb .fineGrain w.epoch).2.itemE l = s.itemE l from congrArg Prod.fst hitem, hk]
  exact ⟨hopen.insertFine hl' hoff hk' wasDeleted, hopen.deleteFine hl' hoff hk'⟩

theorem openCoarse (delete : Bool)
    (hown : ∀ y ∈ (((s.openTvb .coarse w.epoch).2.writeCoarse l offset delete w).2.tmpVb
        (w.epoch % 16)).entries,
      y.place ∉ (s.tmpVb (w.epoch % 16)).entries.map VersionEntry.place → y.key = w.dst) :
    Anchored ((s.openTvb .coarse w.epoch).2.writeCoarse l offset delete w).2 := by
  have hitems := SameItems.openTvb s w.epoch
  have hopen := h.openTvb .coarse w.epoch_lt
  have hl' : l ∈ (s.openTvb .coarse w.epoch).2.locs := by
    rw [hitems.locs]
    exact hl
  have hk' : ((s.openTvb .coarse w.epoch).2.itemE l).key = w.dst := by
    rw [hitems.itemE]
    exact hk
  apply hopen.writeCoarse hl' hoff hk'
  -- a slot that keeps entries was not reset
  intro hne
  have hsame : (s.openTvb .coarse w.epoch).2.tmpVb (w.epoch % 16) = s.tmpVb (w.epoch % 16) := by
    unfold VertexEdges.openTvb at hne ⊢
    by_cases hstamp : (s.tmpVb (w.epoch % 16)).timestamp = w.epoch
    · rw [if_pos hstamp]
    · rw [if_neg hstamp] at hne
      simp at hne
  rw [hsame]
  exact hown

end Opened

end Anchored

/-- insert_edge_block or delete_edge_block, or a merge of the full buffer alone. -/
inductive Call
  | write (env : Env) (o : Applied)
  | merge (env : Env)

/-- The accepted writes and the merges. -/
def Call.step (b : Build) (S : StdSort) (s : VertexEdges) : Call → Option VertexEdges
  | .write env o => (o.run b S env s).bind fun r => if r.accepted then some r.state else none
  | .merge env => if s.tmpEv = tmpNum then some (s.mergeTmpevWithEb S env) else none

/-- A write finds the position of its edge, and an entry that it places is one of its edge. -/
def Call.Recorded (b : Build) (S : StdSort) (s : VertexEdges) : Call → Prop
  | .write env o => (s.prepare S env).LookupRight o.write.dst ∧ ∀ t ∈ step b S s (.write env o),
      ∀ y ∈ (t.tmpVb (o.write.epoch % 16)).entries,
        y.place ∉ (s.tmpVb (o.write.epoch % 16)).entries.map VersionEntry.place →
          y.key = o.write.dst
  | .merge _ => True

instance (b : Build) (S : StdSort) (s : VertexEdges) (c : Call) : Decidable (c.Recorded b S s) :=
  match c with
  | .write env o => inferInstanceAs (Decidable (VertexEdges.LookupRight _ _ ∧
      ∀ t ∈ Call.step b S s (.write env o), ∀ y ∈ (t.tmpVb (o.write.epoch % 16)).entries, _ → _))
  | .merge _ => isTrue trivial

/-- A vertex without pending entries. -/
structure Quiet (s : VertexEdges) : Prop where
  rep : Rep s
  entries : ∀ k, (s.tmpVb k).entries = []
  stamp : ∀ k, (s.tmpVb k).timestamp < 2 ^ 31

namespace Anchored

theorem write (h : Anchored s) {o : Applied} {r : WriteResult} (hr : o.run b S env s = some r)
    (hlook : (s.prepare S env).LookupRight o.write.dst)
    (hown : ∀ y ∈ (r.state.tmpVb (o.write.epoch % 16)).entries,
      y.place ∉ (s.tmpVb (o.write.epoch % 16)).entries.map VersionEntry.place →
        y.key = o.write.dst) : Anchored r.state := by
  have hp := h.prepare S env
  have hlt : (s.prepare S env).tmpEv < tmpNum := tmpEv_prepare_lt h.wf.rep
  have htvb : (s.prepare S env).tmpVb = s.tmpVb := tmpVb_prepare
  rw [← htvb] at hown
  unfold Applied.run at hr
  split_ifs at hr
  · unfold deleteEdgeBlock at hr
    dsimp only at hr
    split_ifs at hr with hm
    · obtain ⟨l, hl, offset, hget, hk, hoff⟩ := hlook hm
      rw [hget, Option.map_some, Option.some.injEq] at hr
      subst hr
      cases b with
      | fineGrain => exact (hp.openFine hl hoff hk false).2
      | coarse => exact hp.openCoarse hl hoff hk true hown
    · rw [← Option.some.inj hr]
      exact hp
  · obtain ⟨f, hf, rfl⟩ := Option.map_eq_some_iff.mp hr
    have hcase := hp.wf.rep.findOrAppend_cases hlook hf
    obtain ⟨hl, hoff, hk⟩ := hcase.located hp.wf.rep hlt
    have hfound := hp.findOrAppend hlt hcase
    cases b with
    | fineGrain => exact (hfound.openFine hl hoff hk f.wasDeleted).1
    | coarse =>
      apply hfound.openCoarse hl hoff hk false
      rw [hcase.tmpVb]
      exact hown

theorem step (h : Anchored s) {call : Call} (hrec : call.Recorded b S s)
    (hstep : call.step b S s = some t) : Anchored t := by
  cases call with
  | write env o =>
    obtain ⟨hlook, hown⟩ := hrec
    have hown := hown t hstep
    obtain ⟨r, hr, hacc⟩ := Option.bind_eq_some_iff.mp hstep
    split_ifs at hacc
    obtain rfl := Option.some.inj hacc
    exact h.write hr hlook hown
  | merge env =>
    unfold Call.step at hstep
    split_ifs at hstep with hfull
    have hp := h.prepare S env
    rw [VertexEdges.prepare, if_pos hfull, Option.some.inj hstep] at hp
    exact hp

end Anchored

end VertexEdges

end AVBGraph
