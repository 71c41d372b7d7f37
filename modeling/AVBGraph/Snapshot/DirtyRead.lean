import AVBGraph.Vertex.Publication

namespace AVBGraph

open Framework

namespace DirtyRead

section Real

/-- The entry of a version that was written; what it replaced was written too, if anything. -/
def RealChange (versions : Nat → List Composite) (timestamp : Nat) (c : Change) : Prop :=
  isDelete c.edge = false ∧ ⟨timestamp, c.intra⟩ ∈ versions c.key ∧ c.old.e ≤ timestamp ∧
    (c.old.e ≠ 0 → c.old ∈ versions c.key)

def RealRecord (versions : Nat → List Composite) (timestamp : Nat) (r : Item) : Prop :=
  r.1.creation ∈ versions r.1.key ∧ r.1.creation.e ≤ timestamp

/-- No time in the vertex stands for a version that never existed, epoch 0 of a fresh entry
apart. -/
structure Real (versions : Nat → List Composite) (v : View) : Prop where
  live : v.Live
  stamp_lt : ∀ k, v.stamp k < 2 ^ 31
  head : ∀ d h, v.head d = some h → h.time ∈ versions d
  change : ∀ k, ∀ c ∈ v.changes k, RealChange versions (v.stamp k) c
  record : ∀ vb ∈ v.vbm.vbs, ∀ r ∈ vb.records, RealRecord versions vb.timestamp r

variable {versions : Nat → List Composite} {v : View} {w : Write}

theorem RealChange.of_erase {timestamp : Nat} {c c' : Change} (h : RealChange versions timestamp c)
    (he : c.erase = c'.erase) : RealChange versions timestamp c' := by
  obtain ⟨hedge, -, hold, hintra⟩ := Change.erase_eq_erase.mp he
  unfold RealChange Change.key at h ⊢
  rwa [← hedge, ← hold, ← hintra]

theorem Real.mono (h : Real versions v) {versions' : Nat → List Composite}
    (hsub : ∀ d t, t ∈ versions d → t ∈ versions' d) : Real versions' v := by
  refine ⟨h.live, h.stamp_lt, fun d hd hh => hsub _ _ (h.head d hd hh), fun k c hc => ?_,
    fun vb hvb r hr => ⟨hsub _ _ (h.record vb hvb r hr).1, (h.record vb hvb r hr).2⟩⟩
  obtain ⟨hd, ht, hle, hold⟩ := h.change k c hc
  exact ⟨hd, hsub _ _ ht, hle, fun hne => hsub _ _ (hold hne)⟩

theorem Real.openTvb (h : Real versions v) {epoch : Nat} (he : epoch < 2 ^ 31) :
    Real versions (v.openTvb epoch) := by
  refine ⟨?_, fun k => ?_, ?_, fun k c hc => ?_, ?_⟩
  · unfold View.Live
    rw [View.head_openTvb]
    exact h.live
  · rw [View.stamp_openTvb]
    split_ifs
    · exact he
    · exact h.stamp_lt k
  · rw [View.head_openTvb]
    exact h.head
  · obtain ⟨hmem, hts⟩ := View.mem_changes_openTvb hc
    rw [hts]
    exact h.change k c hmem
  · rw [View.vbs_openTvb]
    exact h.record

theorem Real.lastTime (h : Real versions v) (d : Nat) (hne : (View.lastTime (v.head d)).e ≠ 0) :
    View.lastTime (v.head d) ∈ versions d := by
  cases hh : v.head d with
  | none => simp [hh, View.lastTime] at hne
  | some hd =>
    have := h.live d hd hh
    simpa [View.lastTime, this] using h.head d hd hh

theorem Real.addVersion (h : Real versions v) (hstamp : v.stamp (w.epoch % 16) = w.epoch)
    (hw : w.time ∈ versions w.dst) (pending : Bool) {last : Composite} (lastIndex weight : Nat)
    (hle : last.e ≤ w.epoch) (hlast : last.e ≠ 0 → last ∈ versions w.dst) :
    Real versions (v.addVersion false pending last lastIndex weight w) := by
  refine ⟨fun d hd hh => ?_, ?_, fun d hd hh => ?_, fun k c hc => ?_, ?_⟩
  · rw [View.head_addVersion] at hh
    by_cases hdst : d = w.dst
    · subst hdst
      rw [Function.update_self] at hh
      rw [← Option.some.inj hh]
    · rw [Function.update_of_ne hdst] at hh
      exact h.live d hd hh
  · rw [View.stamp_addVersion]
    exact h.stamp_lt
  · rw [View.head_addVersion] at hh
    by_cases hdst : d = w.dst
    · subst hdst
      rw [Function.update_self] at hh
      rw [← Option.some.inj hh]
      exact hw
    · rw [Function.update_of_ne hdst] at hh
      exact h.head d hd hh
  · rw [View.stamp_addVersion]
    rcases View.mem_addVersion hc with ⟨c', hc', he⟩ | ⟨rfl, he⟩
    · exact (h.change k c' hc').of_erase he
    · rw [hstamp]
      refine RealChange.of_erase (c := View.newChange false last w) ⟨?_, ?_, hle, ?_⟩ he
      · exact isDelete_of_lt w.dst_lt
      · rw [View.key_newChange]
        exact hw
      · rw [View.key_newChange]
        exact hlast
  · rw [View.vbm_addVersion]
    exact h.record

/-- An insertion keeps the invariant; only an accepted one adds a version. -/
theorem Real.insertFine (h : Real versions v) {versions' : Nat → List Composite}
    (hsub : ∀ d t, t ∈ versions d → t ∈ versions' d) (unset : Nat)
    (hw : ((v.openTvb w.epoch).insertFine unset w).1 = true → w.time ∈ versions' w.dst) :
    Real versions' ((v.openTvb w.epoch).insertFine unset w).2 := by
  have hopen := (h.mono hsub).openTvb w.epoch_lt
  have hstamp : (v.openTvb w.epoch).stamp (w.epoch % 16) = w.epoch := by
    rw [View.stamp_openTvb, if_pos rfl]
  rw [View.insertFine_of_live (hopen.live _)] at hw ⊢
  by_cases hc : conflicts w.txn (View.lastTime ((v.openTvb w.epoch).head w.dst)).e w.epoch = true
  · rw [if_pos hc]
    exact hopen
  · rw [if_neg hc] at hw ⊢
    have hle : (View.lastTime ((v.openTvb w.epoch).head w.dst)).e ≤ w.epoch := by
      simp only [conflicts, Bool.or_eq_true, decide_eq_true_eq, not_or, not_lt] at hc
      exact hc.2
    exact hopen.addVersion hstamp (hw rfl) _ _ _ hle (hopen.lastTime w.dst)

theorem creation_recordOf (c : Change) (weight : Nat) (h : c.old.e < 2 ^ 31) :
    (View.recordOf c weight).1.creation = c.old := by
  simp [View.recordOf, EdgeWithIndex.creation, EdgeWithIndex.getCoarseC, clearTmp_of_lt h]

/-- The invariant in the middle of Transform. -/
private def RealPublication (versions : Nat → List Composite) (epoch : Nat)
    (p : View.Publication) : Prop :=
  (∀ d h, p.head d = some h → h.deleted = false ∧ h.time ∈ versions d) ∧
    ∀ r ∈ p.records, RealRecord versions epoch r

private theorem realPublication_head {epoch : Nat} {p : View.Publication} {c : Change}
    {f : Head → Head} (hp : RealPublication versions epoch p)
    (hf : ∀ h, (f h).deleted = h.deleted ∧ ((f h).time = h.time ∨ (f h).time = ⟨epoch, c.intra⟩))
    (hc : ⟨epoch, c.intra⟩ ∈ versions c.key) (d : Nat) (h : Head)
    (hh : Function.update p.head c.key ((p.head c.key).map f) d = some h) :
    h.deleted = false ∧ h.time ∈ versions d := by
  by_cases hd : d = c.key
  · subst hd
    rw [Function.update_self] at hh
    obtain ⟨g, hg, rfl⟩ := Option.map_eq_some_iff.mp hh
    obtain ⟨hdel, htime⟩ := hp.1 _ g hg
    refine ⟨(hf g).1.trans hdel, ?_⟩
    rcases (hf g).2 with heq | heq
    · rw [heq]; exact htime
    · rw [heq]; exact hc
  · rw [Function.update_of_ne hd] at hh
    exact hp.1 d h hh

private theorem freshHead_cases (epoch : Nat) (c : Change) (h : Head) :
    (View.freshHead epoch c h).deleted = h.deleted ∧
      ((View.freshHead epoch c h).time = h.time ∨ (View.freshHead epoch c h).time = ⟨epoch, c.intra⟩) := by
  unfold View.freshHead
  split_ifs
  · exact ⟨rfl, Or.inl rfl⟩
  · exact ⟨rfl, Or.inr rfl⟩

theorem Real.publishAll (h : Real versions v) (S : StdSort) (slot : Nat) :
    RealPublication versions (v.stamp slot) (View.publishAll S slot v) := by
  refine View.publishAll_induction ⟨fun d hd hh => ⟨h.live d hd hh, h.head d hd hh⟩, by simp⟩ ?_ ?_
  · intro p hp c hc _ _
    obtain ⟨-, ht, -⟩ := h.change slot c hc
    exact ⟨realPublication_head hp (freshHead_cases _ c) ht, hp.2⟩
  · intro p hp c hc hor
    obtain ⟨hdel, ht, hle, hold⟩ := h.change slot c hc
    refine ⟨realPublication_head hp (fun g => ⟨rfl, Or.inr rfl⟩) ht, fun r hr => ?_⟩
    rcases List.mem_append.mp hr with hr | hr
    · exact hp.2 r hr
    · obtain rfl := List.mem_singleton.mp hr
      have hne : c.old.e ≠ 0 := hor.resolve_right (by simp [hdel])
      have hcr := creation_recordOf c ((p.head c.key).elim 0 Head.weight) (hle.trans_lt (h.stamp_lt slot))
      refine ⟨?_, ?_⟩
      · rw [hcr, View.key_recordOf]
        exact hold hne
      · rw [hcr]
        exact hle

theorem Real.transform (h : Real versions v) (S : StdSort) (slot vb : Nat) :
    Real versions (v.transform S slot vb) := by
  unfold View.transform
  split_ifs
  · exact h
  · obtain ⟨hhead, hrec⟩ := h.publishAll S slot
    refine ⟨fun d g hg => (hhead d g hg).1, h.stamp_lt, fun d g hg => (hhead d g hg).2, ?_, ?_⟩
    · intro k c hc
      by_cases hk : k = slot
      · subst hk
        simp at hc
      · exact h.change k c (by simpa [hk] using hc)
    · intro b hb r hr
      rcases List.mem_cons.mp hb with rfl | hb
      · exact hrec r hr
      · exact h.record b hb r hr

end Real

section Run

variable {S : StdSort} {h h' : History} {op : Op}

def Inv (h : History) : Prop := h.state.Wf ∧ Real h.versions h.state.view

theorem inv_build (malloc tmp : Nat → EdgeWithIndex) :
    Inv ⟨.build [] [] malloc tmp, []⟩ := by
  refine ⟨VertexEdges.wf_build malloc tmp, ⟨?_, ?_, ?_, ?_, ?_⟩⟩
  · intro d hd hh
    simp [VertexEdges.view, VertexEdges.build, VertexEdges.item, VertexEdges.items,
      VertexEdges.locs] at hh
  · simp [VertexEdges.view, VertexEdges.build]
  · intro d hd hh
    simp [VertexEdges.view, VertexEdges.build, VertexEdges.item, VertexEdges.items,
      VertexEdges.locs] at hh
  · simp [VertexEdges.view, VertexEdges.build]
  · simp [VertexEdges.view, VertexEdges.build, VersionBlockManager.empty]

theorem step_inv (hinv : Inv h) (hok : h.InsertOk S op)
    (hstep : h.step .fineGrain S op = some h') : Inv h' := by
  obtain ⟨hwf, hreal⟩ := hinv
  cases op with
  | insert env w =>
    obtain ⟨r, unset, hr, hwf', -, hview⟩ := VertexEdges.insert_live hwf hreal.live hok
    obtain ⟨hacc, hview⟩ := Prod.mk.inj hview
    simp only [History.step, hr, Option.map_some, Option.some.injEq] at hstep
    subst hstep
    refine ⟨hwf', ?_⟩
    change Real _ r.state.view
    rw [hview]
    refine hreal.insertFine ?_ unset ?_
    · intro d t ht
      unfold History.versions at ht ⊢
      split_ifs
      · rw [List.filter_append, List.map_append]
        exact List.mem_append_left _ ht
      · exact ht
    · intro htrue
      simp [History.versions, hacc.trans htrue]
  | delete env w => exact absurd hok id
  | transform epoch vb =>
    obtain ⟨n, t, ht, hwf', hview⟩ := VertexEdges.transform_refines (S := S) hwf (epoch % 16) vb
    simp only [History.step, ht, Option.map_some] at hstep
    split_ifs at hstep
    obtain rfl := Option.some.inj hstep
    refine ⟨hwf', ?_⟩
    change Real _ t.view
    rw [hview]
    exact hreal.transform S _ vb

theorem run_inv {malloc tmp : Nat → EdgeWithIndex} {es : List Op}
    (hrun : exec (History.step .fineGrain S) ⟨.build [] [] malloc tmp, []⟩ es = some h)
    (hok : Along (History.step .fineGrain S) (History.InsertOk S) ⟨.build [] [] malloc tmp, []⟩ es) :
    Inv h :=
  invariant_of_step (fun _ _ _ => step_inv) (inv_build malloc tmp) hok hrun

/-- Every destination that for_each_edge hands over has a version older than the reader. -/
def DirtyFree (h : History) (readTs : Composite) : Prop :=
  ∀ x ∈ h.state.forEachEdge .fineGrain readTs, ∃ t ∈ h.versions x.key, t < readTs

/-- The backward scan of an active TmpVersionBlock reaches a fresh entry of the destination:
neither it nor any later entry is older than the reader. -/
def ReachesFresh (s : VertexEdges) (readTs : Composite) (d : Nat) : Prop :=
  ∃ slot < 16, s.vbm.activeTvbMask slot = true ∧ ∃ older x newer,
    (s.tmpVb slot).entries = older ++ x :: newer ∧ x.key = d ∧ x.lastEpoch = 0 ∧
      ∀ y ∈ x :: newer, readTs ≤ ⟨(s.tmpVb slot).timestamp, y.newIntraC⟩

/-- A block younger than the reader's epoch has a record of the destination from that epoch,
created at the reader's time or later. -/
def HoldsSameEpoch (s : VertexEdges) (readTs : Composite) (d : Nat) : Prop :=
  ∃ vb ∈ s.vbm.vbs, readTs.e < vb.timestamp ∧ ∃ r ∈ vb.records, r.1.key = d ∧
    r.1.creation.e = readTs.e ∧ readTs ≤ r.1.creation

theorem reachesFresh_of_mem {s : VertexEdges} {versions : Nat → List Composite}
    (hreal : Real versions s.view) {readTs : Composite} {c : Change}
    (hc : c ∈ s.view.scanTvbs readTs) (hzero : c.old.e = 0) : ReachesFresh s readTs c.key := by
  obtain ⟨slot, hslot, hc⟩ := List.mem_flatMap.mp hc
  split_ifs at hc with hmask
  · obtain ⟨newer, older, heq, -, -, hall⟩ := View.mem_scanChanges hc
    have heq : (s.tmpVb slot).entries.map VersionEntry.change = older.reverse ++ c :: newer.reverse := by
      have := congrArg List.reverse heq
      simpa [VertexEdges.view] using this
    obtain ⟨es, xs, hes, holder, hxs⟩ := List.map_eq_append_iff.mp heq
    obtain ⟨x, ys, rfl, rfl, hys⟩ := List.map_eq_cons_iff.mp hxs
    refine ⟨slot, List.mem_range.mp hslot, hmask, es, x, ys, hes, rfl, hzero, fun y hy => ?_⟩
    have hmem : y.change ∈ s.view.changes slot :=
      List.mem_map_of_mem (by rw [hes]; exact List.mem_append_right _ hy)
    have hy' : y.change ∈ newer ++ [x.change] := by
      rcases List.mem_cons.mp hy with rfl | hy
      · simp
      · have : y.change ∈ newer.reverse := hys ▸ List.mem_map_of_mem hy
        simp [List.mem_reverse.mp this]
    exact (hall _ hy').resolve_left (by simp [(hreal.change slot _ hmem).1])
  · simp at hc

/-- A record that the walk hands over is older than the reader, or its block lets through what
the reader's own epoch wrote after the reader. -/
theorem holdsSameEpoch_of_mem {s : VertexEdges} {versions : Nat → List Composite}
    (hreal : Real versions s.view) {readTs : Composite} {vb : VersionBlock} (hvb : vb ∈ s.vbm.vbs)
    {r : Item} (hr : r ∈ emitBlock .fineGrain readTs vb) :
    r.1.creation < readTs ∨ HoldsSameEpoch s readTs r.1.key := by
  obtain ⟨hmem, hlt | ⟨hne, hle⟩⟩ := mem_emitBlock hr
  · exact Or.inl hlt
  · rcases lt_or_ge r.1.creation readTs with hlt | hge
    · exact Or.inl hlt
    · have hts := (hreal.record vb hvb r hmem).2
      have hge' := hge
      simp only [Composite.le_def, Composite.lt_def] at hge'
      have he : r.1.creation.e = readTs.e := by
        have : r.1.creation.e ≤ readTs.e := hle
        omega
      exact Or.inr ⟨vb, hvb, by omega, r, hmem, rfl, he, hge⟩

/-- Insertions stay invisible to older snapshots, unless the reader's scan of a
TmpVersionBlock reaches a fresh entry, or a block holds a version of the reader's epoch that was
replaced in a later one. -/
theorem dirtyFree_of_unexposed {malloc tmp : Nat → EdgeWithIndex} {es : List Op}
    (hrun : exec (History.step .fineGrain S) ⟨.build [] [] malloc tmp, []⟩ es = some h)
    (hok : Along (History.step .fineGrain S) (History.InsertOk S) ⟨.build [] [] malloc tmp, []⟩ es)
    {readTs : Composite} (hun : ∀ d, (∀ t ∈ h.versions d, readTs ≤ t) →
      ¬ReachesFresh h.state readTs d ∧ ¬HoldsSameEpoch h.state readTs d) :
    DirtyFree h readTs := by
  obtain ⟨hwf, hreal⟩ := run_inv hrun hok
  intro e he
  by_contra hno
  have hold : ∀ t ∈ h.versions e.key, readTs ≤ t := fun t ht => not_lt.mp fun hlt => hno ⟨t, ht, hlt⟩
  obtain ⟨hfresh, hsame⟩ := hun e.key hold
  obtain ⟨x, hx, rfl⟩ := List.mem_map.mp he
  rw [VertexEdges.forEachEdgeWithProperty_eq, List.mem_append, List.mem_append] at hx
  rcases hx with (hx | hx) | hx
  · obtain ⟨hmem, hvis⟩ := List.mem_filter.mp hx
    obtain ⟨l, hl, rfl⟩ := List.mem_map.mp hmem
    have htime := hreal.head _ _ (VertexEdges.head_itemAt hwf.rep hl)
    have hlt : (h.state.itemE l).creation < readTs := by
      simp only [VertexEdges.visible, Bool.and_eq_true, EdgeWithIndex.visibleAt,
        EdgeWithIndex.isVisibleAtComposite, decide_eq_true_eq] at hvis
      exact hvis.2
    exact absurd hlt (not_lt.mpr (hold _ htime))
  · obtain ⟨c, hc, rfl⟩ := List.mem_map.mp hx
    by_cases hzero : c.old.e = 0
    · exact hfresh (reachesFresh_of_mem hreal hc hzero)
    · obtain ⟨slot, -, hslot⟩ := List.mem_flatMap.mp hc
      split_ifs at hslot
      · obtain ⟨newer, older, heq, hlt, -, -⟩ := View.mem_scanChanges hslot
        have hmem : c ∈ h.state.view.changes slot := by
          rw [← List.mem_reverse, heq]
          simp
        exact absurd hlt (not_lt.mpr (hold _ ((hreal.change slot c hmem).2.2.2 hzero)))
      · simp at hslot
  · obtain ⟨vb, hvb, hr⟩ := View.mem_chainScan hx
    rcases holdsSameEpoch_of_mem hreal hvb hr with hlt | hs
    · have hmem := hreal.record vb hvb x (mem_emitBlock hr).1
      exact absurd hlt (not_lt.mpr (hold _ hmem.1))
    · exact hsame hs

instance (h : History) (readTs : Composite) : Decidable (DirtyFree h readTs) :=
  inferInstanceAs (Decidable (∀ x ∈ _, ∃ t ∈ _, t < readTs))

/-- One write-only insertion of edge 7. -/
private def insertSeven (epoch intra weight : Nat) (h : 0 < epoch ∧ epoch < 2 ^ 31) : Op :=
  .insert History.freshEnv ⟨7, weight, epoch, ⟨true, 0, intra, 0⟩, Write.seven_lt, Write.pos_of_epoch h, Write.lt_of_epoch h⟩

private def overwriteSeven : List Op :=
  [insertSeven 1 1 5 Write.epoch_one, .transform 1 100, insertSeven 2 1 6 Write.epoch_two]

/-- Edge 7 is published in epoch 1 and overwritten in epoch 2: a reader of epoch 1 is safe. -/
theorem dirtyFree_of_unexposed_overwrite : ∃ h, exec (History.step .fineGrain .stable)
    History.fresh overwriteSeven = some h ∧ DirtyFree h ⟨1, 2⟩ := by
  obtain ⟨h, hrun, hver, hkeys, hrec⟩ : ∃ h,
      exec (History.step .fineGrain .stable) History.fresh overwriteSeven = some h ∧
      h.versions 7 = [⟨1, 1⟩, ⟨2, 1⟩] ∧
      (∀ slot < 16, ∀ x ∈ (h.state.tmpVb slot).entries, x.key = 7) ∧
      ∀ vb ∈ h.state.vbm.vbs, ∀ r ∈ vb.records, r.1.key = 7 := by
    refine exists_exec ?_
    decide +kernel
  refine ⟨h, hrun, dirtyFree_of_unexposed hrun (by decide +kernel) fun d hd => ?_⟩
  have hne : d ≠ 7 := by
    rintro rfl
    exact absurd (hd ⟨1, 1⟩ (by simp [hver])) (by decide)
  constructor
  · rintro ⟨slot, hslot, -, older, x, newer, heq, rfl, -⟩
    exact hne (hkeys slot hslot x (by simp [heq]))
  · rintro ⟨vb, hvb, -, r, hr, rfl, -⟩
    exact hne (hrec vb hvb r hr)

/-- A first insertion of edge 7 at time (1, 1), still pending, is handed to the reader of
time (1, 1). -/
theorem freshInsertion_dirty : ¬∀ (S : StdSort) (malloc tmp : Nat → EdgeWithIndex) (es : List Op)
    (h : History), exec (History.step .fineGrain S) ⟨.build [] [] malloc tmp, []⟩ es = some h →
    Along (History.step .fineGrain S) (History.InsertOk S) ⟨.build [] [] malloc tmp, []⟩ es →
    ∀ readTs : Composite, ⟨0, 0⟩ < readTs → DirtyFree h readTs := by
  intro hall
  obtain ⟨h, hrun, hdirty⟩ : ∃ h, exec (History.step .fineGrain .stable) History.fresh
      [insertSeven 1 1 5 (by decide)] = some h ∧ ¬DirtyFree h ⟨1, 1⟩ := by
    refine exists_exec ?_
    decide +kernel
  exact hdirty (hall _ _ _ _ h hrun (by decide +kernel) _ (by decide))

end Run

end DirtyRead

end AVBGraph
