import AVBGraph.Snapshot.Published

namespace AVBGraph

open Framework

def Op.BelowMax : Op → Prop
  | .insert _ w => w.txn.intra < intraMax
  | _ => True

/-- The published epochs end before the one that is written, no other epoch is pending, and the
write is later than all before it. -/
def History.InOrder (S : StdSort) (h : History) : Op → Prop
  | .insert env w => (h.state.prepare S env).LookupRight w.dst ∧ h.state.vbm.endEpoch < w.epoch ∧
      (∀ slot < 16, (h.state.tmpVb slot).entries ≠ [] → (h.state.tmpVb slot).timestamp = w.epoch) ∧
      ∀ u ∈ h.accepted, u.time < w.time
  | .delete _ _ => False
  | .transform _ _ => True

instance (op : Op) : Decidable op.BelowMax :=
  match op with
  | .insert _ w => inferInstanceAs (Decidable (w.txn.intra < intraMax))
  | .delete _ _ => isTrue trivial
  | .transform _ _ => isTrue trivial

instance (S : StdSort) (h : History) (op : Op) : Decidable (h.InOrder S op) :=
  match op with
  | .insert _ w => inferInstanceAs (Decidable (VertexEdges.LookupRight _ _ ∧
      h.state.vbm.endEpoch < w.epoch ∧ (∀ slot < 16, (h.state.tmpVb slot).entries ≠ [] →
        (h.state.tmpVb slot).timestamp = w.epoch) ∧ ∀ u ∈ h.accepted, u.time < w.time))
  | .delete _ _ => isFalse id
  | .transform _ _ => isTrue trivial

/-- A run that publishes each epoch before it writes the next one. -/
structure Sequential (v₀ : View) (h : History) : Prop where
  wf : h.state.Wf
  pipe : Pipe v₀ h.accepted h.state.view
  rising : (h.accepted.map Write.time).Pairwise (· < ·)
  below : ∀ w ∈ h.accepted, w.txn.intra < intraMax
  single : ∀ x ∈ versionsOver v₀ h.accepted, ∀ y ∈ versionsOver v₀ h.accepted,
    h.state.view.vbm.endEpoch < x.time.e → h.state.view.vbm.endEpoch < y.time.e →
      x.time.e = y.time.e
  settled : ∀ d g, h.state.view.head d = some g → g.pending = false →
    ∀ x ∈ versionsOver v₀ h.accepted, x.dst = d → x.time.e ≤ h.state.view.vbm.endEpoch

namespace Sequential

variable {v₀ : View} {S : StdSort} {h h' : History}

theorem start {s : VertexEdges} (hwf : s.Wf) (hs : s.view.Settled)
    (hlt : ∀ k, s.view.stamp k < 2 ^ 31) : Sequential s.view ⟨s, []⟩ where
  wf := hwf
  pipe := Pipe.start hs hlt
  rising := List.Pairwise.nil
  below := by simp
  single := by simp [versionsOver, versionsFrom]
  settled := by simp [versionsOver, versionsFrom]

theorem timely (hi : Sequential v₀ h) : Timely h.accepted where
  rising _ := hi.rising.sublist (List.filter_sublist.map _)
  below := hi.below


/-- Every write finds the newest version of its destination. -/
theorem lastTime_eq (hi : Sequential v₀ h) {d : Nat} (hd : v₀.head d = none) :
    View.lastTime (h.state.view.head d) = newest v₀.baseTime h.accepted d := by
  have hbase : v₀.baseTime d = ⟨0, 0⟩ := by simp [View.baseTime, hd, View.lastTime]
  have hchain := old_chain v₀.baseTime h.accepted d
  rw [hbase] at hchain
  change List.map _ ((versionsOver v₀ h.accepted).filter _) ++ _ =
    _ :: List.map _ ((versionsOver v₀ h.accepted).filter _) at hchain
  have hlast : newest v₀.baseTime h.accepted d =
      ((versionsOver v₀ h.accepted).filter fun x => x.dst = d).getLast?.elim ⟨0, 0⟩ Version.time := by
    have := congrArg List.getLast? hchain
    rw [List.getLast?_concat, List.getLast?_cons, List.getLast?_map] at this
    rw [Option.some.inj this]
    cases ((versionsOver v₀ h.accepted).filter fun x => x.dst = d).getLast? <;> rfl
  cases hg : h.state.view.head d with
  | none =>
    obtain ⟨-, hall⟩ := hi.pipe.absent d hg
    have hnil : ((versionsOver v₀ h.accepted).filter fun x => x.dst = d) = [] :=
      List.filter_eq_nil_iff.mpr fun x hx => by simpa using hall x hx
    rw [hlast, hnil]
    rfl
  | some g =>
    have htime : View.lastTime (some g) = g.time := by
      simp [View.lastTime, hi.pipe.live d g hg]
    rw [htime]
    cases hp : g.pending with
    | true => exact (hi.pipe.pending d g hg hp).2.1
    | false =>
      have hall := hi.settled d g hg hp
      have hfilter : ((versionsOver v₀ h.accepted).filter fun x =>
          x.dst = d ∧ x.time.e ≤ h.state.view.vbm.endEpoch) =
          (versionsOver v₀ h.accepted).filter fun x => x.dst = d :=
        List.filter_congr fun x hx => by
          rw [decide_eq_decide]
          exact ⟨And.left, fun hd => ⟨hd, hall x hx hd⟩⟩
      rw [hi.pipe.time d g hg hp, (hi.pipe.rising_of_none hi.timely hd).published_eq, latest, hfilter, hlast]
      have hv : v₀.baseVersion d = (⟨0, 0⟩, 0) := by simp [View.baseVersion, hd]
      cases ((versionsOver v₀ h.accepted).filter fun x => x.dst = d).getLast? with
      | none => simp [hv]
      | some x => rfl

theorem insert (hi : Sequential v₀ h) {env : Env} {w : Write} (hd : v₀.head w.dst = none)
    (hok : h.InOrder S (.insert env w)) (hmax : w.txn.intra < intraMax)
    (hstep : h.step .fineGrain S (.insert env w) = some h') : Sequential v₀ h' := by
  obtain ⟨hlook, hlt, hslots, htimes⟩ := hok
  have hlt' : h.state.view.vbm.endEpoch < w.epoch := hlt
  have hmod : w.epoch % 16 < 16 := Nat.mod_lt _ (by decide)
  have hfree : h.state.view.changes (w.epoch % 16) = [] ∨
      h.state.view.stamp (w.epoch % 16) = w.epoch := by
    by_cases hnil : (h.state.tmpVb (w.epoch % 16)).entries = []
    · exact Or.inl (VertexEdges.changes_eq_nil.mpr hnil)
    · exact Or.inr (hslots _ hmod hnil)
  have hnewer : ∀ x ∈ versionsOver v₀ h.accepted, x.time < w.time := by
    intro x hx
    obtain ⟨u, hu, -, -, htime⟩ := mem_versionsOver hx
    rw [← htime]
    exact htimes u hu
  obtain ⟨hwf', hpipe'⟩ := Pipe.insert hi.wf hi.pipe hlook hstep hlt' hfree
    (hi.pipe.room (hi.rising.imp fun h => h.ne) hi.below)
    fun _ => ⟨hi.lastTime_eq hd, fun x hx _ => (hnewer x hx).ne⟩
  obtain ⟨-, ⟨-, hacc, hview⟩ | ⟨-, hacc, unset, hview⟩⟩ :=
    History.insert_cases hi.wf hi.pipe.live hlook hstep
  · have hend : h'.state.view.vbm.endEpoch = h.state.view.vbm.endEpoch := by
      rw [hview, View.endEpoch_openTvb]
    have hhead : h'.state.view.head = h.state.view.head := by rw [hview, View.head_openTvb]
    refine ⟨hwf', hpipe', ?_, ?_, ?_, ?_⟩
    · rw [hacc]
      exact hi.rising
    · rw [hacc]
      exact hi.below
    · rw [hacc, hend]
      exact hi.single
    · rw [hacc, hend, hhead]
      exact hi.settled
  · have hend : h'.state.view.vbm.endEpoch = h.state.view.vbm.endEpoch := by
      rw [hview, View.vbm_addVersion, View.endEpoch_openTvb]
    have hmem : ∀ {x}, x ∈ versionsOver v₀ (h.accepted ++ [w]) →
        x ∈ versionsOver v₀ h.accepted ∨ x = Pipe.versionOf v₀ h.accepted w := by
      intro x hx
      rwa [Pipe.versionsOver_concat, List.mem_append, List.mem_singleton] at hx
    -- an unpublished version has the epoch of the write
    have hepoch : ∀ x ∈ versionsOver v₀ (h.accepted ++ [w]),
        h.state.view.vbm.endEpoch < x.time.e → x.time.e = w.epoch := by
      intro x hx hxlt
      rcases hmem hx with hx | rfl
      · obtain ⟨c, hc, -⟩ := hi.pipe.mem_slot hx hxlt
        have hne : (h.state.tmpVb (x.time.e % 16)).entries ≠ [] := fun hnil => by
          rw [VertexEdges.changes_eq_nil.mpr hnil] at hc
          simp at hc
        rw [← hi.pipe.owned x hx hxlt]
        exact hslots _ (Nat.mod_lt _ (by decide)) hne
      · rfl
    refine ⟨hwf', hpipe', ?_, ?_, ?_, ?_⟩
    · rw [hacc, List.map_append, List.pairwise_append]
      refine ⟨hi.rising, by simp, ?_⟩
      simpa using htimes
    · rw [hacc]
      intro u hu
      rcases List.mem_append.mp hu with hu | hu
      · exact hi.below u hu
      · rw [List.mem_singleton.mp hu]
        exact hmax
    · rw [hacc, hend]
      intro x hx y hy hxlt hylt
      rw [hepoch x hx hxlt, hepoch y hy hylt]
    · rw [hacc, hend, hview]
      intro d g hg hp x hx hxd
      rw [View.head_addVersion, View.head_openTvb] at hg
      by_cases hdw : d = w.dst
      · subst hdw
        rw [Function.update_self] at hg
        rw [← Option.some.inj hg] at hp
        cases hp
      · rw [Function.update_of_ne hdw] at hg
        rcases hmem hx with hx | rfl
        · exact hi.settled d g hg hp x hx hxd
        · exact absurd hxd.symm hdw

theorem transform (hi : Sequential v₀ h) {epoch vb : Nat}
    (hstep : h.step .fineGrain S (.transform epoch vb) = some h') : Sequential v₀ h' := by
  obtain ⟨hwf', hacc, hstamp, hview⟩ := History.transform_cases hi.wf hstep
  by_cases hnil : h.state.view.changes (epoch % 16) = []
  · have hsame : h'.state.view = h.state.view := by rw [hview, View.transform, if_pos hnil]
    refine ⟨hwf', ?_, ?_, ?_, ?_, ?_⟩
    · rw [hacc, hsame]
      exact hi.pipe
    · rw [hacc]
      exact hi.rising
    · rw [hacc]
      exact hi.below
    · rw [hacc, hsame]
      exact hi.single
    · rw [hacc, hsame]
      exact hi.settled
  obtain ⟨y, hy, htime, hlt⟩ := hi.pipe.exists_of_changes hnil
  have hend : h'.state.view.vbm.endEpoch = h.state.view.stamp (epoch % 16) := by
    rw [hview, View.transform, if_neg hnil]
    rfl
  have hall : ∀ x ∈ versionsOver v₀ h.accepted, x.time.e ≤ h.state.view.stamp (epoch % 16) := by
    intro x hx
    by_cases hxlt : h.state.view.vbm.endEpoch < x.time.e
    · rw [hi.single x hx y hy hxlt (by omega), htime]
    · omega
  have hpipe := hi.pipe.transform S (epoch % 16) vb fun j hj => by
    obtain ⟨x, hx, hxe, hxlt⟩ := hi.pipe.exists_of_changes hj
    have := hi.single y hy x hx (by omega) (by omega)
    omega
  refine ⟨hwf', ?_, ?_, ?_, ?_, ?_⟩
  · rw [hacc, hview]
    exact hpipe
  · rw [hacc]
    exact hi.rising
  · rw [hacc]
    exact hi.below
  · rw [hacc, hend]
    intro x hx _ _ hxlt _
    exact absurd hxlt (not_lt.mpr (hall x hx))
  · rw [hacc, hend]
    exact fun d g _ _ x hx _ => hall x hx

/-- Every run of insertions in order, each epoch published before the next one. -/
theorem run {es : List Op} {h₀ : History} (hbase : ∀ d, v₀.head d = none) (h₀i : Sequential v₀ h₀)
    (hrun : exec (History.step .fineGrain S) h₀ es = some h)
    (hok : Along (History.step .fineGrain S) (fun h op => h.InOrder S op ∧ op.BelowMax) h₀ es) :
    Sequential v₀ h := by
  refine invariant_of_step (fun g op g' hi hop hstep => ?_) h₀i hok hrun
  cases op with
  | insert env w => exact hi.insert (hbase _) hop.1 hop.2 hstep
  | delete env w => exact absurd hop.1 id
  | transform epoch vb => exact hi.transform hstep

end Sequential

section Published

variable {S : StdSort} {h : History} {malloc tmp : Nat → EdgeWithIndex} {es : List Op}

/-- After a sequential run of insertions with times below the maximum, the scan at the end of an
epoch hands over every destination that has a version by then once, with its newest weight. -/
theorem published_snapshot_exact
    (hrun : exec (History.step .fineGrain S) ⟨.build [] [] malloc tmp, []⟩ es = some h)
    (hok : Along (History.step .fineGrain S) (fun h op => h.InOrder S op ∧ op.BelowMax)
      ⟨.build [] [] malloc tmp, []⟩ es)
    (hdone : ∀ slot < 16, (h.state.tmpVb slot).entries = []) (e d : Nat) :
    ((h.state.forEachEdgeWithProperty .fineGrain ⟨e, intraMax⟩).filter fun x => x.1.key = d).map
        (fun x => x.2.e) =
      ((h.accepted.filter fun w => w.dst = d ∧ w.epoch ≤ e).getLast?.map Write.weight).toList := by
  have hwf := VertexEdges.wf_build malloc tmp
  have hi := Sequential.run head_built (Sequential.start hwf pipe_built.base fun k => by
    change 0 < 2 ^ 31
    decide) hrun hok
  exact scan_built hi.wf hi.pipe hi.timely hdone e d

/-- One write-only insertion of edge 7. -/
private def writeSeven (epoch intra weight : Nat) (h : 0 < epoch ∧ epoch < 2 ^ 31) : Op :=
  .insert History.freshEnv ⟨7, weight, epoch, ⟨true, 0, intra, 0⟩, Write.seven_lt, Write.pos_of_epoch h, Write.lt_of_epoch h⟩

/-- Two epochs write edge 7: the snapshot of the first one keeps its weight. -/
theorem published_snapshot_exact_overwrite : ∃ h, exec (History.step .fineGrain .stable)
    History.fresh [writeSeven 1 1 5 (by decide), .transform 1 100, writeSeven 2 1 6 (by decide),
      .transform 2 200] = some h ∧
    ((h.state.forEachEdgeWithProperty .fineGrain ⟨1, intraMax⟩).filter fun x => x.1.key = 7).map
      (fun x => x.2.e) = [5] := by
  obtain ⟨h, hrun, hdone, hacc⟩ : ∃ h, exec (History.step .fineGrain .stable) History.fresh
      [writeSeven 1 1 5 (by decide), .transform 1 100, writeSeven 2 1 6 (by decide),
        .transform 2 200] = some h ∧ (∀ slot < 16, (h.state.tmpVb slot).entries = []) ∧
      (h.accepted.filter fun w => w.dst = 7 ∧ w.epoch ≤ 1).getLast?.map Write.weight = some 5 := by
    refine exists_exec ?_
    decide +kernel
  refine ⟨h, hrun, ?_⟩
  rw [published_snapshot_exact hrun (by decide +kernel) hdone, hacc]
  rfl

/-- A version written at the largest intra time is hidden from the snapshot of its epoch. -/
theorem maximal_intra_hidden : ¬∀ (S : StdSort) (malloc tmp : Nat → EdgeWithIndex) (es : List Op)
    (h : History), exec (History.step .fineGrain S) ⟨.build [] [] malloc tmp, []⟩ es = some h →
    Along (History.step .fineGrain S) (History.InOrder S) ⟨.build [] [] malloc tmp, []⟩ es →
    (∀ slot < 16, (h.state.tmpVb slot).entries = []) → ∀ e d,
      ((h.state.forEachEdgeWithProperty .fineGrain ⟨e, intraMax⟩).filter fun x => x.1.key = d).map
          (fun x => x.2.e) =
        ((h.accepted.filter fun w => w.dst = d ∧ w.epoch ≤ e).getLast?.map Write.weight).toList := by
  intro hall
  obtain ⟨h, hrun, hdone, hne⟩ : ∃ h, exec (History.step .fineGrain .stable) History.fresh
      [writeSeven 1 intraMax 5 (by decide), .transform 1 100] = some h ∧
      (∀ slot < 16, (h.state.tmpVb slot).entries = []) ∧
      ((h.state.forEachEdgeWithProperty .fineGrain ⟨1, intraMax⟩).filter fun x => x.1.key = 7).map
          (fun x => x.2.e) ≠
        ((h.accepted.filter fun w => w.dst = 7 ∧ w.epoch ≤ 1).getLast?.map Write.weight).toList := by
    refine exists_exec ?_
    decide +kernel
  exact hne (hall _ _ _ _ h hrun (by decide +kernel) hdone 1 7)

end Published

end AVBGraph
