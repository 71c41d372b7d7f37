import AVBGraph.Snapshot.Latest
import AVBGraph.Snapshot.PipelineTransform

namespace AVBGraph

open Framework

/-- Writes whose times rise at every destination and lie below the end of their epochs. -/
structure Timely (ws : List Write) : Prop where
  rising : ∀ d, ((ws.filter fun w => w.dst = d).map Write.time).Pairwise (· < ·)
  below : ∀ w ∈ ws, w.txn.intra < intraMax

theorem timely_nil : Timely [] := ⟨fun _ => List.Pairwise.nil, by simp⟩

/-- A write that is later than all versions of its destination. -/
theorem Timely.concat {ws : List Write} {w : Write} (h : Timely ws)
    (hlater : ∀ u ∈ ws, u.dst = w.dst → u.time < w.time) (hmax : w.txn.intra < intraMax) :
    Timely (ws ++ [w]) := by
  constructor
  · intro d
    rw [List.filter_append, List.map_append, List.pairwise_append]
    by_cases hd : w.dst = d
    · subst hd
      refine ⟨h.rising _, by simp, ?_⟩
      intro a ha b hb
      obtain ⟨u, hu, rfl⟩ := List.mem_map.mp ha
      obtain ⟨hu, hud⟩ := List.mem_filter.mp hu
      obtain rfl : b = w.time := by simpa using hb
      exact hlater u hu (of_decide_eq_true hud)
    · simpa [hd] using h.rising d
  · intro u hu
    rcases List.mem_append.mp hu with hu | hu
    · exact h.below u hu
    · rw [List.mem_singleton.mp hu]
      exact hmax

theorem versionsOver_times (v₀ : View) (ws : List Write) :
    (versionsOver v₀ ws).map Version.time = ws.map Write.time := by
  have h := congrArg (List.map fun p : Nat × Nat × Composite => p.2.2)
    (versionsFrom_map v₀.baseTime ws)
  rwa [List.map_map, List.map_map] at h

theorem versionsOver_timesAt (v₀ : View) (ws : List Write) (d : Nat) :
    ((versionsOver v₀ ws).filter fun x => x.dst = d).map Version.time =
      (ws.filter fun w => w.dst = d).map Write.time := by
  have h := congrArg (fun l => (l.filter fun p : Nat × Nat × Composite => p.1 = d).map
    fun p => p.2.2) (versionsFrom_map v₀.baseTime ws)
  simp only [List.filter_map, List.map_map] at h
  exact h

theorem mem_versionsOver {v₀ : View} {ws : List Write} {x : Version} (hx : x ∈ versionsOver v₀ ws) :
    ∃ w ∈ ws, w.dst = x.dst ∧ w.weight = x.weight ∧ w.time = x.time := by
  have hmem := List.mem_map_of_mem (f := fun x : Version => (x.dst, x.weight, x.time)) hx
  rw [versionsOver, versionsFrom_map] at hmem
  obtain ⟨w, hw, heq⟩ := List.mem_map.mp hmem
  simp only [Prod.mk.injEq] at heq
  exact ⟨w, hw, heq⟩

theorem exists_version {v₀ : View} {ws : List Write} {w : Write} (hw : w ∈ ws) :
    ∃ x ∈ versionsOver v₀ ws, x.dst = w.dst ∧ x.weight = w.weight ∧ x.time = w.time := by
  have hmem := List.mem_map_of_mem (f := fun w : Write => (w.dst, w.weight, w.time)) hw
  rw [← versionsFrom_map v₀.baseTime] at hmem
  obtain ⟨x, hx, heq⟩ := List.mem_map.mp hmem
  simp only [Prod.mk.injEq] at heq
  exact ⟨x, hx, heq⟩

theorem latest_weight (v₀ : View) (ws : List Write) (d e : Nat) :
    (latest (versionsOver v₀ ws) d e).map Version.weight =
      (ws.filter fun w => w.dst = d ∧ w.epoch ≤ e).getLast?.map Write.weight := by
  have hmap := versionsFrom_map v₀.baseTime ws
  have hfilter := congrArg (List.filter fun p : Nat × Nat × Composite => p.1 = d ∧ p.2.2.e ≤ e) hmap
  rw [List.filter_map, List.filter_map] at hfilter
  have hlast := congrArg (fun l => (List.getLast? l).map fun p => p.2.1) hfilter
  simp only [List.getLast?_map, Option.map_map] at hlast
  exact hlast

namespace Pipe

variable {v₀ v : View} {ws : List Write}

/-- A slot in use belongs to an unpublished epoch. -/
theorem exists_of_changes (hi : Pipe v₀ ws v) {k : Nat} (hne : v.changes k ≠ []) :
    ∃ x ∈ versionsOver v₀ ws, x.time.e = v.stamp k ∧ v.vbm.endEpoch < v.stamp k := by
  obtain ⟨c, hc⟩ := List.exists_mem_of_ne_nil _ hne
  obtain ⟨x, hx, -, htime, hlt, -⟩ := hi.version_of_mem hc
  exact ⟨x, hx, htime, hlt⟩

/-- The slots above the ring are empty. -/
theorem changes_nil_of_le (hi : Pipe v₀ ws v) {k : Nat} (hk : 16 ≤ k) : v.changes k = [] := by
  by_contra hne
  obtain ⟨x, -, -, hlt⟩ := hi.exists_of_changes hne
  have hslot := (hi.slot k).resolve_left (by omega)
  omega

/-- The entries of one epoch have different times below the maximum. -/
theorem room (hi : Pipe v₀ ws v) (hdist : (ws.map Write.time).Nodup)
    (hbelow : ∀ w ∈ ws, w.txn.intra < intraMax) (k : Nat) : (v.changes k).length ≤ 2 ^ 32 - 1 := by
  have hlen := congrArg List.length (hi.buffered k)
  rw [List.length_map, List.length_map] at hlen
  set xs := (versionsOver v₀ ws).filter fun x => x.time.e = v.stamp k ∧
    v.vbm.endEpoch < v.stamp k with hxs
  have hmem : ∀ x ∈ xs, x ∈ versionsOver v₀ ws ∧ x.time.e = v.stamp k :=
    fun x hx => by
      obtain ⟨h1, h2⟩ := List.mem_filter.mp hx
      exact ⟨h1, (of_decide_eq_true h2).1⟩
  have hne : xs.Pairwise fun x y => x.time ≠ y.time := by
    rw [← versionsOver_times v₀, List.Nodup, List.pairwise_map] at hdist
    exact hdist.sublist List.filter_sublist
  have hnd : (xs.map fun x => x.time.i).Nodup := by
    rw [List.Nodup, List.pairwise_map]
    refine hne.imp_of_mem fun {x y} hx hy hxy hi => hxy (Composite.ext ?_ hi)
    rw [(hmem x hx).2, (hmem y hy).2]
  have hsub : xs.map (fun x => x.time.i) ⊆ List.range intraMax := by
    intro i hi'
    obtain ⟨x, hx, rfl⟩ := List.mem_map.mp hi'
    obtain ⟨w, hw, -, -, htime⟩ := mem_versionsOver (hmem x hx).1
    rw [List.mem_range, ← htime]
    exact hbelow w hw
  have hle := (List.subperm_of_subset hnd hsub).length_le
  rw [List.length_map, List.length_range] at hle
  rw [hlen]
  exact hle

/-- Versions of one destination over a vertex that had none. -/
theorem rising_of_none (hi : Pipe v₀ ws v) (ht : Timely ws) {d : Nat} (hd : v₀.head d = none) :
    Rising (versionsOver v₀ ws) d where
  chain := by
    have hbase : v₀.baseTime d = ⟨0, 0⟩ := by simp [View.baseTime, hd, View.lastTime]
    refine ⟨newest v₀.baseTime ws d, ?_⟩
    rw [← hbase]
    exact old_chain _ _ d
  later x hx _ := (Nat.zero_le _).trans_lt (hi.later x hx).1
  increasing := by
    rw [versionsOver_timesAt]
    exact ht.rising d

/-- The records of one destination that a block hands to a reader at the end of an epoch. -/
theorem emitBlock_weights {xs : List Version} {vb : VersionBlock} (hvb : Publishes v₀ xs vb)
    (hbelow : ∀ x ∈ xs, x.time.i < intraMax) {e : Nat} (hle : e ≤ vb.timestamp) (d : Nat) :
    ((emitBlock .fineGrain ⟨e, intraMax⟩ vb).filter fun r => r.1.key = d).map (fun r => r.2.e) =
      if vb.timestamp ≤ e then [] else shown xs d (v₀.baseVersion d) e vb.timestamp := by
  split_ifs with hts
  · -- every version that ended in the reader's own epoch ended before the reader
    have hnil : emitBlock .fineGrain ⟨e, intraMax⟩ vb = [] := by
      rw [List.eq_nil_iff_forall_not_mem]
      intro r hr
      have hmem := (mem_emitBlock hr).1
      have hrec : recordAt r ∈ (outcome (published xs r.1.key (v₀.baseVersion r.1.key)
          (vb.timestamp - 1)).2 (changesOf xs r.1.key vb.timestamp)).2 := by
        rw [← hvb.records]
        exact List.mem_map_of_mem (List.mem_filter.mpr ⟨hmem, by simp⟩)
      obtain ⟨c, hc, -, hinv⟩ := Rising.mem_outcome hrec
      obtain ⟨x, hx, -, -, rfl⟩ := Pipe.mem_changesOf.mp hc
      have hlt : r.2.index < intraMax := by
        have : r.2.index = x.time.i := hinv
        rw [this]
        exact hbelow x hx
      unfold emitBlock at hr
      rw [if_pos ⟨rfl, le_antisymm hts hle⟩] at hr
      have hvis := List.mem_takeWhile_imp hr
      simp only [EdgeWithIndex.isVisibleAtCompositeInv, decide_eq_true_eq, Composite.le_def,
        Composite.lt_def] at hvis
      omega
    rw [hnil]
    rfl
  · have hemit : emitBlock .fineGrain ⟨e, intraMax⟩ vb =
        vb.records.filter fun r => r.1.isVisibleAt e := by
      have hne : ¬(Build.fineGrain = .fineGrain ∧ vb.timestamp = e) := fun h => hts h.2.le
      unfold emitBlock
      rw [if_neg hne]
      refine takeWhile_eq_filter (hvb.sorted.imp fun {a b} hab => ?_)
      simp only [EdgeWithIndex.isVisibleAt, decide_eq_true_eq]
      intro hb
      have ha : a.1.creation.e ≤ b.1.creation.e := by
        rcases hab with (hlt | ⟨heq, -⟩) | ⟨heq, -⟩
        · exact hlt.le
        · exact heq.le
        · exact heq.le
      exact ha.trans hb
    have hswap : ((vb.records.filter fun r => r.1.isVisibleAt e).filter fun r => r.1.key = d) =
        (vb.records.filter fun r => r.1.key = d).filter fun r => (recordAt r).created.e ≤ e := by
      rw [List.filter_filter, List.filter_filter]
      exact List.filter_congr fun r _ => Bool.and_comm _ _
    rw [hemit, hswap, shown, ← hvb.records, List.filter_map, List.map_map]
    rfl

section Emission

variable (hi : Pipe v₀ ws v) (ht : Timely ws) (hdone : ∀ k, v.changes k = [])
include hi hdone

theorem all_published : ∀ x ∈ versionsOver v₀ ws, x.time.e ≤ v.vbm.endEpoch := by
  intro x hx
  by_contra hlt
  obtain ⟨c, hc, -⟩ := hi.mem_slot hx (not_le.mp hlt)
  rw [hdone] at hc
  simp at hc

include ht

omit hdone in
/-- The walk of the chain for one destination, epoch by epoch. -/
theorem chainScan_weights (hvbs : v₀.vbm.vbs = []) {e : Nat}
    (hle : e ≤ v.vbm.endEpoch) (d : Nat) :
    ((v.chainScan ⟨e, intraMax⟩).filter fun r => r.1.key = d).map (fun r => r.2.e) =
      downFrom (fun q => if q ≤ e then [] else
        shown (versionsOver v₀ ws) d (v₀.baseVersion d) e q) v.vbm.endEpoch := by
  set xs := versionsOver v₀ ws with hxs
  obtain ⟨vbs, heq, hall⟩ := hi.blocks
  rw [hvbs, List.append_nil] at heq
  have hbelow : ∀ x ∈ xs, x.time.i < intraMax := by
    intro x hx
    obtain ⟨w, hw, -, -, htime⟩ := mem_versionsOver hx
    rw [← htime]
    exact ht.below w hw
  have hpub : ∀ vb ∈ v.vbm.vbs, Publishes v₀ xs vb := by
    rw [heq]
    exact hall
  rw [View.chainScan, if_pos hle, scan_eq_flatMap hi.linked hle fun vb hvb => (hpub vb hvb).block_lt,
    List.filter_flatMap, List.map_flatMap, ← hi.linked.flatMap_eq]
  · refine List.flatMap_congr fun vb hvb => ?_
    by_cases hlt : vb.timestamp < e
    · rw [if_pos hlt, if_pos hlt.le]
      rfl
    · rw [if_neg hlt]
      exact emitBlock_weights (hpub vb hvb) hbelow (not_lt.mp hlt) d
  · intro q _ hq hno
    split_ifs
    · rfl
    · have hnil : changesOf xs d q = [] := changesOf_eq_nil.mpr fun x hx _ hxq => by
        obtain ⟨vb, hvb, hts⟩ := hi.complete x hx (hxq ▸ hq)
        exact hno vb hvb (hts.trans hxq)
      rw [shown, hnil, outcome, sorted_nil]
      rfl

/-- The head of a destination shows its latest version. -/
theorem head_weights (hnone : ∀ d, v₀.head d = none) (e d : Nat) :
    ((v.head d).filter (Head.visible ⟨e, intraMax⟩)).toList.map Head.weight =
      ((latest (versionsOver v₀ ws) d v.vbm.endEpoch).filter
        fun x => x.time.e ≤ e).toList.map Version.weight := by
  have hr := hi.rising_of_none ht (hnone d)
  cases hg : v.head d with
  | none =>
    obtain ⟨-, hno⟩ := hi.absent d hg
    rw [Rising.latest_none.mpr fun x hx hd => absurd hd (hno x hx)]
    rfl
  | some g =>
    have hp : g.pending = false := by
      cases hp : g.pending with
      | false => rfl
      | true =>
        obtain ⟨-, -, c, hc, -⟩ := hi.pending d g hg hp
        rw [hdone] at hc
        simp at hc
    obtain ⟨x, hx, hxd⟩ := (hi.present d g hg).resolve_left fun hne => hne (hnone d)
    have htime := hi.time d g hg hp
    have hweight := hi.weight d g hg (Or.inr ⟨x, hx, hxd, hi.all_published hdone x hx⟩)
    rw [hr.published_eq] at htime hweight
    cases hl : latest (versionsOver v₀ ws) d v.vbm.endEpoch with
    | none =>
      have := Rising.latest_none.mp hl x hx hxd
      exact absurd (hi.all_published hdone x hx) (not_le.mpr this)
    | some y =>
      rw [hl] at htime hweight
      obtain ⟨w, hw, -, -, hwt⟩ := mem_versionsOver (Rising.latest_mem hl).1
      have hlt : y.time.i < intraMax := hwt ▸ ht.below w hw
      have hvis : Head.visible ⟨e, intraMax⟩ g = decide (y.time.e ≤ e) := by
        rw [Head.visible, hi.live d g hg, htime]
        simp only [Option.elim_some, Bool.not_false, Bool.true_and, decide_eq_decide,
          Composite.lt_def]
        omega
      rw [Option.filter_some, Option.filter_some, hvis]
      split_ifs
      · simp [hweight]
      · rfl

/-- Once everything is published, the reader at the end of an epoch gets the latest version of
every destination. -/
theorem emitted_latest (hnone : ∀ d, v₀.head d = none) (hvbs : v₀.vbm.vbs = []) (e d : Nat) :
    v.emitted ⟨e, intraMax⟩ d =
      (latest (versionsOver v₀ ws) d e).toList.map Version.weight := by
  have hr := hi.rising_of_none ht (hnone d)
  have htvbs : v.scanTvbs ⟨e, intraMax⟩ = [] := by
    rw [View.scanTvbs, List.flatMap_eq_nil_iff]
    intro slot _
    rw [hdone]
    split_ifs <;> rfl
  rw [View.emitted, htvbs, hi.head_weights ht hdone hnone]
  rw [List.filter_nil, List.map_nil, List.append_nil]
  by_cases hle : e ≤ v.vbm.endEpoch
  · rw [hi.chainScan_weights ht hvbs hle]
    exact hr.head_shown _ hle
  · have hsame : ∀ p, v.vbm.endEpoch ≤ p →
        ((versionsOver v₀ ws).filter fun x => x.dst = d ∧ x.time.e ≤ p) =
          (versionsOver v₀ ws).filter fun x => x.dst = d := fun p hp =>
      List.filter_congr fun x hx => by
        have := hi.all_published hdone x hx
        rw [decide_eq_decide]
        exact ⟨And.left, fun hd => ⟨hd, this.trans hp⟩⟩
    rw [View.chainScan, if_neg hle, latest, latest, hsame _ le_rfl, hsame e (by omega)]
    cases hl : ((versionsOver v₀ ws).filter fun x => x.dst = d).getLast? with
    | none => rfl
    | some x =>
      have hx := (List.mem_filter.mp (List.mem_of_getLast? hl)).1
      have := hi.all_published hdone x hx
      simp [Option.filter, this.trans (le_of_not_ge hle)]

end Emission

end Pipe

section Built

variable {malloc tmp : Nat → EdgeWithIndex}

theorem head_built (d : Nat) : (VertexEdges.build [] [] malloc tmp).view.head d = none := by
  simp [VertexEdges.view, VertexEdges.item, VertexEdges.items, VertexEdges.locs, VertexEdges.build]

/-- A vertex without edges is settled. -/
theorem pipe_built : Pipe (VertexEdges.build [] [] malloc tmp).view []
    (VertexEdges.build [] [] malloc tmp).view := by
  refine Pipe.start ⟨fun d g hg => by simp [head_built] at hg, fun k => Or.inl rfl, fun k => rfl,
    fun d g hg => by simp [head_built] at hg, rfl⟩ fun k => ?_
  change 0 < 2 ^ 31
  decide

/-- The scan at the end of an epoch, once all slots are empty. -/
theorem scan_built {s : VertexEdges} {ws : List Write} (hwf : s.Wf)
    (hi : Pipe (VertexEdges.build [] [] malloc tmp).view ws s.view) (ht : Timely ws)
    (hdone : ∀ slot < 16, (s.tmpVb slot).entries = []) (e d : Nat) :
    ((s.forEachEdgeWithProperty .fineGrain ⟨e, intraMax⟩).filter fun x => x.1.key = d).map
        (fun x => x.2.e) =
      ((ws.filter fun w => w.dst = d ∧ w.epoch ≤ e).getLast?.map Write.weight).toList := by
  have hempty : ∀ k, s.view.changes k = [] := by
    intro k
    by_cases hk : k < 16
    · exact VertexEdges.changes_eq_nil.mpr (hdone k hk)
    · exact hi.changes_nil_of_le (not_lt.mp hk)
  rw [VertexEdges.emitted_view hwf.rep, hi.emitted_latest ht hempty head_built rfl,
    ← latest_weight (VertexEdges.build [] [] malloc tmp).view]
  cases latest _ d e <;> rfl

end Built

end AVBGraph
