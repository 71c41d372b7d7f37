import AVBGraph.Snapshot.ChainRead
import AVBGraph.Snapshot.Undisturbed
import AVBGraph.Vertex.Loaded

namespace AVBGraph

open Framework

namespace View

/-- No epoch is pending. -/
structure Idle (v : View) : Prop where
  slot : v.Slotted
  empty : ∀ k, v.changes k = []
  opened : ∀ k, v.vbm.endEpoch < v.stamp k → v.vbm.activeTvbMask k = true

/-- Also, every edge has a published live version. -/
structure Resting (v : View) : Prop extends Idle v where
  live : v.Live
  head : ∀ d h, v.head d = some h → h.time.e ≤ v.vbm.endEpoch ∧ h.time.i < intraMax
  linked : Linked v.vbm.endEpoch v.vbm.vbs
  records : ∀ vb ∈ v.vbm.vbs, ∀ r ∈ vb.records, r.2.index < intraMax

/-- The newest version of a destination, unless it is a deletion. -/
def current (v : View) (d : Nat) : Option Head := (v.head d).filter fun h => !h.deleted

theorem current_eq_some {v : View} {d : Nat} {g : Head} :
    v.current d = some g ↔ v.head d = some g ∧ g.deleted = false := by
  simp [current]

theorem lastTime_current (v : View) (d : Nat) :
    lastTime (v.head d) = (v.current d).elim ⟨0, 0⟩ Head.time := by
  cases hd : v.head d with
  | none => simp [current, hd, lastTime]
  | some g =>
    rw [current, hd, Option.filter_some]
    cases hg : g.deleted with
    | false => simp [lastTime, hg]
    | true => simp [lastTime, hg]

theorem visible_current (v : View) (readTs : Composite) (d : Nat) :
    (v.head d).filter (Head.visible readTs) = (v.current d).filter fun h => h.time < readTs := by
  rw [current, Option.filter_filter]
  rfl

/-- The overwrites `ws` are pending in any number of epochs above the last version block. -/
structure Pending (v₀ : View) (ws : List Write) (v : View) : Prop where
  base : v₀.Idle
  slot : v.Slotted
  endEpoch : v.vbm.endEpoch = v₀.vbm.endEpoch
  vbs : v.vbm.vbs = v₀.vbm.vbs
  known : ∀ w ∈ ws, v₀.current w.dst ≠ none
  above : ∀ w ∈ ws, v₀.vbm.endEpoch < w.epoch
  current : ∀ d, (v.current d).map (fun h => (h.time, h.weight)) =
    (v₀.current d).map fun h => (newest v₀.baseTime ws d, h.weight)
  entries : ∀ k, (v.changes k).map Change.erase =
    ((versionsOver v₀ ws).filter fun x => x.time.e = v.stamp k).map Version.change
  owned : ∀ w ∈ ws, v.stamp (w.epoch % 16) = w.epoch
  opened : ∀ k, v.vbm.endEpoch < v.stamp k → v.vbm.activeTvbMask k = true

namespace Pending

variable {v₀ v : View} {ws : List Write} {w : Write}

theorem start (h : v₀.Idle) : Pending v₀ [] v₀ where
  base := h
  slot := h.slot
  endEpoch := rfl
  vbs := rfl
  known := by simp
  above := by simp
  current d := by
    have hbase := v₀.lastTime_current d
    cases hd : v₀.current d with
    | none => rfl
    | some g =>
      rw [hd] at hbase
      simp [newest, baseTime, hbase]
  entries k := by simp [h.empty, versionsOver, versionsFrom]
  owned := by simp
  opened := h.opened

/-- A merge may drop deleted items. -/
theorem congr_current (h : Pending v₀ ws v) {u : View} (hstamp : u.stamp = v.stamp)
    (hchanges : u.changes = v.changes) (hvbm : u.vbm = v.vbm) (hcurrent : u.current = v.current) :
    Pending v₀ ws u where
  base := h.base
  slot := by
    unfold Slotted
    rw [hstamp]
    exact h.slot
  endEpoch := by
    rw [hvbm]
    exact h.endEpoch
  vbs := by
    rw [hvbm]
    exact h.vbs
  known := h.known
  above := h.above
  current := by
    rw [hcurrent]
    exact h.current
  entries := by
    rw [hchanges, hstamp]
    exact h.entries
  owned := by
    rw [hstamp]
    exact h.owned
  opened := by
    rw [hvbm, hstamp]
    exact h.opened

/-- A version of the run was written in an epoch above the last version block. -/
theorem version (h : Pending v₀ ws v) {x : Version} (hx : x ∈ versionsOver v₀ ws) :
    v₀.vbm.endEpoch < x.time.e ∧ v.stamp (x.time.e % 16) = x.time.e ∧ x.dst < 2 ^ 63 := by
  obtain ⟨u, hu, hd, -, ht⟩ := mem_versionsOver hx
  rw [← ht, ← hd]
  exact ⟨h.above u hu, h.owned u hu, u.dst_lt⟩

/-- The entries of a slot in use belong to the epoch that owns it. -/
theorem owner (h : Pending v₀ ws v) {k : Nat} (hne : v.changes k ≠ []) :
    ∃ u ∈ ws, u.epoch = v.stamp k ∧ k = u.epoch % 16 := by
  have hmap : (v.changes k).map Change.erase ≠ [] := by
    intro hnil
    exact hne (List.map_eq_nil_iff.mp hnil)
  rw [h.entries] at hmap
  obtain ⟨c, hc⟩ := List.exists_mem_of_ne_nil _ hmap
  obtain ⟨x, hx, -⟩ := List.mem_map.mp hc
  obtain ⟨hx, hxe⟩ := List.mem_filter.mp hx
  obtain ⟨u, hu, -, -, ht⟩ := mem_versionsOver hx
  have hstamp : u.epoch = v.stamp k := by
    rw [← of_decide_eq_true hxe, ← ht]
    rfl
  have hpos := u.epoch_pos
  refine ⟨u, hu, hstamp, ?_⟩
  rcases h.slot k with h0 | hk
  · omega
  · rw [hstamp, hk]

theorem exists_version_of_epoch (v₀ : View) {u : Write} (hu : u ∈ ws) :
    ∃ x ∈ versionsOver v₀ ws, x.time.e = u.epoch := by
  obtain ⟨x, hx, -, -, ht⟩ := exists_version hu
  refine ⟨x, hx, ?_⟩
  rw [ht]
  rfl

theorem openTvb (h : Pending v₀ ws v) {epoch : Nat}
    (hfree : v.changes (epoch % 16) = [] ∨ v.stamp (epoch % 16) = epoch) :
    Pending v₀ ws (v.openTvb epoch) := by
  have hend := v.endEpoch_openTvb epoch
  have hchanges := changes_openTvb_of_free hfree
  -- no version of the run is older and in the slot
  have hown : ∀ u ∈ ws, u.epoch % 16 = epoch % 16 → u.epoch = epoch := by
    intro u hu hmod
    have hstamp := h.owned u hu
    rcases hfree with hnil | heq
    · obtain ⟨x, hx, hxe⟩ := exists_version_of_epoch v₀ hu
      have hent := h.entries (epoch % 16)
      rw [hnil] at hent
      have hnone := List.map_eq_nil_iff.mp hent.symm
      have := List.filter_eq_nil_iff.mp hnone x hx
      rw [decide_eq_true_eq, hxe, ← hmod, hstamp] at this
      exact absurd rfl this
    · rw [← hstamp, hmod, heq]
  refine ⟨h.base, ?_, hend.trans h.endEpoch, (v.vbs_openTvb epoch).trans h.vbs, h.known, h.above,
    ?_, ?_, ?_, ?_⟩
  · intro k
    rw [stamp_openTvb]
    by_cases hk : k = epoch % 16
    · rw [if_pos hk]
      exact Or.inr hk.symm
    · rw [if_neg hk]
      exact h.slot k
  · unfold View.current
    rw [head_openTvb]
    exact h.current
  · intro k
    rw [hchanges, stamp_openTvb, h.entries]
    by_cases hk : k = epoch % 16
    · rw [if_pos hk]
      apply congrArg
      apply List.filter_congr
      intro x hx
      obtain ⟨u, hu, -, -, ht⟩ := mem_versionsOver hx
      have hue : x.time.e = u.epoch := by
        rw [← ht]
        rfl
      have hpos := u.epoch_pos
      rw [hue, decide_eq_decide]
      constructor
      · intro hs
        apply hown u hu
        rcases h.slot k with h0 | h16
        · omega
        · rw [hs, h16, hk]
      · intro heq
        rw [hk, ← heq]
        exact (h.owned u hu).symm
    · rw [if_neg hk]
  · intro u hu
    rw [stamp_openTvb]
    by_cases hk : u.epoch % 16 = epoch % 16
    · rw [if_pos hk]
      exact (hown u hu hk).symm
    · rw [if_neg hk]
      exact h.owned u hu
  · intro k hk
    rw [hend, stamp_openTvb] at hk
    rw [activeTvbMask_openTvb]
    by_cases hke : k = epoch % 16
    · rw [if_pos hke] at hk
      by_cases hs : v.stamp k = epoch
      · rw [if_neg fun hc => hc.2 hs]
        exact h.opened k (hs ▸ hk)
      · rw [if_pos ⟨hke, hs⟩]
    · rw [if_neg hke] at hk
      rw [if_neg fun hc => hke hc.1]
      exact h.opened k hk

/-- The replaced version is the newest one. -/
theorem lastTime_eq (h : Pending v₀ ws v) {d : Nat} (hd : v₀.current d ≠ none) :
    lastTime (v.head d) = newest v₀.baseTime ws d := by
  obtain ⟨g₀, hg₀⟩ := Option.ne_none_iff_exists'.mp hd
  have hh := h.current d
  rw [hg₀] at hh
  obtain ⟨g, hg, hpair⟩ := Option.map_eq_some_iff.mp hh
  rw [lastTime_current, hg]
  exact (Prod.mk.inj hpair).1

/-- An accepted overwrite. -/
theorem write (h : Pending v₀ ws v) (hlt : v₀.vbm.endEpoch < w.epoch)
    (hstamp : v.stamp (w.epoch % 16) = w.epoch) (hd : v₀.current w.dst ≠ none) (lastIndex : Nat) :
    Pending v₀ (ws ++ [w]) (v.addVersion false (isPending (v.head w.dst)) (lastTime (v.head w.dst))
      lastIndex ((v.head w.dst).elim w.weight Head.weight) w) := by
  set u := v.addVersion false (isPending (v.head w.dst)) (lastTime (v.head w.dst)) lastIndex
    ((v.head w.dst).elim w.weight Head.weight) w with hu
  have hvbm : u.vbm = v.vbm := vbm_addVersion
  have hstamps : u.stamp = v.stamp := stamp_addVersion
  have hheads : u.head = Function.update v.head w.dst (some ⟨false, w.time, true,
      (v.head w.dst).elim w.weight Head.weight, (v.changes (w.epoch % 16)).length⟩) := by
    rw [hu, head_addVersion]
    rfl
  have hconcat : ∀ {P : Write → Prop}, (∀ a ∈ ws, P a) → P w → ∀ a ∈ ws ++ [w], P a := by
    intro P hws hw a ha
    rcases List.mem_append.mp ha with ha | ha
    · exact hws a ha
    · rw [List.mem_singleton.mp ha]
      exact hw
  refine ⟨h.base, ?_, by rw [hvbm]; exact h.endEpoch, by rw [hvbm]; exact h.vbs,
    hconcat h.known hd, hconcat h.above hlt, ?_, ?_, ?_, ?_⟩
  · unfold Slotted
    rw [hstamps]
    exact h.slot
  · intro d
    rw [View.current, hheads, newest_concat]
    by_cases hdw : d = w.dst
    · subst hdw
      obtain ⟨g₀, hg₀⟩ := Option.ne_none_iff_exists'.mp hd
      have hh := h.current w.dst
      rw [hg₀] at hh
      obtain ⟨g, hg, hgw⟩ := Option.map_eq_some_iff.mp hh
      rw [Function.update_self, Function.update_self, hg₀, (current_eq_some.mp hg).1,
        Option.elim_some, (Prod.mk.inj hgw).2]
      rfl
    · rw [Function.update_of_ne hdw, Function.update_of_ne hdw]
      exact h.current d
  · intro k
    rw [hu, addVersion_erase, h.entries, ← hu, hstamps, Pipe.versionsOver_concat, List.filter_append,
      List.map_append, h.lastTime_eq hd]
    apply congrArg
    by_cases hk : k = w.epoch % 16
    · subst hk
      rw [if_pos rfl, hstamp, List.filter_cons_of_pos (by simp [Pipe.versionOf, Write.time])]
      rfl
    · rw [if_neg hk, List.filter_cons_of_neg]
      · rfl
      · rw [decide_eq_true_eq]
        intro heq
        have heq : w.epoch = v.stamp k := heq
        have hpos := w.epoch_pos
        rcases h.slot k with h0 | h16
        · omega
        · rw [← heq] at h16
          exact hk h16.symm
  · rw [hstamps]
    exact hconcat h.owned hstamp
  · rw [hvbm, hstamps]
    exact h.opened

end Pending

/-- Creation time and weight of the pairs that the scan of items and TmpVersionBlocks hands over
for one destination. -/
def iterated (v : View) (readTs : Composite) (d : Nat) : List (Composite × Nat) :=
  ((v.head d).filter (Head.visible readTs)).toList.map (fun h => (h.time, h.weight)) ++
    ((v.scanTvbs readTs).filter fun c => c.key = d).map fun c => (c.old, c.weight)

theorem mem_scanTvbs {v : View} {readTs : Composite} {c : Change} (h : c ∈ v.scanTvbs readTs) :
    ∃ slot < 16, c ∈ v.changes slot := by
  rw [scanTvbs, List.mem_flatMap] at h
  obtain ⟨slot, hslot, hc⟩ := h
  by_cases hm : v.vbm.activeTvbMask slot = true
  · rw [if_pos hm] at hc
    obtain ⟨newer, older, heq, -⟩ := mem_scanChanges hc
    have hmem : c ∈ (v.changes slot).reverse := by
      rw [heq]
      simp
    exact ⟨slot, List.mem_range.mp hslot, List.mem_reverse.mp hmem⟩
  · rw [if_neg hm] at hc
    cases hc

end View

/-- iterate_edges_with_property: the pairs of items and of TmpVersionBlocks, in order. -/
def VertexEdges.iterateEdgesWithProperty (s : VertexEdges) (readTs : Composite) : List Item :=
  s.items.filter (visible .fineGrain readTs) ++ s.scanTvbs readTs

/-- The callbacks of iterate_edges_with_property, destination by destination. -/
theorem VertexEdges.iterated_view {s : VertexEdges} (h : s.Rep) {readTs : Composite}
    (hold : ∀ k, ∀ c ∈ s.view.changes k, c.old.e < 2 ^ 31) (d : Nat) :
    ((s.iterateEdgesWithProperty readTs).filter fun x => x.1.key = d).map
      (fun x => (x.1.creation, x.2.e)) = s.view.iterated readTs d := by
  have hitems : (s.items.filter (visible .fineGrain readTs)).filter (fun x => x.1.key = d) =
      (s.item d).toList.filter (visible .fineGrain readTs) := by
    rw [List.filter_filter, ← h.filter_items, List.filter_filter]
    exact List.filter_congr fun x _ => Bool.and_comm _ _
  have htvbs : ((s.view.scanTvbs readTs).filter fun c => c.key = d).map
      ((fun x : Item => (x.1.creation, x.2.e)) ∘ Change.item) =
        ((s.view.scanTvbs readTs).filter fun c => c.key = d).map fun c => (c.old, c.weight) := by
    apply List.map_congr_left
    intro c hc
    obtain ⟨slot, -, hmem⟩ := View.mem_scanTvbs (List.mem_filter.mp hc).1
    simp [Change.item, EdgeWithIndex.creation, EdgeWithIndex.getCoarseC,
      clearTmp_of_lt (hold slot c hmem)]
  rw [iterateEdgesWithProperty, scanTvbs_eq, List.filter_append, List.map_append, hitems,
    List.filter_map, List.map_map]
  unfold View.iterated
  rw [← htvbs]
  congr 1
  cases hi : s.item d with
  | none => simp [view, hi]
  | some x =>
    have hv : visible .fineGrain readTs x = (headOf x).visible readTs := rfl
    have hw : ((headOf x).time, (headOf x).weight) = (x.1.creation, x.2.e) := rfl
    cases hx : (headOf x).visible readTs with
    | false => simp [view, hi, hv, hx, Option.filter]
    | true => simp [view, hi, hv, hx, hw, Option.filter]

/-- Accepted writes whose intra times rise in every TmpVersionBlock. -/
structure Ascending (ws : List Write) : Prop extends Timely ws where
  blocks : ∀ e, ((ws.filter fun w => w.epoch = e).map fun w => w.txn.intra).Pairwise (· < ·)

/-- Every version replaced a published one or one of the run. -/
theorem View.old_lt {v₀ : View} {ws : List Write} (hlt : ∀ d g, v₀.head d = some g → g.time.e < 2 ^ 31) {x : Version}
    (hx : x ∈ versionsOver v₀ ws) : x.old.e < 2 ^ 31 := by
  have hin : x.old ∈ v₀.baseTime x.dst ::
      ((versionsOver v₀ ws).filter fun y => y.dst = x.dst).map Version.time := by
    rw [versionsOver, ← old_chain]
    apply List.mem_append_left
    exact List.mem_map_of_mem (List.mem_filter.mpr ⟨hx, by simp⟩)
  rcases List.mem_cons.mp hin with heq | hin
  · rw [heq, baseTime, lastTime]
    cases hg : v₀.head x.dst with
    | none => simp
    | some g =>
      rw [Option.elim_some]
      split_ifs
      · simp
      · exact hlt _ g hg
  · obtain ⟨y, hy, heq⟩ := List.mem_map.mp hin
    obtain ⟨u, hu, -, -, ht⟩ := mem_versionsOver (List.mem_filter.mp hy).1
    rw [← heq, ← ht]
    exact u.epoch_lt

namespace View.Pending

variable {v₀ v : View} {ws : List Write} {readTs : Composite}

section Entries

variable (h : Pending v₀ ws v)
include h

/-- An entry stands for a version of the run. -/
theorem version_of_mem {k : Nat} {c : Change} (hc : c ∈ v.changes k) :
    ∃ x ∈ versionsOver v₀ ws, x.time.e = v.stamp k ∧ x.change = c.erase := by
  have hmem := List.mem_map_of_mem (f := Change.erase) hc
  rw [h.entries] at hmem
  obtain ⟨x, hx, he⟩ := List.mem_map.mp hmem
  obtain ⟨hx, hxe⟩ := List.mem_filter.mp hx
  exact ⟨x, hx, of_decide_eq_true hxe, he⟩

theorem not_delete {k : Nat} {c : Change} (hc : c ∈ v.changes k) : isDelete c.edge = false := by
  obtain ⟨x, hx, -, he⟩ := h.version_of_mem hc
  obtain ⟨hedge, -⟩ := Version.change_eq_erase.mp he
  rw [← hedge]
  exact isDelete_of_lt (h.version hx).2.2

theorem intra_rising (ha : Ascending ws) (k : Nat) :
    (v.changes k).Pairwise fun a b => a.intra < b.intra := by
  have hmap : (v.changes k).map Change.intra =
      (ws.filter fun w => w.epoch = v.stamp k).map fun w => w.txn.intra := by
    have he := congrArg (List.map Change.intra) (h.entries k)
    rw [List.map_map, List.map_map] at he
    have ht := congrArg (fun l => (l.filter fun c : Composite => c.e = v.stamp k).map Composite.i)
      (versionsOver_times v₀ ws)
    simp only [List.filter_map, List.map_map] at ht
    exact he.trans ht
  have hrising := ha.blocks (v.stamp k)
  rw [← hmap, List.pairwise_map] at hrising
  exact hrising

end Entries

end View.Pending

section Runs

variable {S : StdSort} {h h' : History} {v₀ : View}

/-- An overwrite in an epoch above the last version block, whose lookup returns the item of its
edge. The slot of the epoch does not hold another pending one. -/
def History.Pends (S : StdSort) (h : History) : Op → Prop
  | .insert env w => (h.state.prepare S env).LookupRight w.dst ∧
      (h.state.view.current w.dst).isSome ∧ h.state.vbm.endEpoch < w.epoch ∧
      ((h.state.tmpVb (w.epoch % 16)).entries = [] ∨
        (h.state.tmpVb (w.epoch % 16)).timestamp = w.epoch)
  | .delete _ _ | .transform _ _ => False

/-- A merge keeps the items that are not deleted. -/
theorem VertexEdges.current_prepare {s : VertexEdges} (h : s.Rep) (env : Env) :
    (s.prepare S env).view.current = s.view.current := by
  funext d
  show (((s.prepare S env).item d).map headOf).filter _ = ((s.item d).map headOf).filter _
  rcases (item_prepare h d : (s.prepare S env).item d = _ ∨ _) with heq | ⟨hnone, x, hx, hdrop⟩
  · rw [heq]
  · have hdel : isDelete x.1.e = true := by
      by_contra hno
      simp [dropped, hno] at hdrop
    simp [hnone, hx, headOf, hdel, Option.filter_some]

theorem View.Pending.prepare (hi : v₀.Pending h.accepted h.state.view) (hwf : h.state.Wf)
    (env : Env) : (h.state.prepare S env).Wf ∧
      v₀.Pending h.accepted (h.state.prepare S env).view := by
  constructor
  · apply hwf.prepare
    intro slot x hx y hy
    -- an entry belongs to an edge that is not deleted
    have hmem : x.change ∈ h.state.view.changes slot := List.mem_map_of_mem hx
    obtain ⟨z, hz, -, he⟩ := hi.version_of_mem hmem
    obtain ⟨u, hu, hud, -⟩ := mem_versionsOver hz
    have hkey : x.key = u.dst := by
      have hedge := (Version.change_eq_erase.mp he).1
      show clearDelete x.edge = u.dst
      have hxe : x.edge = z.dst := hedge.symm
      rw [hxe, ← hud]
      exact clearDelete_of_lt u.dst_lt
    have hknown := hi.known u hu
    obtain ⟨g₀, hg₀⟩ := Option.ne_none_iff_exists'.mp hknown
    have hh := hi.current u.dst
    rw [hg₀] at hh
    obtain ⟨g, hg, -⟩ := Option.map_eq_some_iff.mp hh
    obtain ⟨hg, hgd⟩ := View.current_eq_some.mp hg
    rw [hkey] at hy
    have hhead : h.state.view.head u.dst = some (headOf y) := by
      show (h.state.item u.dst).map headOf = _
      rw [hy]
      rfl
    rw [hhead] at hg
    have hdel : isDelete y.1.e = false := by
      rw [← hgd, ← Option.some.inj hg]
      rfl
    simp [VertexEdges.dropped, hdel]
  · apply hi.congr_current
    · funext k
      show ((h.state.prepare S env).tmpVb k).timestamp = (h.state.tmpVb k).timestamp
      rw [VertexEdges.tmpVb_prepare]
    · funext k
      show ((h.state.prepare S env).tmpVb k).entries.map VersionEntry.change =
        (h.state.tmpVb k).entries.map VersionEntry.change
      rw [VertexEdges.tmpVb_prepare]
    · exact VertexEdges.vbm_prepare
    · exact VertexEdges.current_prepare hwf.rep env

theorem View.Pending.insert (hi : v₀.Pending h.accepted h.state.view) (hwf : h.state.Wf) {op : Op}
    (hok : h.Pends S op) (hstep : h.step .fineGrain S op = some h') :
    h'.state.Wf ∧ v₀.Pending h'.accepted h'.state.view := by
  cases op with
  | delete env w => exact absurd hok id
  | transform e vb => exact absurd hok id
  | insert env w =>
    obtain ⟨hlook, hsome, hlt, hfree⟩ := hok
    obtain ⟨hwfp, hp⟩ := hi.prepare (S := S) hwf env
    have hcurrent := congrFun (VertexEdges.current_prepare (S := S) hwf.rep env) w.dst
    have hd : v₀.current w.dst ≠ none := by
      intro hnone
      have hh := hi.current w.dst
      rw [hnone] at hh
      rw [Option.map_eq_none_iff.mp hh] at hsome
      cases hsome
    have hlive : ∀ g, ((h.state.prepare S env).view.openTvb w.epoch).head w.dst = some g →
        g.deleted = false := by
      intro g hg
      rw [View.head_openTvb] at hg
      obtain ⟨g', hg'⟩ := Option.isSome_iff_exists.mp hsome
      rw [← hcurrent] at hg'
      obtain ⟨hhead, hgd⟩ := View.current_eq_some.mp hg'
      rw [hhead] at hg
      rw [← Option.some.inj hg]
      exact hgd
    have hfree' : (h.state.prepare S env).view.changes (w.epoch % 16) = [] ∨
        (h.state.prepare S env).view.stamp (w.epoch % 16) = w.epoch := by
      show ((h.state.prepare S env).tmpVb (w.epoch % 16)).entries.map VersionEntry.change = [] ∨
        ((h.state.prepare S env).tmpVb (w.epoch % 16)).timestamp = w.epoch
      rw [VertexEdges.tmpVb_prepare]
      exact hfree.imp_left VertexEdges.changes_eq_nil.mpr
    have hopen := hp.openTvb hfree'
    obtain ⟨r, unset, hr, hwf', -, hview⟩ :=
      VertexEdges.insert_refines hwfp (VertexEdges.tmpEv_prepare_lt hwf.rep) hlook
    rw [View.insertFine_of_live hlive] at hview
    simp only [History.step, hr, Option.map_some, Option.some.injEq] at hstep
    subst hstep
    refine ⟨hwf', ?_⟩
    split_ifs at hview with hc
    · obtain ⟨hacc, hview⟩ := Prod.mk.inj hview
      simp only [hacc, hview, Bool.false_eq_true, if_false]
      exact hopen
    · obtain ⟨hacc, hview⟩ := Prod.mk.inj hview
      have hstamp : ((h.state.prepare S env).view.openTvb w.epoch).stamp (w.epoch % 16) =
          w.epoch := by
        rw [View.stamp_openTvb, if_pos rfl]
      simp only [hacc, hview, if_true]
      exact hopen.write (hi.endEpoch ▸ hlt) hstamp hd _

theorem VertexEdges.head_lt (s : VertexEdges) : ∀ d g, s.view.head d = some g → g.time.e < 2 ^ 31 := by
  intro d g hg
  obtain ⟨x, -, rfl⟩ := Option.map_eq_some_iff.mp hg
  exact Nat.mod_lt _ (by decide)

theorem pending_run {s : VertexEdges} (hwf : s.Wf) (hrest : s.view.Idle) {es : List Op}
    (hok : Along (History.step .fineGrain S) (History.Pends S) ⟨s, []⟩ es)
    (hrun : exec (History.step .fineGrain S) ⟨s, []⟩ es = some h) :
    h.state.Wf ∧ s.view.Pending h.accepted h.state.view := by
  let Inv : History → Prop := fun g => g.state.Wf ∧ s.view.Pending g.accepted g.state.view
  have hinv : Inv h := invariant_of_step
    (fun _ _ _ hi hok hstep => hi.2.insert hi.1 hok hstep) ⟨hwf, .start hrest⟩ hok hrun
  exact hinv

end Runs

section Loaded

/-- A loaded vertex is at rest. -/
theorem VertexEdges.Built.resting {s : VertexEdges} (h : s.Built) : s.view.Resting := by
  have hvbm : s.view.vbm = .empty := h.vbm
  refine ⟨⟨fun k => Or.inl (h.stamp k), h.changes, ?_⟩, ?_, ?_, ?_, ?_⟩
  · intro k hk
    rw [h.stamp] at hk
    exact absurd hk (Nat.not_lt_zero _)
  · intro d g hg
    rw [h.head hg]
    rfl
  · intro d g hg
    rw [h.head hg]
    refine ⟨Nat.zero_le _, ?_⟩
    show 0 < intraMax
    decide
  · rw [hvbm]
    exact rfl
  · rw [hvbm]
    intro vb hvb
    cases hvb

instance (S : StdSort) (h : History) (op : Op) : Decidable (h.Pends S op) :=
  match op with
  | .insert _ w => inferInstanceAs (Decidable (VertexEdges.LookupRight _ _ ∧
      (h.state.view.current w.dst).isSome = true ∧ h.state.vbm.endEpoch < w.epoch ∧ (_ ∨ _)))
  | .delete _ _ | .transform _ _ => isFalse id

/-- The edge 7 as it is loaded, with weight 3. -/
def sevenLoaded : VertexEdges := .build [7] [3] (fun _ => ⟨0, 0, 0⟩) fun _ => ⟨0, 0, 0⟩

theorem built_sevenLoaded : sevenLoaded.Built :=
  ⟨[7], [3], _, _, rfl, by decide, by decide⟩

def sevenWrite (epoch intra weight : Nat) (h : 0 < epoch ∧ epoch < 2 ^ 31) : Write :=
  ⟨7, weight, epoch, ⟨true, 0, intra, 64⟩, Write.seven_lt, Write.pos_of_epoch h, Write.lt_of_epoch h⟩

def overwriteSeven (epoch intra weight : Nat) (h : 0 < epoch ∧ epoch < 2 ^ 31) : Op :=
  .insert History.freshEnv (sevenWrite epoch intra weight h)

end Loaded

end AVBGraph
