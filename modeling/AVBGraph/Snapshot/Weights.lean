import AVBGraph.Snapshot.Pending

namespace AVBGraph

open Framework

section Versions

variable {base : Nat → Composite} {ws : List Write}

theorem versionsFrom_append (base : Nat → Composite) (us ws : List Write) :
    versionsFrom base (us ++ ws) = versionsFrom base us ++ versionsFrom (newest base us) ws := by
  induction us generalizing base with
  | nil => rfl
  | cons u us ih =>
    rw [List.cons_append, versionsFrom, ih, versionsFrom, List.cons_append]
    rfl

/-- A version of a run belongs to one of its writes. -/
theorem exists_of_versionsFrom_eq {xs ys : List Version} {x : Version}
    (h : versionsFrom base ws = xs ++ x :: ys) : ∃ pre u post, ws = pre ++ u :: post ∧
      versionsFrom base pre = xs ∧ x = ⟨u.dst, u.weight, newest base pre u.dst, u.time⟩ ∧
      ys = versionsFrom (newest base (pre ++ [u])) post := by
  induction xs generalizing base ws with
  | nil =>
    cases ws with
    | nil => cases h
    | cons u ws =>
      rw [versionsFrom, List.nil_append] at h
      obtain ⟨hx, hys⟩ := List.cons.inj h
      exact ⟨[], u, ws, rfl, rfl, hx.symm, hys.symm⟩
  | cons y xs ih =>
    cases ws with
    | nil => cases h
    | cons w ws =>
      rw [versionsFrom, List.cons_append] at h
      obtain ⟨hy, hrest⟩ := List.cons.inj h
      obtain ⟨pre, u, post, hws, hxs, hx, hys⟩ := ih hrest
      refine ⟨w :: pre, u, post, by rw [hws, List.cons_append], ?_, hx, hys⟩
      rw [versionsFrom, hxs, hy]

theorem versionsFrom_split {pre post : List Write} {u : Write} :
    versionsFrom base (pre ++ u :: post) = versionsFrom base pre ++
      ⟨u.dst, u.weight, newest base pre u.dst, u.time⟩ ::
        versionsFrom (newest base (pre ++ [u])) post := by
  rw [versionsFrom_append, versionsFrom, newest_concat]

/-- The intra times of the versions of one epoch are those of its writes. -/
theorem versionsFrom_intras (base : Nat → Composite) (ws : List Write) (e : Nat) :
    ((versionsFrom base ws).filter fun x => x.time.e = e).map (fun x => x.time.i) =
      (ws.filter fun w => w.epoch = e).map fun w => w.txn.intra := by
  have h := congrArg (fun l => (l.filter fun p : Nat × Nat × Composite => p.2.2.e = e).map
    fun p => p.2.2.i) (versionsFrom_map base ws)
  simp only [List.filter_map, List.map_map] at h
  exact h

end Versions

namespace View

variable {readTs : Composite}

/-- The scan of a TmpVersionBlock hands over an entry that it sees, unless it stopped before. -/
theorem mem_scanChanges_iff {timestamp : Nat} {cs : List Change} {c : Change}
    (hlive : ∀ x ∈ cs, isDelete x.edge = false) : c ∈ scanChanges readTs timestamp cs ↔
      ∃ newer older, cs = newer ++ c :: older ∧ c.old < readTs ∧
        ∀ x ∈ newer ++ [c], readTs ≤ ⟨timestamp, x.intra⟩ := by
  constructor
  · intro hc
    obtain ⟨newer, older, heq, hold, -, hall⟩ := mem_scanChanges hc
    refine ⟨newer, older, heq, hold, ?_⟩
    intro x hx
    apply (hall x hx).resolve_left
    have hmem : x ∈ cs := by
      rw [heq]
      rcases List.mem_append.mp hx with hx | hx
      · exact List.mem_append_left _ hx
      · rw [List.mem_singleton.mp hx]
        simp
    simp [hlive x hmem]
  · intro ⟨newer, older, heq, hold, hall⟩
    subst heq
    induction newer with
    | nil =>
      have hle := hall c (by simp)
      have hno : ¬isDelete c.edge = true := by simp [hlive c (by simp)]
      rw [List.nil_append, scanChanges, if_neg hno, if_pos hle, if_pos hold]
      exact List.mem_cons_self
    | cons x newer ih =>
      have hle := hall x (by simp)
      have hno : ¬isDelete x.edge = true := by simp [hlive x (by simp)]
      have hrest : c ∈ scanChanges readTs timestamp (newer ++ c :: older) := by
        apply ih
        · intro y hy
          apply hall
          rw [List.cons_append]
          exact List.mem_cons_of_mem x hy
        · intro y hy
          apply hlive
          rw [List.cons_append]
          exact List.mem_cons_of_mem x hy
      rw [List.cons_append, scanChanges, if_neg hno, if_pos hle]
      by_cases hx : x.old < readTs
      · rw [if_pos hx]
        exact List.mem_cons_of_mem _ hrest
      · rw [if_neg hx]
        exact hrest

/-- A pending overwrite `u` with the writes before and after it whose entry a reader is given. -/
structure Shown (v₀ : View) (readTs : Composite) (pre : List Write) (u : Write) (post : List Write) :
    Prop where
  old_lt : newest v₀.baseTime pre u.dst < readTs
  le_time : readTs ≤ u.time
  not_stopped : ∀ y ∈ post, y.epoch = u.epoch → readTs ≤ y.time

namespace Pending

variable {v₀ v : View} {ws : List Write}

/-- The version that an overwrite created, as its entry. -/
def entryOf (v₀ : View) (pre : List Write) (u : Write) : Change :=
  Version.change ⟨u.dst, u.weight, newest v₀.baseTime pre u.dst, u.time⟩

/-- The entries of a slot around one of them are the writes around its overwrite. -/
theorem split_of_entries (h : Pending v₀ ws v) {k : Nat} {older newer : List Change} {c : Change}
    (heq : v.changes k = older ++ c :: newer) : ∃ pre u post, ws = pre ++ u :: post ∧
      u.epoch = v.stamp k ∧ entryOf v₀ pre u = c.erase ∧
      newer.map Change.intra =
        (post.filter fun y => y.epoch = v.stamp k).map fun y => y.txn.intra := by
  have hent := h.entries k
  rw [heq, List.map_append, List.map_cons] at hent
  obtain ⟨as, bs, hfilter, -, hbs⟩ := List.map_eq_append_iff.mp hent.symm
  obtain ⟨x, xs, rfl, hx, hxs⟩ := List.map_eq_cons_iff.mp hbs
  obtain ⟨l₁, l₂, hl, -, hl₂⟩ := List.filter_eq_append_iff.mp hfilter
  obtain ⟨m₁, m₂, rfl, -, hxe, hm₂⟩ := List.filter_eq_cons_iff.mp hl₂
  rw [← List.append_assoc] at hl
  obtain ⟨pre, u, post, hws, -, rfl, rfl⟩ := exists_of_versionsFrom_eq hl
  refine ⟨pre, u, post, hws, of_decide_eq_true hxe, hx, ?_⟩
  have hintra : newer.map Change.intra = (newer.map Change.erase).map Change.intra := by
    rw [List.map_map]
    rfl
  rw [hintra, ← hxs, ← hm₂, ← versionsFrom_intras, List.map_map]
  rfl

theorem entries_of_split (h : Pending v₀ ws v) {pre post : List Write} {u : Write}
    (hws : ws = pre ++ u :: post) : ∃ older c newer,
      v.changes (u.epoch % 16) = older ++ c :: newer ∧ entryOf v₀ pre u = c.erase ∧
      newer.map Change.intra = (post.filter fun y => y.epoch = u.epoch).map fun y => y.txn.intra := by
  have hstamp : v.stamp (u.epoch % 16) = u.epoch := by
    apply h.owned
    rw [hws]
    simp
  have hent := h.entries (u.epoch % 16)
  rw [hstamp, versionsOver, hws, versionsFrom_split, List.filter_append,
    List.filter_cons_of_pos (by simp [Write.time]), List.map_append, List.map_cons] at hent
  obtain ⟨older, rest, heq, -, hrest⟩ := List.map_eq_append_iff.mp hent
  obtain ⟨c, newer, rfl, hc, hnewer⟩ := List.map_eq_cons_iff.mp hrest
  refine ⟨older, c, newer, heq, hc.symm, ?_⟩
  have hintra : newer.map Change.intra = (newer.map Change.erase).map Change.intra := by
    rw [List.map_map]
    rfl
  rw [hintra, hnewer, ← versionsFrom_intras, List.map_map]
  rfl

/-- The entries that a scan hands over are those of the shown overwrites. -/
theorem mem_scanTvbs_iff (h : Pending v₀ ws v) (x : Change) :
    (∃ c ∈ v.scanTvbs readTs, c.erase = x) ↔
      ∃ pre u post, ws = pre ++ u :: post ∧ v₀.Shown readTs pre u post ∧ entryOf v₀ pre u = x := by
  have hlive : ∀ k, ∀ c ∈ (v.changes k).reverse, isDelete c.edge = false := by
    intro k c hc
    exact h.not_delete (List.mem_reverse.mp hc)
  constructor
  · rintro ⟨c, hc, rfl⟩
    obtain ⟨k, -, hc⟩ := List.mem_flatMap.mp hc
    by_cases hm : v.vbm.activeTvbMask k = true
    · rw [if_pos hm, mem_scanChanges_iff (hlive k)] at hc
      obtain ⟨newer, older, heq, hold, hall⟩ := hc
      have hsplit : v.changes k = older.reverse ++ c :: newer.reverse := by
        rw [← List.reverse_reverse (v.changes k), heq]
        simp
      obtain ⟨pre, u, post, hws, hu, hentry, hintra⟩ := h.split_of_entries hsplit
      have hc : u.txn.intra = c.intra := congrArg Change.intra hentry
      refine ⟨pre, u, post, hws, ⟨?_, ?_, ?_⟩, hentry⟩
      · have ho : newest v₀.baseTime pre u.dst = c.old := congrArg Change.old hentry
        rw [ho]
        exact hold
      · have hle := hall c (by simp)
        rw [← hu, ← hc] at hle
        exact hle
      · intro y hy hye
        have hmem : y.txn.intra ∈ newer.reverse.map Change.intra := by
          rw [hintra, ← hu]
          exact List.mem_map_of_mem (f := fun y : Write => y.txn.intra)
            (List.mem_filter.mpr ⟨hy, by simp [hye]⟩)
        obtain ⟨z, hz, hzi⟩ := List.mem_map.mp hmem
        have hle := hall z (List.mem_append_left _ (List.mem_reverse.mp hz))
        rw [← hu, ← hye, hzi] at hle
        exact hle
    · rw [if_neg hm] at hc
      cases hc
  · rintro ⟨pre, u, post, hws, hshown, rfl⟩
    obtain ⟨older, c, newer, heq, hentry, hintra⟩ := h.entries_of_split hws
    have hu : u ∈ ws := by
      rw [hws]
      simp
    have hstamp := h.owned u hu
    have hmask : v.vbm.activeTvbMask (u.epoch % 16) = true := by
      apply h.opened
      rw [h.endEpoch, hstamp]
      exact h.above u hu
    refine ⟨c, List.mem_flatMap.mpr ⟨u.epoch % 16, List.mem_range.mpr (Nat.mod_lt _ (by decide)), ?_⟩,
      hentry.symm⟩
    rw [if_pos hmask, mem_scanChanges_iff (hlive _), hstamp]
    refine ⟨newer.reverse, older.reverse, by rw [heq]; simp, ?_, ?_⟩
    · have ho : newest v₀.baseTime pre u.dst = c.old := congrArg Change.old hentry
      rw [← ho]
      exact hshown.old_lt
    · intro z hz
      rcases List.mem_append.mp hz with hz | hz
      · have hmem : z.intra ∈ newer.map Change.intra :=
          List.mem_map_of_mem (List.mem_reverse.mp hz)
        rw [hintra] at hmem
        obtain ⟨y, hy, hyi⟩ := List.mem_map.mp hmem
        obtain ⟨hy, hye⟩ := List.mem_filter.mp hy
        have hye := of_decide_eq_true hye
        have hle := hshown.not_stopped y hy hye
        have hyt : y.time = ⟨u.epoch, z.intra⟩ := Composite.ext hye hyi
        rwa [hyt] at hle
      · rw [List.mem_singleton.mp hz]
        have hc : u.txn.intra = c.intra := congrArg Change.intra hentry
        rw [← hc]
        exact hshown.le_time

end Pending

/-- Creation time and weight of the versions of a destination: the published one and those of the
writes. -/
def written (v₀ : View) (ws : List Write) (d : Nat) : List (Composite × Nat) :=
  (v₀.current d).toList.map (fun g => (g.time, g.weight)) ++
    (ws.filter fun w => w.dst = d).map fun w => (w.time, w.weight)

/-- What a scan hands over has the weights of the versions if and only if the newest versions before
the reader have the published weights, and the shown overwrites the weights that they replaced. -/
theorem Pending.iterated_iff {v₀ v : View} {ws : List Write} (h : Pending v₀ ws v) :
    (∀ d, ∀ p ∈ v.iterated readTs d, p ∈ v₀.written ws d) ↔
      (∀ d g, v₀.current d = some g → newest v₀.baseTime ws d < readTs →
        (newest v₀.baseTime ws d, g.weight) ∈ v₀.written ws d) ∧
      ∀ pre u post, ws = pre ++ u :: post → v₀.Shown readTs pre u post →
        (newest v₀.baseTime pre u.dst, u.weight) ∈ v₀.written ws u.dst := by
  have hkey : ∀ pre (u : Write), (entryOf v₀ pre u).key = u.dst := by
    intro pre u
    exact clearDelete_of_lt u.dst_lt
  have hcurrent : ∀ d g₀, v₀.current d = some g₀ → ∃ g, v.current d = some g ∧
      g.time = newest v₀.baseTime ws d ∧ g.weight = g₀.weight := by
    intro d g₀ hg₀
    have hh := h.current d
    rw [hg₀] at hh
    obtain ⟨g, hg, hpair⟩ := Option.map_eq_some_iff.mp hh
    exact ⟨g, hg, (Prod.mk.inj hpair).1, (Prod.mk.inj hpair).2⟩
  constructor
  · intro hall
    constructor
    · intro d g₀ hg₀ hlt
      obtain ⟨g, hg, ht, hw⟩ := hcurrent d g₀ hg₀
      apply hall
      apply List.mem_append_left
      rw [visible_current, hg, Option.filter_some, ht, if_pos (decide_eq_true hlt), ← ht, ← hw]
      exact List.mem_singleton_self _
    · intro pre u post hws hshown
      obtain ⟨c, hc, hce⟩ := (h.mem_scanTvbs_iff _).mpr ⟨pre, u, post, hws, hshown, rfl⟩
      have hck : c.key = u.dst := by
        rw [← Change.key_erase, hce]
        exact hkey pre u
      have hmem : (c.old, c.weight) ∈ v.iterated readTs u.dst :=
        List.mem_append_right _ (List.mem_map_of_mem (List.mem_filter.mpr ⟨hc, by simp [hck]⟩))
      have hold : c.old = newest v₀.baseTime pre u.dst := congrArg Change.old hce
      have hweight : c.weight = u.weight := congrArg Change.weight hce
      rw [← hold, ← hweight]
      exact hall _ _ hmem
  · intro ⟨hnewest, hshown⟩ d p hp
    rcases List.mem_append.mp hp with hp | hp
    · obtain ⟨g, hg, rfl⟩ := List.mem_map.mp hp
      rw [visible_current, Option.mem_toList] at hg
      obtain ⟨hg, hlt⟩ := Option.filter_eq_some_iff.mp hg
      have hbase : v₀.current d ≠ none := by
        intro hnone
        have hh := h.current d
        rw [hnone, hg] at hh
        cases hh
      obtain ⟨g₀, hg₀⟩ := Option.ne_none_iff_exists'.mp hbase
      obtain ⟨g', hg', ht, hw⟩ := hcurrent d g₀ hg₀
      obtain rfl : g = g' := Option.some.inj (hg.symm.trans hg')
      rw [ht, hw]
      apply hnewest d g₀ hg₀
      rw [← ht]
      exact of_decide_eq_true hlt
    · obtain ⟨c, hc, rfl⟩ := List.mem_map.mp hp
      obtain ⟨hc, hck⟩ := List.mem_filter.mp hc
      obtain ⟨pre, u, post, hws, hs, hentry⟩ := (h.mem_scanTvbs_iff _).mp ⟨c, hc, rfl⟩
      have hud : u.dst = d := by
        rw [← hkey pre u, hentry, Change.key_erase]
        exact of_decide_eq_true hck
      have hold : newest v₀.baseTime pre u.dst = c.old := congrArg Change.old hentry
      have hweight : u.weight = c.weight := congrArg Change.weight hentry
      have hmem := hshown pre u post hws hs
      rwa [hold, hweight, hud] at hmem

end View

section Runs

variable {S : StdSort} {h : History}

/-- The pairs that iterate_edges_with_property hands over carry the weights of their versions if and
only if every edge whose newest version is before the reader still has the weight of that version,
and every pending overwrite whose entry the reader is given has the weight that it replaced. -/
theorem weights_right_iff {s : VertexEdges} (hwf : s.Wf) (hrest : s.view.Idle) {es : List Op}
    (hok : Along (History.step .fineGrain S) (History.Pends S) ⟨s, []⟩ es)
    (hrun : exec (History.step .fineGrain S) ⟨s, []⟩ es = some h) (readTs : Composite) :
    (∀ x ∈ h.state.iterateEdgesWithProperty readTs,
        (x.1.creation, x.2.e) ∈ s.view.written h.accepted x.1.key) ↔
      (∀ d g, s.view.current d = some g → newest s.view.baseTime h.accepted d < readTs →
        (newest s.view.baseTime h.accepted d, g.weight) ∈ s.view.written h.accepted d) ∧
      ∀ pre u post, h.accepted = pre ++ u :: post → s.view.Shown readTs pre u post →
        (newest s.view.baseTime pre u.dst, u.weight) ∈ s.view.written h.accepted u.dst := by
  obtain ⟨hwf', hi⟩ := pending_run hwf hrest hok hrun
  have hold : ∀ k, ∀ c ∈ h.state.view.changes k, c.old.e < 2 ^ 31 := by
    intro k c hc
    obtain ⟨x, hx, -, he⟩ := hi.version_of_mem hc
    obtain ⟨-, -, hxold, -⟩ := Version.change_eq_erase.mp he
    rw [← hxold]
    exact View.old_lt s.head_lt hx
  rw [← hi.iterated_iff]
  constructor
  · intro hall d p hp
    rw [← VertexEdges.iterated_view hwf'.rep hold] at hp
    obtain ⟨x, hx, rfl⟩ := List.mem_map.mp hp
    obtain ⟨hx, hxd⟩ := List.mem_filter.mp hx
    rw [← of_decide_eq_true hxd]
    exact hall x hx
  · intro hall x hx
    apply hall
    rw [← VertexEdges.iterated_view hwf'.rep hold]
    exact List.mem_map_of_mem (f := fun y : Item => (y.1.creation, y.2.e))
      (List.mem_filter.mpr ⟨hx, by simp⟩)

/-- An overwrite that keeps the weight is read with it. -/
theorem weights_right_seven : ∃ h, exec (History.step .fineGrain .stable) ⟨sevenLoaded, []⟩
    [overwriteSeven 2 1 3 (by decide)] = some h ∧ ∀ x ∈ h.state.iterateEdgesWithProperty ⟨2, 1⟩,
      (x.1.creation, x.2.e) ∈ sevenLoaded.view.written h.accepted x.1.key := by
  obtain ⟨h, hrun, hacc⟩ : ∃ h, exec (History.step .fineGrain .stable) ⟨sevenLoaded, []⟩
      [overwriteSeven 2 1 3 (by decide)] = some h ∧
        h.accepted = [sevenWrite 2 1 3 (by decide)] := by
    apply exists_exec
    decide +kernel
  refine ⟨h, hrun, (weights_right_iff built_sevenLoaded.wf built_sevenLoaded.resting.toIdle
    (by decide +kernel) hrun ⟨2, 1⟩).mpr ⟨?_, ?_⟩⟩
  · intro d g hg hlt
    rw [hacc] at hlt
    have hd : d = 7 := by
      by_contra hne
      have hm : sevenLoaded.m d = false := by simp [sevenLoaded, VertexEdges.build, hne]
      rw [View.current, VertexEdges.head_eq_none built_sevenLoaded.rep hm] at hg
      cases hg
    subst hd
    exact absurd hlt (by decide +kernel)
  · intro pre u post hws _
    rw [hacc] at hws
    obtain ⟨rfl, hws⟩ | ⟨pre, rfl, hws⟩ := List.cons_eq_append_iff.mp hws
    · obtain ⟨rfl, -⟩ := List.cons.inj hws
      rw [hacc]
      decide +kernel
    · cases pre <;> cases hws

/-- After an overwrite with another weight, a reader behind it gets the new version with the old
weight, and a reader before it the old version with the new weight. -/
theorem weights_wrong_seven : sevenLoaded.Wf ∧ sevenLoaded.view.Idle ∧
    Along (History.step .fineGrain .stable) (History.Pends .stable) ⟨sevenLoaded, []⟩
      [overwriteSeven 2 1 4 (by decide)] ∧
    ∃ h, exec (History.step .fineGrain .stable) ⟨sevenLoaded, []⟩
      [overwriteSeven 2 1 4 (by decide)] = some h ∧
        sevenLoaded.view.written h.accepted 7 = [(⟨0, 0⟩, 3), (⟨2, 1⟩, 4)] ∧
        (h.state.iterateEdgesWithProperty ⟨2, 5⟩).map (fun x => (x.1.creation, x.2.e)) =
          [(⟨2, 1⟩, 3)] ∧
        (h.state.iterateEdgesWithProperty ⟨2, 1⟩).map (fun x => (x.1.creation, x.2.e)) =
          [(⟨0, 0⟩, 4)] ∧
        ¬∀ x ∈ h.state.iterateEdgesWithProperty ⟨2, 5⟩,
          (x.1.creation, x.2.e) ∈ sevenLoaded.view.written h.accepted x.1.key := by
  refine ⟨built_sevenLoaded.wf, built_sevenLoaded.resting.toIdle, by decide +kernel, ?_⟩
  apply exists_exec
  decide +kernel

end Runs

end AVBGraph
