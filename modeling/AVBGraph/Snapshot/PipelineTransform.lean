import AVBGraph.Snapshot.Pipeline

namespace AVBGraph

open Framework

namespace Pipe

variable {v₀ v : View} {ws : List Write}

section History

theorem base_le (h : v₀.Settled) (d : Nat) : (v₀.baseTime d).e ≤ v₀.vbm.endEpoch := by
  unfold View.baseTime View.lastTime
  cases hd : v₀.head d with
  | none => exact Nat.zero_le _
  | some g =>
    have := h.live d g hd
    simpa [this] using (h.head d g hd).2

/-- The entries of a destination in the slot of an unpublished epoch. -/
theorem changes_at (h : Pipe v₀ ws v) {k : Nat} (hlt : v.vbm.endEpoch < v.stamp k) (d : Nat) :
    ((v.changes k).filter fun c => c.key = d).map Change.erase =
      changesOf (versionsOver v₀ ws) d (v.stamp k) := by
  have hcomm : ((v.changes k).filter fun c => c.key = d).map Change.erase =
      ((v.changes k).map Change.erase).filter fun c => c.key = d := by
    rw [List.filter_map]
    rfl
  rw [hcomm, h.buffered, List.filter_map, List.filter_filter, changesOf]
  refine congrArg _ (List.filter_congr fun x hx => ?_)
  simp only [Function.comp_apply, key_change (h.dst_lt x hx), hlt, and_true, Bool.decide_and]

theorem changesOf_ne_nil_iff {xs : List Version} {d epoch : Nat} :
    changesOf xs d epoch ≠ [] ↔ ∃ x ∈ xs, x.dst = d ∧ x.time.e = epoch := by
  rw [Ne, changesOf_eq_nil]
  push Not
  rfl

theorem mem_changesOf {xs : List Version} {d epoch : Nat} {c : Change} :
    c ∈ changesOf xs d epoch ↔ ∃ x ∈ xs, x.dst = d ∧ x.time.e = epoch ∧ x.change = c := by
  simp [changesOf, and_assoc]

/-- Different versions of a destination replaced different ones. -/
theorem old_ne (h : Pipe v₀ ws v) (d epoch : Nat) :
    (changesOf (versionsOver v₀ ws) d epoch).Pairwise fun a b => a.old ≠ b.old := by
  have hbase : v₀.baseTime d ∉
      ((versionsOver v₀ ws).filter fun x => x.dst = d).map Version.time := by
    intro hmem
    obtain ⟨x, hx, heq⟩ := List.mem_map.mp hmem
    have h1 := (h.later x (List.mem_filter.mp hx).1).1
    have h2 := base_le h.base d
    rw [heq] at h1
    omega
  have hnd := List.nodup_cons.mpr ⟨hbase, h.nodup d⟩
  have hchain := old_chain v₀.baseTime ws d
  change _ = v₀.baseTime d :: ((versionsOver v₀ ws).filter _).map Version.time at hchain
  rw [← hchain] at hnd
  have holds := hnd.sublist (List.sublist_append_left _ _)
  rw [List.Nodup, List.pairwise_map] at holds
  unfold changesOf
  rw [List.pairwise_map]
  have hsub : ((versionsOver v₀ ws).filter fun x => x.dst = d ∧ x.time.e = epoch).Sublist
      ((versionsOver v₀ ws).filter fun x => x.dst = d) := by
    have : ((versionsOver v₀ ws).filter fun x => x.dst = d ∧ x.time.e = epoch) =
        ((versionsOver v₀ ws).filter fun x => x.dst = d).filter fun x => x.time.e = epoch := by
      rw [List.filter_filter]
      exact List.filter_congr fun x _ => by simp [Bool.and_comm]
    rw [this]
    exact List.filter_sublist
  exact holds.sublist hsub

/-- A version without a predecessor is the first one of its destination. -/
theorem old_zero (h : Pipe v₀ ws v) {x : Version} (hx : x ∈ versionsOver v₀ ws)
    (hz : x.old.e = 0) : x.old = v₀.baseTime x.dst ∧
      (∀ y ∈ versionsOver v₀ ws, y.dst = x.dst → x.time.e ≤ y.time.e) ∧
      (2 ≤ ((versionsOver v₀ ws).filter fun y => y.dst = x.dst).length →
        ∃ z ∈ versionsOver v₀ ws, z.dst = x.dst ∧ z.old.e ≠ 0 ∧
          newest v₀.baseTime ws x.dst = z.time) := by
  have hchain := old_chain v₀.baseTime ws x.dst
  have hmem : x ∈ (versionsOver v₀ ws).filter fun y => y.dst = x.dst :=
    List.mem_filter.mpr ⟨hx, by simp⟩
  have hsub : ∀ y ∈ (versionsOver v₀ ws).filter fun y => y.dst = x.dst,
      y ∈ versionsOver v₀ ws ∧ y.dst = x.dst := fun y hy => by
    obtain ⟨h1, h2⟩ := List.mem_filter.mp hy
    exact ⟨h1, of_decide_eq_true h2⟩
  change ((versionsOver v₀ ws).filter _).map Version.old ++ _ =
    _ :: ((versionsOver v₀ ws).filter _).map Version.time at hchain
  obtain ⟨-, hmono⟩ := chain_mono hchain fun y hy => (h.later y (hsub y hy).1).2
  have hall : ∀ y ∈ versionsOver v₀ ws, y.dst = x.dst →
      y ∈ (versionsOver v₀ ws).filter fun y => y.dst = x.dst :=
    fun y hy hd => List.mem_filter.mpr ⟨hy, by simp [hd]⟩
  cases hh : (versionsOver v₀ ws).filter fun y => y.dst = x.dst with
  | nil =>
    rw [hh] at hmem
    simp at hmem
  | cons x₀ rest =>
    rw [hh] at hchain hmem hmono hsub hall
    obtain ⟨hold, hrest, hlast⟩ := chain_cons hchain
    have hne : ∀ y ∈ rest, y.old.e ≠ 0 := by
      intro y hy
      obtain ⟨z, hz, heq⟩ := hrest y hy
      have := (h.later z (hsub z hz).1).1
      rw [heq]
      omega
    have hx₀ : x = x₀ := by
      rcases List.mem_cons.mp hmem with heq | hm
      · exact heq
      · exact absurd hz (hne x hm)
    refine ⟨hx₀ ▸ hold, fun y hy hd => ?_, fun hlen => ?_⟩
    · rcases List.mem_cons.mp (hall y hy hd) with rfl | hy
      · rw [hx₀]
      · rw [hx₀]
        exact (List.pairwise_cons.mp hmono).1 y hy
    · rcases hlast with ⟨rfl, -⟩ | ⟨z, hz, hnew⟩
      · simp at hlen
      · obtain ⟨hz', hd⟩ := hsub z (by simp [hz])
        exact ⟨z, hz', hd, hne z hz, hnew⟩

end History

section Transform

variable {S : StdSort} {k : Nat}

/-- Every version is published already or not older than the oldest pending epoch. -/
theorem gap (h : Pipe v₀ ws v) (hasc : ∀ j, v.changes j ≠ [] → v.stamp k ≤ v.stamp j)
    {x : Version} (hx : x ∈ versionsOver v₀ ws) :
    x.time.e ≤ v.vbm.endEpoch ∨ v.stamp k ≤ x.time.e := by
  rcases le_or_gt x.time.e v.vbm.endEpoch with hle | hlt
  · exact Or.inl hle
  · obtain ⟨c, hc, -⟩ := h.mem_slot hx hlt
    have := hasc _ (List.ne_nil_of_mem hc)
    rw [h.owned x hx hlt] at this
    exact Or.inr this

variable (h : Pipe v₀ ws v) (hlt : v.vbm.endEpoch < v.stamp k)
  (hasc : ∀ j, v.changes j ≠ [] → v.stamp k ≤ v.stamp j)

include h

theorem isDelete_edge {c : Change} (hc : c ∈ v.changes k) : isDelete c.edge = false := by
  obtain ⟨x, hx, he, -⟩ := h.version_of_mem hc
  rw [← (Version.change_eq_erase.mp he).1]
  exact isDelete_of_lt (h.dst_lt x hx)

theorem old_lt {c : Change} (hc : c ∈ v.changes k) : c.old.e < 2 ^ 31 := by
  obtain ⟨x, hx, he, htime, -⟩ := h.version_of_mem hc
  rw [← (Version.change_eq_erase.mp he).2.2.1]
  have := (h.later x hx).2
  have := h.stamp_lt k
  omega

include hlt

theorem pairwise_slot (d : Nat) :
    ((v.changes k).filter fun c => c.key = d).Pairwise fun a b => a.old ≠ b.old := by
  have hp := h.old_ne d (v.stamp k)
  rw [← h.changes_at hlt, List.pairwise_map] at hp
  exact hp

/-- The entries of a destination in sorted order, as versions. -/
theorem sortedAt_eq (d : Nat) : (View.sortedAt S v k d).map Change.erase =
    View.sorted .stable (changesOf (versionsOver v₀ ws) d (v.stamp k)) := by
  rw [View.sortedAt_erase (h.pairwise_slot hlt d), h.changes_at hlt]

theorem mem_sortedAt_iff {d : Nat} {c : Change} (hc : c ∈ View.sortedAt S v k d) :
    ∃ x ∈ versionsOver v₀ ws, x.dst = d ∧ x.time.e = v.stamp k ∧ x.change = c.erase := by
  have hmem := List.mem_map_of_mem (f := Change.erase) hc
  rw [h.sortedAt_eq hlt, (View.sorted_perm _ _).mem_iff, mem_changesOf] at hmem
  exact hmem

theorem exists_last {d : Nat} (hex : ∃ x ∈ versionsOver v₀ ws, x.dst = d ∧ x.time.e = v.stamp k) :
    ∃ c, (View.sortedAt S v k d).getLast? = some c ∧
      published (versionsOver v₀ ws) d (v₀.baseVersion d) (v.stamp k) =
        (⟨v.stamp k, c.intra⟩, c.weight) := by
  have hne := changesOf_ne_nil_iff.mpr hex
  have hne' : View.sortedAt S v k d ≠ [] := by
    intro hnil
    have hs := h.sortedAt_eq (S := S) hlt d
    rw [hnil, List.map_nil] at hs
    have := View.sorted_perm .stable (changesOf (versionsOver v₀ ws) d (v.stamp k))
    rw [← hs] at this
    exact hne this.nil_eq.symm
  obtain ⟨c, hc⟩ := Option.isSome_iff_exists.mp (List.getLast?_isSome.mpr hne')
  refine ⟨c, hc, ?_⟩
  obtain ⟨f, hf⟩ : ∃ f, v.stamp k = f + 1 := ⟨v.stamp k - 1, by omega⟩
  have hlast : (View.sorted .stable (changesOf (versionsOver v₀ ws) d (v.stamp k))).getLast? =
      some c.erase := by
    rw [← h.sortedAt_eq (S := S) hlt d, List.getLast?_map, hc]
    rfl
  rw [hf] at hlast ⊢
  rw [published, hlast]
  rfl

omit hlt in
include hasc in
/-- An epoch without entries of the destination publishes nothing of it. -/
theorem published_untouched {d : Nat} (hlt : v.vbm.endEpoch < v.stamp k)
    (hno : ¬∃ x ∈ versionsOver v₀ ws, x.dst = d ∧ x.time.e = v.stamp k) :
    published (versionsOver v₀ ws) d (v₀.baseVersion d) (v.stamp k) =
      published (versionsOver v₀ ws) d (v₀.baseVersion d) v.vbm.endEpoch := by
  refine published_eq_of_gap hlt.le fun x hx hd => ?_
  rcases h.gap hasc hx with hle | hge
  · exact Or.inl hle
  · refine Or.inr (lt_of_le_of_ne hge fun heq => hno ⟨x, hx, hd, heq.symm⟩)

omit hlt in
/-- What a head looks like when the slot holds no entry of its destination. -/
theorem head_untouched {d : Nat}
    (hno : ¬∃ x ∈ versionsOver v₀ ws, x.dst = d ∧ x.time.e = v.stamp k) :
    (View.publishAll S k v).head d = v.head d := by
  refine View.publishAll_untouched fun c hc hd => ?_
  obtain ⟨x, hx, -, htime, -, hdst⟩ := h.version_of_mem hc
  exact hno ⟨x, hx, hdst.trans hd, htime⟩

/-- A destination whose last entry is a first insertion with a successor: the successor belongs
to a later epoch. -/
theorem kept {d : Nat} {c : Change} (hc : (View.sortedAt S v k d).getLast? = some c)
    (hz : c.old.e = 0) (hn : c.next ≠ 0) : View.sortedAt S v k d = [c] ∧
      v.stamp k < (newest v₀.baseTime ws d).e ∧
      ∀ x ∈ versionsOver v₀ ws, x.dst = d → v.stamp k ≤ x.time.e := by
  obtain ⟨cs, hcs⟩ : ∃ cs, View.sortedAt S v k d = cs ++ [c] :=
    ⟨_, (List.dropLast_append_getLast? c hc).symm⟩
  have hcmem : c ∈ View.sortedAt S v k d := by simp [hcs]
  have hsorted : ∀ a ∈ cs, a.old ≤ c.old := by
    have hp : (View.sortedAt S v k d).Pairwise fun a b => a.old ≤ b.old := View.sortedAt_pairwise
    rw [hcs, List.pairwise_append] at hp
    exact fun a ha => hp.2.2 a ha c (by simp)
  have hzero : ∀ a ∈ View.sortedAt S v k d, a.old.e = 0 := by
    intro a ha
    rw [hcs] at ha
    rcases List.mem_append.mp ha with ha | ha
    · have := hsorted a ha
      simp only [Composite.le_def, Composite.lt_def] at this
      omega
    · rw [List.mem_singleton.mp ha, hz]
  have hversion : ∀ a ∈ View.sortedAt S v k d, ∃ x ∈ versionsOver v₀ ws, x.dst = d ∧
      x.time.e = v.stamp k ∧ x.old = a.old ∧ a.old = v₀.baseTime d := by
    intro a ha
    obtain ⟨x, hx, rfl, htime, he⟩ := h.mem_sortedAt_iff hlt ha
    have hold := (Version.change_eq_erase.mp he).2.2.1
    exact ⟨x, hx, rfl, htime, hold, hold ▸ (h.old_zero hx (hold ▸ hzero a ha)).1⟩
  obtain ⟨x, hx, rfl, htime, hold, hbase⟩ := hversion c hcmem
  obtain ⟨-, hmono, hnew⟩ := h.old_zero hx (hold ▸ hz)
  have hkey := (View.mem_sortedAt.mp hcmem).2
  obtain ⟨z, hzx, hzd, hzne, hnewest⟩ := hnew (hkey ▸ h.next k c (View.mem_sortedAt.mp hcmem).1 hz hn)
  refine ⟨?_, ?_, fun y hy hd => htime ▸ hmono y hy hd⟩
  · -- a second first insertion would have the same predecessor
    cases cs with
    | nil => exact hcs
    | cons a cs =>
      have hp : (View.sortedAt S v k x.dst).Perm _ := View.sortedAt_perm
      have hne := hp.symm.pairwise (h.pairwise_slot hlt x.dst) fun h => h.symm
      have ha : a ∈ View.sortedAt S v k x.dst := by simp [hcs]
      obtain ⟨-, -, -, -, -, hab⟩ := hversion a ha
      rw [hcs, List.cons_append, List.pairwise_cons] at hne
      exact absurd (hab.trans hbase.symm) (hne.1 c (by simp))
  · rw [hnewest]
    refine lt_of_le_of_ne (htime ▸ hmono z hzx hzd) fun heq => hzne ?_
    have hmem : z.change ∈ (View.sortedAt S v k x.dst).map Change.erase := by
      rw [h.sortedAt_eq hlt, (View.sorted_perm _ _).mem_iff]
      exact mem_changesOf.mpr ⟨z, hzx, hzd, heq.symm, rfl⟩
    obtain ⟨a, ha, he⟩ := List.mem_map.mp hmem
    have := (Version.change_eq_erase.mp he.symm).2.2.1
    rw [this]
    exact hzero a ha

include hasc in
/-- The head of a destination after Transform of the oldest pending epoch. -/
theorem head_published {d : Nat} {g₀ g : Head} (hg₀ : v.head d = some g₀)
    (hg : (View.publishAll S k v).head d = some g) :
    (g.pending = false → g.time =
      (published (versionsOver v₀ ws) d (v₀.baseVersion d) (v.stamp k)).1) ∧
    (g.pending = true → v.stamp k < g.time.e ∧ g₀.pending = true ∧ g₀.time = g.time ∧
      g₀.index = g.index) ∧
    ((v₀.head d ≠ none ∨ ∃ x ∈ versionsOver v₀ ws, x.dst = d ∧ x.time.e ≤ v.stamp k) →
      g.weight = (published (versionsOver v₀ ws) d (v₀.baseVersion d) (v.stamp k)).2) := by
  have hpend : g.pending = true → g₀.pending = true ∧ g₀.time = g.time ∧ g₀.index = g.index := by
    intro hp
    obtain ⟨g', hg', h1, h2, h3⟩ := View.publishAll_pending hg hp
    obtain rfl : g₀ = g' := Option.some.inj (hg₀.symm.trans hg')
    exact ⟨h1, h2, h3⟩
  by_cases hex : ∃ x ∈ versionsOver v₀ ws, x.dst = d ∧ x.time.e = v.stamp k
  · obtain ⟨c, hc, hpub⟩ := h.exists_last (S := S) hlt hex
    obtain ⟨⟨g', hg', -, hw⟩, -⟩ := View.publishAll_outcome (S := S) (d := d)
      (fun c hc => h.isDelete_edge hc) hg₀ (h.live d g₀ hg₀) (fun c hc => h.old_lt hc)
      (h.pairwise_slot hlt d)
    obtain rfl : g = g' := Option.some.inj (hg.symm.trans hg')
    have hweight : g.weight = c.weight := by
      rw [hw, outcome_weight, h.changes_at hlt, ← h.sortedAt_eq (S := S) hlt, List.getLast?_map, hc]
      rfl
    rw [hpub]
    refine ⟨fun hp => ?_, fun hp => ?_, fun _ => hweight⟩
    · by_cases hor : c.old.e ≠ 0 ∨ c.next = 0
      · exact (View.publishAll_time (fun c hc => h.isDelete_edge hc) hc hor hg).1
      · -- the head was pending, and the scan of the epoch left it so
        simp only [not_or, not_not] at hor
        obtain ⟨hs, -, hall⟩ := h.kept hlt hc hor.1 hor.2
        have hwait := h.waiting d g₀ hg₀ (hex.imp fun x hx => ⟨hx.1, hx.2.1⟩) fun x hx hd =>
          hlt.trans_le (hall x hx hd)
        have := (View.publishAll_kept (fun c hc => h.isDelete_edge hc) hs hor.1 hor.2 hg₀ hg).2
        rw [hp, hwait] at this
        cases this
    · refine ⟨?_, hpend hp⟩
      by_cases hor : c.old.e ≠ 0 ∨ c.next = 0
      · have := (View.publishAll_time (fun c hc => h.isDelete_edge hc) hc hor hg).2
        rw [hp] at this
        cases this
      · simp only [not_or, not_not] at hor
        obtain ⟨-, hnew, -⟩ := h.kept hlt hc hor.1 hor.2
        obtain ⟨h1, h2, -⟩ := hpend hp
        rw [← h2, (h.pending d g₀ hg₀ h1).2.1]
        exact hnew
  · have hsame := h.head_untouched (S := S) hex
    rw [hg₀, hg] at hsame
    obtain rfl := Option.some.inj hsame
    rw [h.published_untouched hasc hlt hex]
    refine ⟨h.time d g hg₀, fun hp => ⟨?_, hp, rfl, rfl⟩, fun hor => h.weight d g hg₀ ?_⟩
    · obtain ⟨h1, hnew, c, hc, hkey⟩ := h.pending d g hg₀ hp
      obtain ⟨x, hx, -, -, -, hdst⟩ := h.version_of_mem (List.mem_of_getElem? hc)
      obtain ⟨z, hz, hzd, hzt⟩ := newest_mem ⟨x, hx, hdst.trans hkey⟩
      rw [hnew, ← hzt] at h1 ⊢
      rcases h.gap hasc hz with hle | hge
      · exact absurd h1 (not_lt.mpr hle)
      · exact lt_of_le_of_ne hge fun heq => hex ⟨z, hz, hzd, heq.symm⟩
    · refine hor.imp_right fun ⟨x, hx, hd, hle⟩ => ⟨x, hx, hd, ?_⟩
      rcases h.gap hasc hx with hle' | hge
      · exact hle'
      · exact absurd ⟨x, hx, hd, le_antisymm hle hge⟩ hex

omit hlt in
/-- The first entries of a destination need no published weight. -/
theorem outcome_fresh {d : Nat} (hbase : v₀.head d = none)
    (hfirst : ∀ x ∈ versionsOver v₀ ws, x.dst = d → v.stamp k ≤ x.time.e) (m n : Nat) :
    (outcome m (changesOf (versionsOver v₀ ws) d (v.stamp k))).2 =
      (outcome n (changesOf (versionsOver v₀ ws) d (v.stamp k))).2 := by
  unfold outcome
  cases hs : View.sorted .stable (changesOf (versionsOver v₀ ws) d (v.stamp k)) with
  | nil => rfl
  | cons a cs =>
    have hp := View.sorted_perm .stable (changesOf (versionsOver v₀ ws) d (v.stamp k))
    have hsort := View.sorted_pairwise .stable (changesOf (versionsOver v₀ ws) d (v.stamp k))
    rw [hs] at hp hsort
    obtain ⟨y, hy, hyd, htime, -⟩ := mem_changesOf.mp (hp.mem_iff.mp (by simp : a ∈ a :: cs))
    obtain ⟨x, hx, hxd, hold⟩ := exists_first (d := d) ⟨y, hy, hyd⟩
    have hzero : x.old = ⟨0, 0⟩ := by simp [hold, View.baseTime, hbase, View.lastTime]
    obtain ⟨-, hmono, -⟩ := h.old_zero hx (by rw [hzero])
    have hle := hmono y hy (hyd.trans hxd.symm)
    have hxc : x.change ∈ a :: cs := hp.mem_iff.mpr
      (mem_changesOf.mpr ⟨x, hx, hxd, le_antisymm (htime ▸ hle) (hfirst x hx hxd), rfl⟩)
    have ha : a.old.e = 0 := by
      have hxold : x.change.old.e = 0 := congrArg Composite.e hzero
      rcases List.mem_cons.mp hxc with heq | hmem
      · rw [← heq]
        exact hxold
      · have := (List.pairwise_cons.mp hsort).1 _ hmem
        simp only [Composite.le_def, Composite.lt_def] at this
        omega
    rw [List.foldl_cons, List.foldl_cons, publishStep, publishStep, if_pos ha, if_pos ha]

include hasc in
theorem publishes (vb : Nat) (edgeNum : Int) (lastEpoch : Nat) :
    Publishes v₀ (versionsOver v₀ ws)
      ⟨vb, v.stamp k, lastEpoch, edgeNum, (View.publishAll S k v).records⟩ := by
  have hlive : ∀ c ∈ v.changes k, isDelete c.edge = false := fun c hc => h.isDelete_edge hc
  have hold : ∀ c ∈ v.changes k, c.old.e < 2 ^ 31 := fun c hc => h.old_lt hc
  obtain ⟨hmem, hsorted⟩ := View.publishAll_sorted (S := S) hlive hold
  refine ⟨h.le_end.trans_lt hlt, fun r hr => ?_, hsorted, fun d => ?_⟩
  · obtain ⟨c, hc, -, he⟩ := hmem r hr
    rw [he]
    exact hold c hc
  · cases hd : v.head d with
    | none =>
      obtain ⟨-, hall⟩ := h.absent d hd
      have hcs : changesOf (versionsOver v₀ ws) d (v.stamp k) = [] :=
        changesOf_eq_nil.mpr fun x hx hxd => absurd hxd (hall x hx)
      have hrs : (View.publishAll S k v).records.filter (fun r => r.1.key = d) = [] := by
        refine List.filter_eq_nil_iff.mpr fun r hr hk => ?_
        obtain ⟨c, hc, -, he⟩ := hmem r hr
        obtain ⟨x, hx, -, -, -, hdst⟩ := h.version_of_mem hc
        have hkey : r.1.key = c.key := by
          rw [he]
          exact clearDelete_clearDelete _
        exact hall x hx (hdst.trans (hkey.symm.trans (of_decide_eq_true hk)))
      rw [hrs, hcs, outcome, sorted_nil]
      rfl
    | some g =>
      obtain ⟨-, hrec⟩ := View.publishAll_outcome (S := S) (d := d) hlive hd (h.live d g hd) hold
        (h.pairwise_slot hlt d)
      rw [hrec, h.changes_at hlt]
      by_cases hor : v₀.head d ≠ none ∨
          ∃ x ∈ versionsOver v₀ ws, x.dst = d ∧ x.time.e ≤ v.vbm.endEpoch
      · have hsame : published (versionsOver v₀ ws) d (v₀.baseVersion d) (v.stamp k - 1) =
            published (versionsOver v₀ ws) d (v₀.baseVersion d) v.vbm.endEpoch := by
          refine published_eq_of_gap (by omega) fun x hx _ => ?_
          rcases h.gap hasc hx with hle | hge
          · exact Or.inl hle
          · exact Or.inr (by omega)
        rw [h.weight d g hd hor, ← hsame]
      · simp only [not_or, not_not, not_exists, not_and, not_le] at hor
        refine h.outcome_fresh hor.1 (fun x hx hd => ?_) _ _
        rcases h.gap hasc hx with hle | hge
        · exact absurd hle (not_le.mpr (hor.2 x hx hd))
        · exact hge

end Transform

/-- Transform of the oldest pending epoch. -/
theorem transform (h : Pipe v₀ ws v) (S : StdSort) (k vb : Nat)
    (hasc : ∀ j, v.changes j ≠ [] → v.stamp k ≤ v.stamp j) :
    Pipe v₀ ws (v.transform S k vb) := by
  by_cases hnil : v.changes k = []
  · rw [View.transform, if_pos hnil]
    exact h
  obtain ⟨c₀, hc₀⟩ := List.exists_mem_of_ne_nil _ hnil
  obtain ⟨-, -, -, -, hlt, -⟩ := h.version_of_mem hc₀
  have hslot : v.stamp k % 16 = k := (h.slot k).resolve_left (by omega)
  set u := v.transform S k vb with hu
  have hend : u.vbm.endEpoch = v.stamp k := by
    rw [hu, View.transform, if_neg hnil]
    rfl
  have hvbs : u.vbm.vbs = ⟨vb, v.stamp k, v.vbm.endEpoch, (View.publishAll S k v).edgeNum,
      (View.publishAll S k v).records⟩ :: v.vbm.vbs := by
    rw [hu, View.transform, if_neg hnil]
    rfl
  have hstamps : u.stamp = v.stamp := by rw [hu, View.transform, if_neg hnil]
  have hchanges : u.changes = Function.update v.changes k [] := by
    rw [hu, View.transform, if_neg hnil]
  have hhead : u.head = (View.publishAll S k v).head := by rw [hu, View.transform, if_neg hnil]
  have hlive : ∀ c ∈ v.changes k, isDelete c.edge = false := fun c hc => h.isDelete_edge hc
  have hof : ∀ d g, u.head d = some g → ∃ g₀, v.head d = some g₀ := by
    intro d g hg
    rw [hhead] at hg
    cases hd : v.head d with
    | some g₀ => exact ⟨g₀, rfl⟩
    | none =>
      have hno : ¬∃ x ∈ versionsOver v₀ ws, x.dst = d ∧ x.time.e = v.stamp k :=
        fun ⟨x, hx, hxd, _⟩ => (h.absent d hd).2 x hx hxd
      rw [h.head_untouched hno, hd] at hg
      cases hg
  constructor
  case base => exact h.base
  case live =>
    intro d g hg
    obtain ⟨g₀, hg₀⟩ := hof d g hg
    obtain ⟨⟨g', hg', hdel, -⟩, -⟩ := View.publishAll_outcome (S := S) (d := d) hlive hg₀
      (h.live d g₀ hg₀) (fun c hc => h.old_lt hc) (h.pairwise_slot hlt d)
    rw [hhead] at hg
    obtain rfl := Option.some.inj (hg.symm.trans hg')
    exact hdel
  case slot => unfold View.Slotted; rw [hstamps]; exact h.slot
  case stamp_lt => rw [hstamps]; exact h.stamp_lt
  case le_end => rw [hend]; exact h.le_end.trans hlt.le
  case dst_lt => exact h.dst_lt
  case later => exact h.later
  case nodup => exact h.nodup
  case buffered =>
    intro j
    rw [hchanges, hstamps, hend]
    by_cases hj : j = k
    · subst hj
      simp
    · rw [Function.update_of_ne hj, h.buffered]
      refine congrArg _ (List.filter_congr fun x hx => ?_)
      simp only [decide_eq_decide]
      constructor
      · rintro ⟨htime, hpos⟩
        rcases h.gap hasc hx with hle | hge
        · omega
        · refine ⟨htime, lt_of_le_of_ne (htime ▸ hge) fun heq => hj ?_⟩
          have := (h.slot j).resolve_left (by omega)
          rw [← this, ← heq, hslot]
      · rintro ⟨htime, hpos⟩
        exact ⟨htime, hlt.trans hpos⟩
  case owned =>
    intro x hx hxlt
    rw [hend] at hxlt
    rw [hstamps]
    exact h.owned x hx (hlt.trans hxlt)
  case next =>
    intro j c hc
    rw [hchanges] at hc
    by_cases hj : j = k
    · subst hj
      simp at hc
    · rw [Function.update_of_ne hj] at hc
      exact h.next j c hc
  case absent =>
    intro d hd
    rw [hhead] at hd
    refine h.absent d ?_
    cases hg : v.head d with
    | none => rfl
    | some g₀ =>
      obtain ⟨⟨g', hg', -⟩, -⟩ := View.publishAll_outcome (S := S) (d := d) hlive hg
        (h.live d g₀ hg) (fun c hc => h.old_lt hc) (h.pairwise_slot hlt d)
      rw [hd] at hg'
      cases hg'
  case present =>
    intro d g hg
    obtain ⟨g₀, hg₀⟩ := hof d g hg
    exact h.present d g₀ hg₀
  case pending =>
    intro d g hg hp
    obtain ⟨g₀, hg₀⟩ := hof d g hg
    rw [hhead] at hg
    obtain ⟨-, hpend, -⟩ := h.head_published hlt hasc hg₀ hg
    obtain ⟨hgt, hp₀, htime, hidx⟩ := hpend hp
    obtain ⟨-, hnew, c, hc, hkey⟩ := h.pending d g₀ hg₀ hp₀
    rw [htime] at hnew hc
    refine ⟨by rw [hend]; exact hgt, hnew, c, ?_, hkey⟩
    rw [hchanges, Function.update_of_ne, ← hidx]
    · exact hc
    · -- the newest version has a slot of its own
      obtain ⟨x, hx, -, -, -, hdst⟩ := h.version_of_mem (List.mem_of_getElem? hc)
      obtain ⟨z, hz, hzd, hzt⟩ := newest_mem ⟨x, hx, hdst.trans hkey⟩
      have hown := h.owned z hz (by rw [hzt, ← hnew]; exact hlt.trans hgt)
      rw [hzt, ← hnew] at hown
      intro heq
      rw [heq] at hown
      omega
  case waiting =>
    intro d g hg hex hall
    rw [hend] at hall
    have hno : ¬∃ x ∈ versionsOver v₀ ws, x.dst = d ∧ x.time.e = v.stamp k :=
      fun ⟨x, hx, hxd, he⟩ => by
        have := hall x hx hxd
        omega
    rw [hhead, h.head_untouched hno] at hg
    exact h.waiting d g hg hex fun x hx hd => hlt.trans (hall x hx hd)
  case time =>
    intro d g hg hp
    obtain ⟨g₀, hg₀⟩ := hof d g hg
    rw [hhead] at hg
    rw [hend]
    exact (h.head_published hlt hasc hg₀ hg).1 hp
  case weight =>
    intro d g hg hor
    obtain ⟨g₀, hg₀⟩ := hof d g hg
    rw [hhead] at hg
    rw [hend] at hor ⊢
    exact (h.head_published hlt hasc hg₀ hg).2.2 hor
  case linked =>
    rw [hend, hvbs]
    exact ⟨rfl, hlt, h.linked⟩
  case blocks =>
    obtain ⟨vbs, heq, hall⟩ := h.blocks
    refine ⟨_ :: vbs, by rw [hvbs, heq]; rfl, fun b hb => ?_⟩
    rcases List.mem_cons.mp hb with rfl | hb
    · exact h.publishes hlt hasc vb _ _
    · exact hall b hb
  case complete =>
    intro x hx hle
    rw [hend] at hle
    rw [hvbs]
    rcases h.gap hasc hx with hle' | hge
    · obtain ⟨b, hb, hts⟩ := h.complete x hx hle'
      exact ⟨b, by simp [hb], hts⟩
    · exact ⟨_, List.mem_cons_self, le_antisymm hge hle⟩

/-- One insertion of a run. -/
theorem insert {v₀ : View} {S : StdSort} {h h' : History} {env : Env} {w : Write}
    (hwf : h.state.Wf) (hp : Pipe v₀ h.accepted h.state.view)
    (hlook : (h.state.prepare S env).LookupRight w.dst)
    (hstep : h.step .fineGrain S (.insert env w) = some h')
    (hlt : h.state.view.vbm.endEpoch < w.epoch)
    (hfree : h.state.view.changes (w.epoch % 16) = [] ∨
      h.state.view.stamp (w.epoch % 16) = w.epoch)
    (hroom : ∀ k, (h.state.view.changes k).length ≤ 2 ^ 32 - 1)
    (hnew : h'.accepted ≠ h.accepted →
      View.lastTime (h.state.view.head w.dst) = newest v₀.baseTime h.accepted w.dst ∧
      ∀ x ∈ versionsOver v₀ h.accepted, x.dst = w.dst → x.time ≠ w.time) :
    h'.state.Wf ∧ Pipe v₀ h'.accepted h'.state.view := by
  obtain ⟨hwf', ⟨-, hacc, hview⟩ | ⟨hc, hacc, unset, hview⟩⟩ :=
    History.insert_cases hwf hp.live hlook hstep
  · rw [hacc, hview]
    exact ⟨hwf', hp.openTvb hlt w.epoch_lt hfree⟩
  · obtain ⟨hnew, hdist⟩ := hnew (by simp [hacc])
    have hle : (View.lastTime (h.state.view.head w.dst)).e ≤ w.epoch := by
      simp only [conflicts, Bool.or_eq_false_iff, decide_eq_false_iff_not, not_lt] at hc
      exact hc.2
    have hopen := hp.openTvb hlt w.epoch_lt hfree
    have hchanges : ∀ k, ((h.state.view.openTvb w.epoch).changes k).length ≤ 2 ^ 32 - 1 := by
      rw [View.changes_openTvb_of_free hfree]
      exact hroom
    have hend := h.state.view.endEpoch_openTvb w.epoch
    have hhead := h.state.view.head_openTvb w.epoch
    have hw := hopen.write (w := w) (by rw [hend]; exact hlt) (by rw [View.stamp_openTvb, if_pos rfl])
      (by rw [hhead]; exact hnew) (by rw [hhead]; exact hle) hdist hchanges unset
    rw [hhead] at hw
    rw [hacc, hview]
    exact ⟨hwf', hw⟩

end Pipe

end AVBGraph
