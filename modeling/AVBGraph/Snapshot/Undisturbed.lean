import AVBGraph.Snapshot.Sequential

namespace AVBGraph

open Framework

namespace View

/-- Every edge has a published version and no epoch is pending; an open TmpVersionBlock is marked
active. -/
structure Published (v : View) : Prop where
  live : v.Live
  head : ∀ d h, v.head d = some h → 0 < h.time.e ∧ h.time.e ≤ v.vbm.endEpoch
  empty : ∀ k, v.changes k = []
  opened : ∀ k, v.vbm.endEpoch < v.stamp k → v.vbm.activeTvbMask k = true

/-- A vertex with overwrites of one epoch over the published state `v₀`. -/
structure Overwritten (v₀ : View) (epoch : Nat) (ws : List Write) (v : View) : Prop where
  base : v₀.Published
  live : v.Live
  endEpoch : v.vbm.endEpoch = v₀.vbm.endEpoch
  known : ∀ w ∈ ws, v₀.head w.dst ≠ none
  same : ∀ w ∈ ws, w.epoch = epoch
  rising : (ws.map fun w => w.txn.intra).Pairwise (· < ·)
  head : ∀ d, (v.head d).map Head.time = (v₀.head d).map fun _ => newest v₀.baseTime ws d
  entries : (v.changes (epoch % 16)).map Change.erase = (versionsOver v₀ ws).map Version.change
  empty : ∀ k, k ≠ epoch % 16 → v.changes k = []
  stamp : ws ≠ [] → v.stamp (epoch % 16) = epoch
  opened : ∀ k, v.vbm.endEpoch < v.stamp k → v.vbm.activeTvbMask k = true

/-- A reader of the epoch sees the version that the entry replaced. -/
def shows (readTs : Composite) (epoch : Nat) (c : Change) : Bool :=
  c.old < readTs ∧ readTs ≤ ⟨epoch, c.intra⟩

theorem activeTvbMask_openTvb (v : View) (epoch k : Nat) : (v.openTvb epoch).vbm.activeTvbMask k =
    if k = epoch % 16 ∧ v.stamp k ≠ epoch then true else v.vbm.activeTvbMask k := by
  unfold openTvb
  by_cases hk : k = epoch % 16
  · subst hk
    by_cases h : v.stamp (epoch % 16) = epoch
    · simp [h]
    · simp [h, VersionBlockManager.markTvbActive]
  · by_cases h : v.stamp (epoch % 16) = epoch
    · simp [h, hk]
    · simp [h, hk, VersionBlockManager.markTvbActive]

namespace Overwritten

variable {v₀ v : View} {epoch : Nat} {ws : List Write} {w : Write}

theorem start (h : v₀.Published) (epoch : Nat) : Overwritten v₀ epoch [] v₀ where
  base := h
  live := h.live
  endEpoch := rfl
  known := by simp
  same := by simp
  rising := List.Pairwise.nil
  head d := by
    cases hd : v₀.head d with
    | none => rfl
    | some g => simp [newest, baseTime, hd, lastTime, h.live d g hd]
  entries := by simp [h.empty, versionsOver, versionsFrom]
  empty k _ := h.empty k
  stamp := by simp
  opened := h.opened

theorem openTvb (h : Overwritten v₀ epoch ws v) : Overwritten v₀ epoch ws (v.openTvb epoch) := by
  have hend := v.endEpoch_openTvb epoch
  -- a slot of another epoch holds nothing
  have hfree : v.changes (epoch % 16) = [] ∨ v.stamp (epoch % 16) = epoch := by
    by_cases hws : ws = []
    · have he := h.entries
      rw [hws] at he
      exact Or.inl (List.map_eq_nil_iff.mp he)
    · exact Or.inr (h.stamp hws)
  have hchanges := changes_openTvb_of_free hfree
  refine ⟨h.base, ?_, hend.trans h.endEpoch, h.known, h.same, h.rising, ?_, ?_, ?_, ?_, ?_⟩
  · unfold Live
    rw [head_openTvb]
    exact h.live
  · rw [head_openTvb]
    exact h.head
  · rw [hchanges]
    exact h.entries
  · intro k hk
    rw [hchanges]
    exact h.empty k hk
  · intro _
    rw [stamp_openTvb, if_pos rfl]
  · intro k hk
    rw [hend, stamp_openTvb] at hk
    rw [activeTvbMask_openTvb]
    by_cases hke : k = epoch % 16
    · rw [if_pos hke] at hk
      by_cases hs : v.stamp k = epoch
      · rw [if_neg fun hc => hc.2 hs]
        exact h.opened k (hs ▸ hk)
      · rw [if_pos ⟨hke, hs⟩]
    · rw [if_neg hke] at hk
      rw [if_neg fun hc => hke hc.1]
      exact h.opened k hk

/-- The replaced version is the newest one. -/
theorem lastTime_eq (h : Overwritten v₀ epoch ws v) {d : Nat} (hd : v₀.head d ≠ none) :
    lastTime (v.head d) = newest v₀.baseTime ws d := by
  have hh := h.head d
  cases hv : v.head d with
  | none =>
    rw [hv] at hh
    exact absurd (Option.map_eq_none_iff.mp hh.symm) hd
  | some g =>
    obtain ⟨g₀, hg₀⟩ := Option.ne_none_iff_exists'.mp hd
    rw [hv, hg₀] at hh
    have ht : g.time = newest v₀.baseTime ws d := Option.some.inj hh
    simp [lastTime, h.live d g hv, ht]

/-- An accepted overwrite. -/
theorem write (h : Overwritten v₀ epoch ws v) (hw : w.epoch = epoch)
    (hstamp : v.stamp (epoch % 16) = epoch) (hd : v₀.head w.dst ≠ none)
    (hlater : ∀ u ∈ ws, u.txn.intra < w.txn.intra) (pending : Bool) (lastIndex weight : Nat) :
    Overwritten v₀ epoch (ws ++ [w])
      (v.addVersion false pending (lastTime (v.head w.dst)) lastIndex weight w) := by
  have hvbm : (v.addVersion false pending (lastTime (v.head w.dst)) lastIndex weight w).vbm = v.vbm :=
    vbm_addVersion
  have hstamps : (v.addVersion false pending (lastTime (v.head w.dst)) lastIndex weight w).stamp =
      v.stamp := stamp_addVersion
  refine ⟨h.base, ?_, by rw [hvbm]; exact h.endEpoch, ?_, ?_, ?_, ?_, ?_, ?_, ?_, ?_⟩
  · intro d g hg
    rw [head_addVersion] at hg
    by_cases hdw : d = w.dst
    · subst hdw
      rw [Function.update_self] at hg
      rw [← Option.some.inj hg]
    · rw [Function.update_of_ne hdw] at hg
      exact h.live d g hg
  · intro u hu
    rcases List.mem_append.mp hu with hu | hu
    · exact h.known u hu
    · rw [List.mem_singleton.mp hu]
      exact hd
  · intro u hu
    rcases List.mem_append.mp hu with hu | hu
    · exact h.same u hu
    · rw [List.mem_singleton.mp hu]
      exact hw
  · rw [List.map_append, List.pairwise_append]
    refine ⟨h.rising, List.pairwise_singleton _ _, fun i hi j hj => ?_⟩
    obtain ⟨u, hu, rfl⟩ := List.mem_map.mp hi
    rw [List.map_singleton, List.mem_singleton] at hj
    rw [hj]
    exact hlater u hu
  · intro d
    rw [head_addVersion, newest_concat]
    by_cases hdw : d = w.dst
    · subst hdw
      obtain ⟨g₀, hg₀⟩ := Option.ne_none_iff_exists'.mp hd
      rw [Function.update_self, Function.update_self, hg₀]
      rfl
    · rw [Function.update_of_ne hdw, Function.update_of_ne hdw]
      exact h.head d
  · rw [addVersion_erase, if_pos (by rw [hw]), h.entries, Pipe.versionsOver_concat, List.map_append,
      h.lastTime_eq hd]
    rfl
  · intro k hk
    have he := @addVersion_erase v w false pending (lastTime (v.head w.dst)) lastIndex weight k
    rw [h.empty k hk, if_neg (by rw [hw]; exact hk)] at he
    exact List.map_eq_nil_iff.mp he
  · intro _
    rw [hstamps]
    exact hstamp
  · rw [hvbm, hstamps]
    exact h.opened

section Entries

/-- What a destination's writes replaced, oldest first, and its newest version. -/
theorem chain (h : Overwritten v₀ epoch ws v) (hlt : v₀.vbm.endEpoch < epoch) (d : Nat) :
    (v₀.baseTime d :: ((versionsOver v₀ ws).filter fun x => x.dst = d).map Version.time).Pairwise
      (· < ·) := by
  rw [versionsOver_timesAt]
  apply List.pairwise_cons.mpr
  constructor
  · intro t ht
    obtain ⟨u, hu, rfl⟩ := List.mem_map.mp ht
    have hue := h.same u (List.mem_filter.mp hu).1
    left
    show (v₀.baseTime d).e < u.epoch
    rw [hue]
    apply lt_of_le_of_lt _ hlt
    unfold baseTime lastTime
    cases hd : v₀.head d with
    | none => exact Nat.zero_le _
    | some g => simpa [h.base.live d g hd] using (h.base.head d g hd).2
  · rw [List.pairwise_map]
    have hrising := h.rising
    rw [List.pairwise_map] at hrising
    refine (hrising.sublist List.filter_sublist).imp_of_mem fun {a b} ha hb hab => ?_
    have hae := h.same a (List.mem_filter.mp ha).1
    have hbe := h.same b (List.mem_filter.mp hb).1
    exact Or.inr ⟨hae.trans hbe.symm, hab⟩

/-- The entries of a destination replaced ever younger versions. -/
theorem old_rising (h : Overwritten v₀ epoch ws v) (hlt : v₀.vbm.endEpoch < epoch) (d : Nat) :
    (((versionsOver v₀ ws).filter fun x => x.dst = d).map Version.old).Pairwise (· < ·) := by
  have hchain := h.chain hlt d
  rw [versionsOver, ← old_chain] at hchain
  exact hchain.sublist (List.sublist_append_left _ _)

theorem entriesAt (h : Overwritten v₀ epoch ws v) (d : Nat) :
    ((v.changes (epoch % 16)).filter fun c => c.key = d).map Change.erase =
      ((versionsOver v₀ ws).filter fun x => x.dst = d).map Version.change := by
  have hcomm : ((v.changes (epoch % 16)).filter fun c => c.key = d).map Change.erase =
      ((v.changes (epoch % 16)).map Change.erase).filter fun c => c.key = d := by
    rw [List.filter_map]
    rfl
  rw [hcomm, h.entries, List.filter_map]
  refine congrArg _ (List.filter_congr fun x hx => ?_)
  obtain ⟨w, -, hd, -, -⟩ := mem_versionsOver hx
  have hkey : x.change.key = x.dst := Pipe.key_change (hd ▸ w.dst_lt)
  rw [Function.comp_apply, hkey]

/-- An entry is an overwrite of a version with an epoch, at its own time. -/
theorem entry (h : Overwritten v₀ epoch ws v) (hlt : v₀.vbm.endEpoch < epoch) {c : Change}
    (hc : c ∈ v.changes (epoch % 16)) :
    isDelete c.edge = false ∧ 0 < c.old.e ∧ c.old.e < 2 ^ 31 := by
  have hmem := List.mem_map_of_mem (f := Change.erase) hc
  rw [h.entries] at hmem
  obtain ⟨x, hx, he⟩ := List.mem_map.mp hmem
  obtain ⟨hedge, -, hold, -⟩ := Version.change_eq_erase.mp he
  obtain ⟨w, hw, hd, -, -⟩ := mem_versionsOver hx
  have hepoch := h.same w hw
  refine ⟨by rw [← hedge, ← hd]; exact isDelete_of_lt w.dst_lt, ?_⟩
  have hchain := old_chain v₀.baseTime ws x.dst
  have hin : x.old ∈ v₀.baseTime x.dst ::
      ((versionsOver v₀ ws).filter fun y => y.dst = x.dst).map Version.time := by
    rw [versionsOver, ← hchain]
    apply List.mem_append_left
    exact List.mem_map_of_mem (List.mem_filter.mpr ⟨hx, by simp⟩)
  rw [versionsOver_timesAt] at hin
  have hlt31 := w.epoch_lt
  rw [← hold]
  rcases List.mem_cons.mp hin with heq | hin
  · obtain ⟨g, hg⟩ := Option.ne_none_iff_exists'.mp (h.known w hw)
    rw [hd] at hg
    have hbase : x.old = g.time := by
      rw [heq]
      simp [baseTime, lastTime, hg, h.base.live _ g hg]
    obtain ⟨hpos, hle⟩ := h.base.head _ g hg
    rw [hbase]
    omega
  · obtain ⟨u, hu, heq⟩ := List.mem_map.mp hin
    have hue : x.old.e = epoch := by
      rw [← heq]
      exact h.same u (List.mem_filter.mp hu).1
    rw [hue]
    omega

theorem intra_rising (h : Overwritten v₀ epoch ws v) :
    (v.changes (epoch % 16)).Pairwise fun a b => a.intra < b.intra := by
  have hmap : (v.changes (epoch % 16)).map Change.intra = ws.map fun w => w.txn.intra := by
    have he := congrArg (List.map Change.intra) h.entries
    rw [List.map_map, List.map_map] at he
    have ht := congrArg (List.map Composite.i) (versionsOver_times v₀ ws)
    rw [List.map_map, List.map_map] at ht
    exact he.trans ht
  have hrising := h.rising
  rw [← hmap, List.pairwise_map] at hrising
  exact hrising

/-- Transform treats the entries of a destination in the order of their writes. -/
theorem sortedAt_eq (h : Overwritten v₀ epoch ws v) (hlt : v₀.vbm.endEpoch < epoch) (S : StdSort)
    (d : Nat) : (sortedAt S v (epoch % 16) d).map Change.erase =
      ((versionsOver v₀ ws).filter fun x => x.dst = d).map Version.change := by
  have hrising := h.old_rising hlt d
  have hpair : (((v.changes (epoch % 16)).filter fun c => c.key = d).map Change.erase).Pairwise
      fun a b => a.old < b.old := by
    rw [h.entriesAt, List.pairwise_map]
    rw [List.pairwise_map] at hrising
    exact hrising
  have hne : ((v.changes (epoch % 16)).filter fun c => c.key = d).Pairwise
      fun a b => a.old ≠ b.old := by
    rw [List.pairwise_map] at hpair
    exact hpair.imp fun hab => hab.ne
  rw [sortedAt_erase hne, ← h.entriesAt]
  exact eq_of_perm_of_increasing (sorted_perm _ _) (sorted_pairwise _ _) hpair

end Entries

section Transform

variable {S : StdSort} {readTs : Composite}

/-- Transform puts the newest version of every overwritten edge into its item. -/
theorem head_transform (h : Overwritten v₀ epoch ws v) (hlt : v₀.vbm.endEpoch < epoch) (d : Nat) :
    ((publishAll S (epoch % 16) v).head d).map Head.time = (v.head d).map Head.time ∧
      ∀ g, (publishAll S (epoch % 16) v).head d = some g → g.deleted = false := by
  have hdel : ∀ c ∈ v.changes (epoch % 16), isDelete c.edge = false := fun c hc => (h.entry hlt hc).1
  cases hs : (sortedAt S v (epoch % 16) d).getLast? with
  | none =>
    have hnil : sortedAt S v (epoch % 16) d = [] := List.getLast?_eq_none_iff.mp hs
    have hkey : ∀ c ∈ v.changes (epoch % 16), c.key ≠ d := by
      intro c hc hd
      have hmem : c ∈ sortedAt S v (epoch % 16) d := mem_sortedAt.mpr ⟨hc, hd⟩
      rw [hnil] at hmem
      cases hmem
    rw [publishAll_untouched hkey]
    exact ⟨rfl, h.live d⟩
  | some c =>
    have hlast := congrArg List.getLast? (h.sortedAt_eq hlt S d)
    rw [List.getLast?_map, List.getLast?_map, hs] at hlast
    obtain ⟨x, hx, hxc⟩ := Option.map_eq_some_iff.mp hlast.symm
    obtain ⟨-, -, -, hintra⟩ := Version.change_eq_erase.mp hxc
    -- the last entry is the newest version
    have htimes := congrArg List.getLast? (versionsOver_timesAt v₀ ws d)
    rw [List.getLast?_map, List.getLast?_map, hx] at htimes
    obtain ⟨w, hw, hwx⟩ := Option.map_eq_some_iff.mp htimes.symm
    obtain ⟨hmem, hwd⟩ := List.mem_filter.mp (List.mem_of_getLast? hw)
    have hne : ws ≠ [] := List.ne_nil_of_mem hmem
    have hnew : newest v₀.baseTime ws d = ⟨epoch, c.intra⟩ := by
      rw [newest_eq_last, hw, Option.elim_some, hwx]
      have he : x.time.e = epoch := by
        rw [← hwx]
        exact h.same w hmem
      exact Composite.ext he hintra
    obtain ⟨hc, hcd⟩ := mem_sortedAt.mp (List.mem_of_getLast? hs)
    have hold : ∀ c ∈ v.changes (epoch % 16), c.old.e < 2 ^ 31 := fun c hc => (h.entry hlt hc).2.2
    obtain ⟨g, hg⟩ : ∃ g, v.head d = some g := by
      have hknown := h.known w hmem
      rw [of_decide_eq_true hwd] at hknown
      obtain ⟨g₀, hg₀⟩ := Option.ne_none_iff_exists'.mp hknown
      have hh := h.head d
      rw [hg₀] at hh
      obtain ⟨g, hg, -⟩ := Option.map_eq_some_iff.mp hh
      exact ⟨g, hg⟩
    have hdist : ((v.changes (epoch % 16)).filter fun c => c.key = d).Pairwise
        fun a b => a.old ≠ b.old := by
      have hp : (((v.changes (epoch % 16)).filter fun c => c.key = d).map Change.erase).Pairwise
          fun a b => a.old ≠ b.old := by
        have hrising := h.old_rising hlt d
        rw [List.pairwise_map] at hrising
        rw [h.entriesAt, List.pairwise_map]
        exact hrising.imp fun hab => hab.ne
      rwa [List.pairwise_map] at hp
    obtain ⟨⟨g', hg', hlive, -⟩, -⟩ := publishAll_outcome (S := S) hdel hg (h.live d g hg) hold hdist
    obtain ⟨htime, -⟩ := publishAll_time hdel hs (Or.inl (h.entry hlt hc).2.1.ne') hg'
    have hnow : g.time = newest v₀.baseTime ws d := by
      have hl := h.lastTime_eq (d := d) (by
        have hknown := h.known w hmem
        rwa [of_decide_eq_true hwd] at hknown)
      rw [hg] at hl
      simpa [lastTime, h.live d g hg] using hl
    rw [hg', hg]
    constructor
    · rw [Option.map_some, Option.map_some, htime, hnow, hnew, h.stamp hne]
    · intro f hf
      rw [← Option.some.inj hf]
      exact hlive

theorem length_visible {v : View} (hlive : v.Live) (d : Nat) :
    (((v.head d).filter (Head.visible readTs)).toList.map Head.weight).length =
      (((v.head d).map Head.time).filter fun t => t < readTs).toList.length := by
  rw [List.length_map]
  cases hd : v.head d with
  | none => rfl
  | some g =>
    have hvis : Head.visible readTs g = decide (g.time < readTs) := by
      simp [Head.visible, hlive d g hd]
    simp only [Option.map_some, Option.filter_some, hvis]
    split_ifs <;> rfl

/-- A backward scan over entries with rising intra timestamps misses nothing. -/
theorem scanChanges_eq {cs : List Change} (timestamp : Nat)
    (hdel : ∀ c ∈ cs, isDelete c.edge = false) (hdesc : cs.Pairwise fun a b => b.intra < a.intra) :
    scanChanges readTs timestamp cs = cs.filter (shows readTs timestamp) := by
  induction cs with
  | nil => rfl
  | cons c cs ih =>
    obtain ⟨hc, hcs⟩ := List.pairwise_cons.mp hdesc
    have hrest := ih (fun x hx => hdel x (by simp [hx])) hcs
    have hd : ¬isDelete c.edge = true := by simp [hdel c (by simp)]
    rw [scanChanges, if_neg hd, hrest]
    by_cases hle : readTs ≤ ⟨timestamp, c.intra⟩
    · rw [if_pos hle]
      by_cases hold : c.old < readTs
      · rw [if_pos hold, List.filter_cons_of_pos (by simp [shows, hold, hle])]
      · rw [if_neg hold, List.filter_cons_of_neg (by simp [shows, hold])]
    · rw [if_neg hle, List.filter_cons_of_neg (by simp [shows, hle])]
      symm
      apply List.filter_eq_nil_iff.mpr
      intro x hx
      have hlt : (⟨timestamp, x.intra⟩ : Composite) < ⟨timestamp, c.intra⟩ :=
        Or.inr ⟨rfl, hc x hx⟩
      have hno : ¬readTs ≤ ⟨timestamp, x.intra⟩ := fun hx => hle (hx.trans hlt.le)
      simp [shows, hno]

/-- Before Transform a reader of the epoch gets the entries that it may see from the
TmpVersionBlock. -/
theorem length_emitted (h : Overwritten v₀ epoch ws v) (hlt : v₀.vbm.endEpoch < epoch)
    (he : readTs.e = epoch) (d : Nat) : (v.emitted readTs d).length =
      (((v.head d).map Head.time).filter fun t => t < readTs).toList.length +
        (((v.changes (epoch % 16)).filter (shows readTs epoch)).map Change.key).count d := by
  have hchain : v.chainScan readTs = [] := by
    rw [chainScan, if_neg]
    rw [h.endEpoch, he]
    omega
  have hscan : v.scanTvbs readTs =
      ((v.changes (epoch % 16)).filter (shows readTs epoch)).reverse := by
    by_cases hne : ws = []
    · have hnil : ∀ k, v.changes k = [] := by
        intro k
        by_cases hk : k = epoch % 16
        · have hent := h.entries
          rw [hne] at hent
          rw [hk]
          exact List.map_eq_nil_iff.mp hent
        · exact h.empty k hk
      rw [hnil, scanTvbs, List.filter_nil, List.reverse_nil, List.flatMap_eq_nil_iff]
      intro k _
      rw [hnil]
      split_ifs <;> rfl
    · have hst := h.stamp hne
      have hmask : v.vbm.activeTvbMask (epoch % 16) = true := by
        apply h.opened
        rw [hst, h.endEpoch]
        exact hlt
      rw [scanTvbs, flatMap_single (a := epoch % 16) List.nodup_range
        (List.mem_range.mpr (Nat.mod_lt _ (by decide))), if_pos hmask, hst, scanChanges_eq,
        List.filter_reverse]
      · intro c hc
        exact (h.entry hlt (List.mem_reverse.mp hc)).1
      · exact List.pairwise_reverse.mpr h.intra_rising
      · intro k _ hk
        rw [h.empty k hk]
        split_ifs <;> rfl
  rw [emitted, hchain, hscan, List.length_append, List.length_append, length_visible h.live,
    List.length_map, List.filter_nil, List.map_nil, List.length_nil, Nat.add_zero,
    List.filter_reverse, List.length_reverse, List.count_eq_countP, List.countP_map,
    List.countP_eq_length_filter]
  rfl

/-- After Transform it gets a prefix of them, in the order of the version block. -/
theorem length_emitted_transform (h : Overwritten v₀ epoch ws v) (hlt : v₀.vbm.endEpoch < epoch)
    (he : readTs.e = epoch) (vb d : Nat) : ((v.transform S (epoch % 16) vb).emitted readTs d).length =
      (((v.head d).map Head.time).filter fun t => t < readTs).toList.length +
        (((sorted S (v.changes (epoch % 16))).takeWhile (shows readTs epoch)).map
          Change.key).count d := by
  have hent : ∀ c ∈ v.changes (epoch % 16), isDelete c.edge = false ∧ 0 < c.old.e ∧
      c.old.e < 2 ^ 31 := fun c hc => h.entry hlt hc
  have hreplaced : replaced S (v.changes (epoch % 16)) = sorted S (v.changes (epoch % 16)) := by
    have hmem : ∀ c ∈ sorted S (v.changes (epoch % 16)), c ∈ v.changes (epoch % 16) :=
      fun c hc => (sorted_perm S _).mem_iff.mp hc
    have hall : (sorted S (v.changes (epoch % 16))).filter (fun c => decide (c.old.e ≠ 0)) =
        sorted S (v.changes (epoch % 16)) :=
      List.filter_eq_self.mpr fun c hc => decide_eq_true (hent c (hmem c hc)).2.1.ne'
    have hnone : (sorted S (v.changes (epoch % 16))).filter
        (fun c => decide (c.old.e = 0) && isDelete c.edge) = [] :=
      List.filter_eq_nil_iff.mpr fun c hc => by simp [(hent c (hmem c hc)).1]
    rw [replaced_eq, hall, hnone, List.append_nil]
  by_cases hnil : v.changes (epoch % 16) = []
  · have hsorted : sorted S ([] : List Change) = [] := sorted_nil S
    rw [transform, if_pos hnil, h.length_emitted hlt he, hnil, hsorted]
    rfl
  · have hstamp : v.stamp (epoch % 16) = epoch := by
      apply h.stamp
      intro hws
      have hent := h.entries
      rw [hws] at hent
      exact hnil (List.map_eq_nil_iff.mp hent)
    set u := v.transform S (epoch % 16) vb with hu
    have hhead : u.head = (publishAll S (epoch % 16) v).head := by
      rw [hu, transform, if_neg hnil]
    have hchanges : ∀ k, u.changes k = [] := by
      intro k
      rw [hu, transform, if_neg hnil]
      show Function.update v.changes (epoch % 16) [] k = []
      by_cases hk : k = epoch % 16
      · rw [hk, Function.update_self]
      · rw [Function.update_of_ne hk]
        exact h.empty k hk
    have hscan : u.scanTvbs readTs = [] := by
      rw [scanTvbs, List.flatMap_eq_nil_iff]
      intro k _
      rw [hchanges]
      split_ifs <;> rfl
    -- the reader stops at the block of its own epoch
    have hchain : u.chainScan readTs =
        (publishAll S (epoch % 16) v).records.takeWhile
          fun r => r.1.isVisibleAtCompositeInv readTs ⟨readTs.e, r.2.index⟩ := by
      set nw : VersionBlock := ⟨vb, epoch, v.vbm.endEpoch, (publishAll S (epoch % 16) v).edgeNum,
        (publishAll S (epoch % 16) v).records⟩ with hnw
      have hend : u.vbm.endEpoch = epoch := by
        rw [hu, transform, if_neg hnil]
        exact hstamp
      have hvbs : u.vbm.vbs = ⟨vb, v.stamp (epoch % 16), v.vbm.endEpoch,
          (publishAll S (epoch % 16) v).edgeNum, (publishAll S (epoch % 16) v).records⟩ ::
            v.vbm.vbs := by
        rw [hu, transform, if_neg hnil]
        rfl
      rw [hstamp, ← hnw] at hvbs
      have hlast : nw.endsBefore .fineGrain readTs.e = true := by
        show decide (v.vbm.endEpoch < readTs.e) = true
        rw [h.endEpoch, he]
        exact decide_eq_true hlt
      have hown : Build.fineGrain = .fineGrain ∧ nw.timestamp = readTs.e := ⟨rfl, he.symm⟩
      rw [chainScan, if_pos (by rw [hend, he]), hvbs, scan, if_pos hown, if_pos hlast,
        List.append_nil, emitBlock, if_pos hown]
      split_ifs with hrec
      · have hrec : (publishAll S (epoch % 16) v).records = [] := hrec
        rw [hrec]
        rfl
      · rfl
    have hlive : u.Live := by
      intro d g hg
      rw [hhead] at hg
      exact (h.head_transform hlt d).2 g hg
    have hkeys : (u.chainScan readTs).map (fun r => r.1.key) =
        ((sorted S (v.changes (epoch % 16))).takeWhile (shows readTs epoch)).map Change.key := by
      set visible : EdgeWithIndex × Nat → Bool :=
        fun x => x.1.isVisibleAtCompositeInv readTs ⟨readTs.e, x.2⟩ with hvisible
      have htrace := congrArg (fun l => (l.takeWhile visible).map fun x => x.1.key)
        (publishAll_trace S (epoch % 16) v)
      simp only [hreplaced, List.takeWhile_map, List.map_map] at htrace
      rw [hchain]
      refine htrace.trans ?_
      rw [takeWhile_congr (q := shows readTs epoch)]
      · exact List.map_congr_left fun c _ => clearDelete_clearDelete c.edge
      · intro c hc
        have hold := (hent c ((sorted_perm S _).mem_iff.mp hc)).2.2
        simp [hvisible, shows, EdgeWithIndex.isVisibleAtCompositeInv, EdgeWithIndex.creation,
          EdgeWithIndex.getCoarseC, clearTmp_of_lt hold, he]
    rw [emitted, hscan, List.length_append, List.length_append, length_visible hlive, hhead,
      (h.head_transform hlt d).1, List.filter_nil, List.map_nil, List.length_nil, Nat.add_zero,
      List.length_map, ← hkeys, List.count_eq_countP, List.countP_map, List.countP_eq_length_filter]
    rfl

end Transform

end Overwritten

end View

/-- In the order in which Transform sorts the entries, none that ended before the reader comes
before one that the reader sees. -/
def TmpVersionBlock.Uncrossed (S : StdSort) (readTs : Composite) (t : TmpVersionBlock) : Prop :=
  (VertexEdges.transformOrder S t.entries).Pairwise fun i j =>
    let a := t.entries.getD i default
    let b := t.entries.getD j default
    b.old < readTs → readTs ≤ ⟨t.timestamp, b.newIntraC⟩ → readTs ≤ ⟨t.timestamp, a.newIntraC⟩

/-- An overwrite of the epoch by a later transaction, whose lookup returns the item of its edge. -/
def History.Overwrites (S : StdSort) (epoch : Nat) (h : History) : Op → Prop
  | .insert env w => (h.state.prepare S env).LookupRight w.dst ∧ h.state.m w.dst = true ∧
      w.epoch = epoch ∧ ∀ u ∈ h.accepted, u.txn.intra < w.txn.intra
  | .delete _ _ | .transform _ _ => False

section Publish

variable {S : StdSort} {epoch : Nat} {v₀ : View} {h h' : History}

theorem View.Overwritten.insert (hi : v₀.Overwritten epoch h.accepted h.state.view)
    (hwf : h.state.Wf) {op : Op} (hok : h.Overwrites S epoch op)
    (hstep : h.step .fineGrain S op = some h') :
    h'.state.Wf ∧ v₀.Overwritten epoch h'.accepted h'.state.view := by
  cases op with
  | delete env w => exact absurd hok id
  | transform e vb => exact absurd hok id
  | insert env w =>
    obtain ⟨hlook, hm, hw, hlater⟩ := hok
    have hd : v₀.head w.dst ≠ none := by
      have hitem := (hwf.rep.m_iff w.dst).mp hm
      intro hnone
      have hh := hi.head w.dst
      rw [hnone] at hh
      have hhead : (h.state.item w.dst).map headOf = none := Option.map_eq_none_iff.mp hh
      rw [Option.map_eq_none_iff.mp hhead] at hitem
      cases hitem
    have hopen := hi.openTvb
    obtain ⟨hwf', ⟨-, hacc, hview⟩ | ⟨-, hacc, unset, hview⟩⟩ :=
      History.insert_cases hwf hi.live hlook hstep
    · rw [hacc, hview, hw]
      exact ⟨hwf', hopen⟩
    · have hstamp : (h.state.view.openTvb epoch).stamp (epoch % 16) = epoch := by
        rw [View.stamp_openTvb, if_pos rfl]
      have hnext := hopen.write hw hstamp hd hlater (View.isPending (h.state.view.head w.dst))
        (View.lastIndex unset (h.state.view.head w.dst))
        ((h.state.view.head w.dst).elim w.weight Head.weight)
      rw [View.head_openTvb] at hnext
      rw [hacc, hview, hw]
      exact ⟨hwf', hnext⟩

theorem uncrossed_iff {s : VertexEdges} {slot : Nat} {readTs : Composite} :
    (s.tmpVb slot).Uncrossed S readTs ↔ (View.sorted S (s.view.changes slot)).Pairwise fun a b =>
      View.shows readTs (s.tmpVb slot).timestamp b = true →
        View.shows readTs (s.tmpVb slot).timestamp a = true := by
  have hold := View.sorted_pairwise S (s.view.changes slot)
  rw [VertexEdges.view_sorted, List.pairwise_map] at hold ⊢
  simp only [VertexEdges.view_changes_getD] at hold ⊢
  constructor
  · intro hu
    apply (hold.and hu).imp
    intro i j hij hj
    obtain ⟨hle, hcross⟩ := hij
    simp only [View.shows, decide_eq_true_eq] at hj ⊢
    exact ⟨hle.trans_lt hj.1, hcross hj.1 hj.2⟩
  · intro hall
    apply hall.imp
    intro i j hij a b hold hle
    have hi := hij (by simpa [View.shows] using ⟨hold, hle⟩)
    simp only [View.shows, decide_eq_true_eq] at hi
    exact hi.2

/-- Transform of an epoch of overwrites disturbs no reader of the epoch exactly when creation and
invalidation of the entries do not cross at its timestamp. -/
theorem publishing_undisturbed {s : VertexEdges} (hwf : s.Wf) (hpub : s.view.Published)
    (hlt : s.vbm.endEpoch < epoch) {es : List Op}
    (hok : Along (History.step .fineGrain S) (History.Overwrites S epoch) ⟨s, []⟩ es)
    (hrun : exec (History.step .fineGrain S) ⟨s, []⟩ es = some h) (vb : Nat) :
    ∃ n t, h.state.transform .fineGrain S (epoch % 16) vb = some (n, t) ∧
      ∀ readTs : Composite, readTs.e = epoch →
        (((h.state.forEachEdge .fineGrain readTs).map EdgeWithIndex.key).Perm
          ((t.forEachEdge .fineGrain readTs).map EdgeWithIndex.key) ↔
            (h.state.tmpVb (epoch % 16)).Uncrossed S readTs) := by
  let Inv : History → Prop := fun g =>
    g.state.Wf ∧ s.view.Overwritten epoch g.accepted g.state.view
  have hinv : Inv h := invariant_of_step
    (fun _ _ _ hi hok hstep => hi.2.insert hi.1 hok hstep) ⟨hwf, .start hpub epoch⟩ hok hrun
  obtain ⟨hwf', hi⟩ := hinv
  obtain ⟨n, t, ht, hwft, hview⟩ := VertexEdges.transform_refines (S := S) hwf' (epoch % 16) vb
  refine ⟨n, t, ht, fun readTs he => ?_⟩
  set cs := h.state.view.changes (epoch % 16) with hcs
  set shown := View.shows readTs epoch with hshown
  have hcount : ∀ d, ((h.state.forEachEdge .fineGrain readTs).map EdgeWithIndex.key).count d =
      ((t.forEachEdge .fineGrain readTs).map EdgeWithIndex.key).count d ↔
        ((cs.filter shown).map Change.key).count d =
          (((View.sorted S cs).takeWhile shown).map Change.key).count d := by
    intro d
    rw [VertexEdges.count_forEachEdge hwf'.rep, VertexEdges.count_forEachEdge hwft.rep, hview,
      hi.length_emitted hlt he, hi.length_emitted_transform hlt he]
    exact Nat.add_left_cancel_iff
  have hperm : (cs.filter shown).Perm ((View.sorted S cs).filter shown) :=
    ((View.sorted_perm S cs).filter shown).symm
  have hiff : (h.state.tmpVb (epoch % 16)).Uncrossed S readTs ↔
      (View.sorted S cs).Pairwise fun a b => shown b = true → shown a = true := by
    by_cases hne : h.accepted = []
    · have hnil : cs = [] := by
        have hent := hi.entries
        rw [hne] at hent
        exact List.map_eq_nil_iff.mp hent
      have hnone : (h.state.tmpVb (epoch % 16)).Uncrossed S readTs := by
        rw [uncrossed_iff, ← hcs, hnil, sorted_nil]
        exact List.Pairwise.nil
      rw [hnil, sorted_nil]
      exact iff_of_true hnone List.Pairwise.nil
    · have hstamp : (h.state.tmpVb (epoch % 16)).timestamp = epoch := hi.stamp hne
      rw [uncrossed_iff, hstamp]
  rw [hiff, List.perm_iff_count]
  constructor
  · intro hall
    apply pairwise_of_takeWhile_eq
    apply (takeWhile_sublist_filter shown _).eq_of_length
    have hkeys : ((cs.filter shown).map Change.key).Perm
        (((View.sorted S cs).takeWhile shown).map Change.key) :=
      List.perm_iff_count.mpr fun d => (hcount d).mp (hall d)
    have hlen := hkeys.length_eq
    rw [List.length_map, List.length_map] at hlen
    rw [← hlen, hperm.length_eq]
  · intro hpair d
    rw [hcount, takeWhile_eq_filter hpair]
    exact (hperm.map Change.key).count_eq d

end Publish

section Runs

instance (S : StdSort) (readTs : Composite) (t : TmpVersionBlock) : Decidable (t.Uncrossed S readTs) :=
  inferInstanceAs (Decidable (List.Pairwise _ _))

instance (S : StdSort) (epoch : Nat) (h : History) (op : Op) : Decidable (h.Overwrites S epoch op) :=
  match op with
  | .insert _ w => inferInstanceAs (Decidable (VertexEdges.LookupRight _ _ ∧ h.state.m w.dst = true ∧
      w.epoch = epoch ∧ ∀ u ∈ h.accepted, u.txn.intra < w.txn.intra))
  | .delete _ _ | .transform _ _ => isFalse id

/-- The tests of a published state. -/
private def AtRest (s : VertexEdges) : Prop :=
  (∀ x ∈ s.items, 0 < x.1.creation.e ∧ x.1.creation.e ≤ s.vbm.endEpoch) ∧
    ∀ k < 16, (s.tmpVb k).entries = [] ∧
      (s.vbm.endEpoch < (s.tmpVb k).timestamp → s.vbm.activeTvbMask k = true)

private instance (s : VertexEdges) : Decidable (AtRest s) := inferInstanceAs (Decidable (_ ∧ _))

private theorem published_of_atRest {v₀ : View} {ws : List Write} {s : VertexEdges}
    (hi : Pipe v₀ ws s.view) (h : AtRest s) : s.view.Published := by
  obtain ⟨hitems, hslots⟩ := h
  refine ⟨hi.live, fun d g hg => ?_, fun k => ?_, fun k hk => ?_⟩
  · obtain ⟨x, hx, rfl⟩ := Option.map_eq_some_iff.mp hg
    exact hitems x (List.mem_of_find?_eq_some hx)
  · by_cases hk : k < 16
    · exact VertexEdges.changes_eq_nil.mpr (hslots k hk).1
    · exact hi.changes_nil_of_le (not_lt.mp hk)
  · have hslot := hi.slot k
    exact (hslots k (by omega)).2 hk

private def overwrite (dst epoch intra : Nat) (hd : dst < 2 ^ 63) (h : 0 < epoch ∧ epoch < 2 ^ 31) : Op :=
  .insert History.freshEnv ⟨dst, 0, epoch, ⟨true, 0, intra, 0⟩, hd, Write.pos_of_epoch h, Write.lt_of_epoch h⟩

/-- The edges 7 and 8 are created at (1, 1) and (1, 2). -/
private def twoEdges : List Op :=
  [overwrite 7 1 1 Write.seven_lt Write.epoch_one, overwrite 8 1 2 Write.eight_lt Write.epoch_one,
    .transform 1 100]

/-- Epoch 2 overwrites the younger edge first. -/
private def youngerFirst : List Op :=
  [overwrite 8 2 1 Write.eight_lt Write.epoch_two, overwrite 7 2 2 Write.seven_lt Write.epoch_two]

private def olderFirst : List Op :=
  [overwrite 7 2 1 Write.seven_lt Write.epoch_two, overwrite 8 2 2 Write.eight_lt Write.epoch_two]

/-- The state after `twoEdges` and a test of it. -/
private theorem exists_twoEdges {P : History → Prop} [DecidablePred P]
    (h : (exec (History.step .fineGrain .stable) History.fresh twoEdges).any
      (fun g => decide (AtRest g.state ∧ g.state.vbm.endEpoch < 2 ∧ P g)) = true) :
    ∃ g, g.state.Wf ∧ g.state.view.Published ∧ g.state.vbm.endEpoch < 2 ∧ P g := by
  obtain ⟨g, hrun, hrest, hend, hp⟩ := exists_exec h
  have hi := Sequential.run head_built (Sequential.start (VertexEdges.wf_build _ _) pipe_built.base
    fun k => by
      change 0 < 2 ^ 31
      decide) hrun (by decide +kernel)
  exact ⟨g, hi.wf, published_of_atRest hi.pipe hrest, hend, hp⟩

theorem publishing_undisturbed_youngerFirst : ∃ (h : History) (n : Nat) (t : VertexEdges),
    h.state.transform .fineGrain .stable 2 200 = some (n, t) ∧ h.accepted.length = 2 ∧
      ((h.state.forEachEdge .fineGrain ⟨2, 2⟩).map EdgeWithIndex.key).Perm
        ((t.forEachEdge .fineGrain ⟨2, 2⟩).map EdgeWithIndex.key) := by
  obtain ⟨g, hwf, hpub, hend, hok, hany⟩ := exists_twoEdges (P := fun g =>
    Along (History.step .fineGrain .stable) (History.Overwrites .stable 2) ⟨g.state, []⟩
      youngerFirst ∧
    (exec (History.step .fineGrain .stable) ⟨g.state, []⟩ youngerFirst).any (fun h =>
      decide (h.accepted.length = 2 ∧ (h.state.tmpVb 2).Uncrossed .stable ⟨2, 2⟩)) = true)
    (by decide +kernel)
  obtain ⟨h, hrun, hlen, huncrossed⟩ := exists_exec hany
  obtain ⟨n, t, ht, hiff⟩ := publishing_undisturbed hwf hpub hend hok hrun 200
  exact ⟨h, n, t, ht, hlen, (hiff ⟨2, 2⟩ rfl).mpr huncrossed⟩

/-- When the older edge is overwritten first, its record stops the reader (2, 2) before the other
one. -/
theorem publishing_disturbs : ¬∀ (S : StdSort) (s : VertexEdges) (epoch vb n : Nat) (es : List Op)
    (h : History) (t : VertexEdges) (readTs : Composite), s.Wf → s.view.Published →
    s.vbm.endEpoch < epoch →
    Along (History.step .fineGrain S) (History.Overwrites S epoch) ⟨s, []⟩ es →
    exec (History.step .fineGrain S) ⟨s, []⟩ es = some h →
    h.state.transform .fineGrain S (epoch % 16) vb = some (n, t) → readTs.e = epoch →
    ((h.state.forEachEdge .fineGrain readTs).map EdgeWithIndex.key).Perm
      ((t.forEachEdge .fineGrain readTs).map EdgeWithIndex.key) := by
  intro hall
  obtain ⟨g, hwf, hpub, hend, hok, hany⟩ := exists_twoEdges (P := fun g =>
    Along (History.step .fineGrain .stable) (History.Overwrites .stable 2) ⟨g.state, []⟩
      olderFirst ∧
    (exec (History.step .fineGrain .stable) ⟨g.state, []⟩ olderFirst).any (fun h =>
      decide (((h.state.transform .fineGrain .stable 2 200).any fun r =>
        !decide (((h.state.forEachEdge .fineGrain ⟨2, 2⟩).map EdgeWithIndex.key).Perm
          ((r.2.forEachEdge .fineGrain ⟨2, 2⟩).map EdgeWithIndex.key))) = true)) = true)
    (by decide +kernel)
  obtain ⟨h, hrun, hdiff⟩ := exists_exec hany
  cases ht : h.state.transform .fineGrain .stable 2 200 with
  | none =>
    rw [ht] at hdiff
    cases hdiff
  | some r =>
    rw [ht] at hdiff
    have hperm := hall .stable g.state 2 200 r.1 olderFirst h r.2 ⟨2, 2⟩ hwf hpub hend hok hrun ht rfl
    simp [hperm] at hdiff

end Runs

end AVBGraph
