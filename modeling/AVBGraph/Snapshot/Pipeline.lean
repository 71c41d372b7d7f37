import AVBGraph.Snapshot.Transformed

namespace AVBGraph

open Framework

namespace View

def baseTime (v : View) (d : Nat) : Composite := lastTime (v.head d)

def baseVersion (v : View) (d : Nat) : Composite × Nat :=
  (v.head d).elim (⟨0, 0⟩, 0) fun h => (h.time, h.weight)

/-- A slot holds an epoch of its own residue, or was never used. -/
def Slotted (v : View) : Prop := ∀ k, v.stamp k = 0 ∨ v.stamp k % 16 = k

/-- A vertex without deleted destinations and without pending writes. -/
structure Settled (v : View) : Prop where
  live : v.Live
  slot : v.Slotted
  empty : ∀ k, v.changes k = []
  head : ∀ d h, v.head d = some h → h.pending = false ∧ h.time.e ≤ v.vbm.endEpoch
  linked : Linked v.vbm.endEpoch v.vbm.vbs

end View

/-- The versions that a run over the vertex `v` creates. -/
def versionsOver (v : View) (ws : List Write) : List Version := versionsFrom v.baseTime ws

/-- A block that publishes one epoch of the run: sorted records, and for each destination the
record of every version that the epoch replaced. -/
structure Publishes (v : View) (xs : List Version) (vb : VersionBlock) : Prop where
  later : v.vbm.endEpoch < vb.timestamp
  block_lt : ∀ r ∈ vb.records, r.1.block < 2 ^ 31
  sorted : vb.records.Pairwise fun a b => a.1.creation ≤ b.1.creation
  records : ∀ d, (vb.records.filter fun r => r.1.key = d).map recordAt =
    (outcome (published xs d (v.baseVersion d) (vb.timestamp - 1)).2
      (changesOf xs d vb.timestamp)).2

theorem Publishes.concat {v₀ : View} {xs : List Version} {x : Version} {vb : VersionBlock}
    (h : Publishes v₀ xs vb) (hlt : vb.timestamp < x.time.e) : Publishes v₀ (xs ++ [x]) vb := by
  refine ⟨h.later, h.block_lt, h.sorted, fun d => ?_⟩
  rw [h.records, published_concat fun _ => by omega, changesOf_concat fun _ => by omega]

/-- A vertex in the middle of a run of accepted insertions `ws` that started in `v₀`: several
epochs may be pending at once, those up to `endEpoch` are published. -/
structure Pipe (v₀ : View) (ws : List Write) (v : View) : Prop where
  base : v₀.Settled
  live : v.Live
  slot : v.Slotted
  stamp_lt : ∀ k, v.stamp k < 2 ^ 31
  le_end : v₀.vbm.endEpoch ≤ v.vbm.endEpoch
  dst_lt : ∀ x ∈ versionsOver v₀ ws, x.dst < 2 ^ 63
  later : ∀ x ∈ versionsOver v₀ ws, v₀.vbm.endEpoch < x.time.e ∧ x.old.e ≤ x.time.e
  nodup : ∀ d, (((versionsOver v₀ ws).filter fun x => x.dst = d).map Version.time).Nodup
  buffered : ∀ k, (v.changes k).map Change.erase =
    ((versionsOver v₀ ws).filter fun x =>
      x.time.e = v.stamp k ∧ v.vbm.endEpoch < v.stamp k).map Version.change
  owned : ∀ x ∈ versionsOver v₀ ws, v.vbm.endEpoch < x.time.e →
    v.stamp (x.time.e % 16) = x.time.e
  /-- a first insertion with a link has a successor -/
  next : ∀ k, ∀ c ∈ v.changes k, c.old.e = 0 → c.next ≠ 0 →
    2 ≤ ((versionsOver v₀ ws).filter fun x => x.dst = c.key).length
  absent : ∀ d, v.head d = none → v₀.head d = none ∧ ∀ x ∈ versionsOver v₀ ws, x.dst ≠ d
  present : ∀ d h, v.head d = some h →
    v₀.head d ≠ none ∨ ∃ x ∈ versionsOver v₀ ws, x.dst = d
  /-- a pending head is the newest version and knows its entry -/
  pending : ∀ d h, v.head d = some h → h.pending = true →
    v.vbm.endEpoch < h.time.e ∧ h.time = newest v₀.baseTime ws d ∧
      ∃ c, (v.changes (h.time.e % 16))[h.index]? = some c ∧ c.key = d
  waiting : ∀ d h, v.head d = some h → (∃ x ∈ versionsOver v₀ ws, x.dst = d) →
    (∀ x ∈ versionsOver v₀ ws, x.dst = d → v.vbm.endEpoch < x.time.e) → h.pending = true
  time : ∀ d h, v.head d = some h → h.pending = false →
    h.time = (published (versionsOver v₀ ws) d (v₀.baseVersion d) v.vbm.endEpoch).1
  weight : ∀ d h, v.head d = some h →
    (v₀.head d ≠ none ∨ ∃ x ∈ versionsOver v₀ ws, x.dst = d ∧ x.time.e ≤ v.vbm.endEpoch) →
    h.weight = (published (versionsOver v₀ ws) d (v₀.baseVersion d) v.vbm.endEpoch).2
  linked : Linked v.vbm.endEpoch v.vbm.vbs
  blocks : ∃ vbs, v.vbm.vbs = vbs ++ v₀.vbm.vbs ∧
    ∀ vb ∈ vbs, Publishes v₀ (versionsOver v₀ ws) vb
  complete : ∀ x ∈ versionsOver v₀ ws, x.time.e ≤ v.vbm.endEpoch →
    ∃ vb ∈ v.vbm.vbs, vb.timestamp = x.time.e

namespace Pipe

variable {v₀ v : View} {ws : List Write} {w : Write}

theorem key_change {x : Version} (h : x.dst < 2 ^ 63) : x.change.key = x.dst := clearDelete_of_lt h

/-- A run that has not written yet. -/
theorem start (h : v₀.Settled) (hlt : ∀ k, v₀.stamp k < 2 ^ 31) : Pipe v₀ [] v₀ where
  base := h
  live := h.live
  slot := h.slot
  stamp_lt := hlt
  le_end := le_rfl
  dst_lt := by simp [versionsOver, versionsFrom]
  later := by simp [versionsOver, versionsFrom]
  nodup := by simp [versionsOver, versionsFrom]
  buffered k := by simp [versionsOver, versionsFrom, h.empty k]
  owned := by simp [versionsOver, versionsFrom]
  next k c hc := by simp [h.empty k] at hc
  absent d hd := ⟨hd, by simp [versionsOver, versionsFrom]⟩
  present d hd hh := Or.inl (by simp [hh])
  pending d hd hh hp := by
    rw [(h.head d hd hh).1] at hp
    cases hp
  waiting d hd _ hex := by simp [versionsOver, versionsFrom] at hex
  time d hd hh _ := by
    rw [published_eq_of_gap (Nat.zero_le _) (by simp [versionsOver, versionsFrom])]
    simp [published, View.baseVersion, hh]
  weight d hd hh _ := by
    rw [published_eq_of_gap (Nat.zero_le _) (by simp [versionsOver, versionsFrom])]
    simp [published, View.baseVersion, hh]
  linked := h.linked
  blocks := ⟨[], rfl, by simp⟩
  complete := by simp [versionsOver, versionsFrom]

/-- The entry of an unpublished version is in the slot of its epoch. -/
theorem mem_slot (h : Pipe v₀ ws v) {x : Version} (hx : x ∈ versionsOver v₀ ws)
    (hlt : v.vbm.endEpoch < x.time.e) : ∃ c ∈ v.changes (x.time.e % 16), c.erase = x.change := by
  have hmem : x.change ∈ (v.changes (x.time.e % 16)).map Change.erase := by
    rw [h.buffered, h.owned x hx hlt]
    exact List.mem_map_of_mem (List.mem_filter.mpr ⟨hx, by simp [hlt]⟩)
  exact List.mem_map.mp hmem

/-- An entry stands for an unpublished version of the epoch of its slot. -/
theorem version_of_mem (h : Pipe v₀ ws v) {k : Nat} {c : Change} (hc : c ∈ v.changes k) :
    ∃ x ∈ versionsOver v₀ ws, x.change = c.erase ∧ x.time.e = v.stamp k ∧
      v.vbm.endEpoch < v.stamp k ∧ x.dst = c.key := by
  have hmem := List.mem_map_of_mem (f := Change.erase) hc
  rw [h.buffered] at hmem
  obtain ⟨x, hx, he⟩ := List.mem_map.mp hmem
  obtain ⟨hx, hcond⟩ := List.mem_filter.mp hx
  obtain ⟨htime, hlt⟩ := of_decide_eq_true hcond
  refine ⟨x, hx, he, htime, hlt, ?_⟩
  rw [← key_change (h.dst_lt x hx), he, Change.key_erase]

/-- Opening a TmpVersionBlock whose slot is free, or already the own one. -/
theorem openTvb (h : Pipe v₀ ws v) {epoch : Nat} (hlt : v.vbm.endEpoch < epoch)
    (he : epoch < 2 ^ 31)
    (hfree : v.changes (epoch % 16) = [] ∨ v.stamp (epoch % 16) = epoch) :
    Pipe v₀ ws (v.openTvb epoch) := by
  have hend := v.endEpoch_openTvb epoch
  have hhead := v.head_openTvb epoch
  have hvbs := v.vbs_openTvb epoch
  have hchanges := View.changes_openTvb_of_free hfree
  have hown : ∀ x ∈ versionsOver v₀ ws, v.vbm.endEpoch < x.time.e → x.time.e % 16 = epoch % 16 →
      x.time.e = epoch := by
    intro x hx hxlt hmod
    have hstamp := h.owned x hx hxlt
    rcases hfree with hnil | heq
    · obtain ⟨c, hc, -⟩ := h.mem_slot hx hxlt
      rw [hmod, hnil] at hc
      simp at hc
    · rw [← hstamp, hmod, heq]
  constructor
  case base => exact h.base
  case live => unfold View.Live; rw [hhead]; exact h.live
  case slot =>
    intro k
    rw [View.stamp_openTvb]
    split_ifs with hk
    · exact Or.inr hk.symm
    · exact h.slot k
  case stamp_lt =>
    intro k
    rw [View.stamp_openTvb]
    split_ifs
    · exact he
    · exact h.stamp_lt k
  case le_end => rw [hend]; exact h.le_end
  case dst_lt => exact h.dst_lt
  case later => exact h.later
  case nodup => exact h.nodup
  case buffered =>
    intro k
    rw [hchanges, hend, View.stamp_openTvb]
    by_cases hk : k = epoch % 16
    · rw [if_pos hk]
      subst hk
      rw [h.buffered]
      refine congrArg _ (List.filter_congr fun x hx => ?_)
      simp only [decide_eq_decide]
      constructor
      · rintro ⟨heq, hpos⟩
        have : x.time.e = epoch := hown x hx (heq ▸ hpos) (by
          rcases h.slot (epoch % 16) with h0 | h0
          · omega
          · rw [heq, h0])
        exact ⟨this, hlt⟩
      · rintro ⟨rfl, hpos⟩
        rw [h.owned x hx hpos]
        exact ⟨rfl, hpos⟩
    · rw [if_neg hk]
      exact h.buffered k
  case owned =>
    intro x hx hxlt
    rw [hend] at hxlt
    rw [View.stamp_openTvb]
    split_ifs with hk
    · exact (hown x hx hxlt hk).symm
    · exact h.owned x hx hxlt
  case next => rw [hchanges]; exact h.next
  case absent => rw [hhead]; exact h.absent
  case present => rw [hhead]; exact h.present
  case pending => rw [hhead, hend, hchanges]; exact h.pending
  case waiting => rw [hhead, hend]; exact h.waiting
  case time => rw [hhead, hend]; exact h.time
  case weight => rw [hhead, hend]; exact h.weight
  case linked => rw [hend, hvbs]; exact h.linked
  case blocks => rw [hvbs]; exact h.blocks
  case complete => rw [hvbs, hend]; exact h.complete

section Write

/-- The version that an accepted write over the newest one creates. -/
def versionOf (v₀ : View) (ws : List Write) (w : Write) : Version :=
  ⟨w.dst, w.weight, newest v₀.baseTime ws w.dst, w.time⟩

theorem versionsOver_concat (v₀ : View) (ws : List Write) (w : Write) :
    versionsOver v₀ (ws ++ [w]) = versionsOver v₀ ws ++ [versionOf v₀ ws w] :=
  versionsFrom_concat _ _ _

/-- The tail of an accepted insertion that found the newest version of its destination. -/
theorem write (h : Pipe v₀ ws v) (hlt : v.vbm.endEpoch < w.epoch)
    (hstamp : v.stamp (w.epoch % 16) = w.epoch)
    (hnew : View.lastTime (v.head w.dst) = newest v₀.baseTime ws w.dst)
    (hle : (View.lastTime (v.head w.dst)).e ≤ w.epoch)
    (hdist : ∀ x ∈ versionsOver v₀ ws, x.dst = w.dst → x.time ≠ w.time)
    (hroom : ∀ k, (v.changes k).length ≤ 2 ^ 32 - 1) (unset : Nat) :
    Pipe v₀ (ws ++ [w]) (v.addVersion false (View.isPending (v.head w.dst))
      (View.lastTime (v.head w.dst)) (View.lastIndex unset (v.head w.dst))
      ((v.head w.dst).elim w.weight Head.weight) w) := by
  set u := v.addVersion false (View.isPending (v.head w.dst)) (View.lastTime (v.head w.dst))
    (View.lastIndex unset (v.head w.dst)) ((v.head w.dst).elim w.weight Head.weight) w with hu
  have hxs := versionsOver_concat v₀ ws w
  have hnewer : v.vbm.endEpoch < (versionOf v₀ ws w).time.e := hlt
  have hvbm : u.vbm = v.vbm := View.vbm_addVersion
  have hstamps : u.stamp = v.stamp := View.stamp_addVersion
  have hhead : u.head = Function.update v.head w.dst (some ⟨false, w.time, true,
      (v.head w.dst).elim w.weight Head.weight, (v.changes (w.epoch % 16)).length⟩) := by
    rw [hu, View.head_addVersion]
    rfl
  have herase : ∀ k, (u.changes k).map Change.erase = (v.changes k).map Change.erase ++
      if k = w.epoch % 16 then [(versionOf v₀ ws w).change] else [] := by
    intro k
    rw [hu, View.addVersion_erase, hnew]
    rfl
  have hne : ∀ d, d ≠ w.dst → u.head d = v.head d := by
    intro d hd
    rw [hhead, Function.update_of_ne hd]
  have hself : u.head w.dst = some ⟨false, w.time, true,
      (v.head w.dst).elim w.weight Head.weight, (v.changes (w.epoch % 16)).length⟩ := by
    rw [hhead, Function.update_self]
  have hmem : ∀ {x}, x ∈ versionsOver v₀ (ws ++ [w]) →
      x ∈ versionsOver v₀ ws ∨ x = versionOf v₀ ws w := by
    intro x hx
    rw [hxs, List.mem_append, List.mem_singleton] at hx
    exact hx
  constructor
  case base => exact h.base
  case live =>
    intro d g hg
    by_cases hd : d = w.dst
    · subst hd
      rw [hself] at hg
      rw [← Option.some.inj hg]
    · exact h.live d g (hne d hd ▸ hg)
  case slot => unfold View.Slotted; rw [hstamps]; exact h.slot
  case stamp_lt => rw [hstamps]; exact h.stamp_lt
  case le_end => rw [hvbm]; exact h.le_end
  case dst_lt =>
    intro x hx
    rcases hmem hx with hx | rfl
    · exact h.dst_lt x hx
    · exact w.dst_lt
  case later =>
    intro x hx
    rcases hmem hx with hx | rfl
    · exact h.later x hx
    · rw [hnew] at hle
      exact ⟨h.le_end.trans_lt hlt, hle⟩
  case nodup =>
    intro d
    rw [hxs, List.filter_append, List.map_append]
    by_cases hd : w.dst = d
    · subst hd
      rw [List.filter_cons_of_pos (by simp [versionOf]), List.filter_nil, List.map_singleton]
      refine List.Nodup.append (h.nodup _) (List.nodup_singleton _) ?_
      rw [List.disjoint_singleton, List.mem_map]
      rintro ⟨x, hx, heq⟩
      obtain ⟨hx, hd⟩ := List.mem_filter.mp hx
      exact hdist x hx (of_decide_eq_true hd) heq
    · rw [List.filter_cons_of_neg (by simp [versionOf, hd])]
      simpa using h.nodup d
  case buffered =>
    intro k
    rw [herase, hstamps, hvbm, hxs, List.filter_append, List.map_append, h.buffered k]
    congr 1
    by_cases hk : k = w.epoch % 16
    · subst hk
      rw [if_pos rfl, hstamp, List.filter_cons_of_pos (by simpa [versionOf, Write.time] using hlt)]
      rfl
    · rw [if_neg hk, List.filter_cons_of_neg]
      · rfl
      · simp only [decide_eq_true_eq, not_and]
        intro heq
        have heq : w.epoch = v.stamp k := heq
        have := h.slot k
        have := w.epoch_pos
        omega
  case owned =>
    intro x hx hxlt
    rw [hvbm] at hxlt
    rw [hstamps]
    rcases hmem hx with hx | rfl
    · exact h.owned x hx hxlt
    · exact hstamp
  case next =>
    intro k c hc hz hn
    rw [hxs, List.filter_append, List.length_append]
    rcases View.next_addVersion hc hz hn with ⟨c', hc', he, hn'⟩ | ⟨hp, hl, rfl, hlink⟩
    · obtain ⟨hedge, -, hold, -⟩ := Change.erase_eq_erase.mp he
      have := h.next k c' hc' (by rw [hold]; exact hz) hn'
      have hkey : c'.key = c.key := congrArg clearDelete hedge
      rw [hkey] at this
      omega
    · -- the entry of the pending predecessor now has a successor
      obtain ⟨g, hg⟩ : ∃ g, v.head w.dst = some g := by
        cases hg : v.head w.dst with
        | none => simp [hg, View.isPending] at hp
        | some g => exact ⟨g, rfl⟩
      have hgd := h.live _ g hg
      simp only [hg, View.isPending, Option.elim_some] at hp
      obtain ⟨-, -, c₀, hc₀, hkey⟩ := h.pending _ g hg hp
      have hlast : View.lastTime (v.head w.dst) = g.time := by simp [hg, View.lastTime, hgd]
      have hlt' := (List.getElem?_eq_some_iff.mp hc₀).1
      have hidx : View.lastIndex unset (v.head w.dst) = g.index := by
        have := hroom (g.time.e % 16)
        simp only [hg, View.lastIndex, Option.elim_some, hgd, Bool.false_eq_true, if_false,
          predecessor]
        rw [if_neg (by omega)]
      rw [hidx, hlast] at hlink
      have he := hlink c₀ hc₀
      obtain ⟨x, hx, -, -, -, hdst⟩ := h.version_of_mem (List.mem_of_getElem? hc₀)
      have hkc : c.key = w.dst := by
        rw [← hkey, ← Change.key_erase c, ← he, Change.key_erase]
      have h1 : 0 < ((versionsOver v₀ ws).filter fun x => x.dst = c.key).length :=
        List.length_pos_of_mem (List.mem_filter.mpr ⟨hx, by simp [hdst, hkey, hkc]⟩)
      have h2 : ([versionOf v₀ ws w].filter fun x => x.dst = c.key).length = 1 := by
        rw [List.filter_cons_of_pos (by simp [versionOf, hkc])]
        rfl
      omega
  case absent =>
    intro d hd
    have hdne : d ≠ w.dst := by
      rintro rfl
      rw [hself] at hd
      cases hd
    obtain ⟨hbase, hall⟩ := h.absent d (hne d hdne ▸ hd)
    refine ⟨hbase, fun x hx => ?_⟩
    rcases hmem hx with hx | rfl
    · exact hall x hx
    · exact Ne.symm hdne
  case present =>
    intro d g hg
    rw [hxs]
    by_cases hd : d = w.dst
    · exact Or.inr ⟨_, List.mem_append_right _ (List.mem_singleton_self _), hd.symm⟩
    · rcases h.present d g (hne d hd ▸ hg) with hbase | ⟨x, hx, hxd⟩
      · exact Or.inl hbase
      · exact Or.inr ⟨x, List.mem_append_left _ hx, hxd⟩
  case pending =>
    intro d g hg hp
    rw [hvbm, newest_concat]
    by_cases hd : d = w.dst
    · subst hd
      rw [hself] at hg
      obtain rfl := Option.some.inj hg
      rw [Function.update_self]
      obtain ⟨c, hc, he⟩ := View.getElem?_addVersion_new (v := v) (w := w)
      refine ⟨hlt, rfl, c, hc, ?_⟩
      rw [← Change.key_erase, he, View.key_newChange]
    · rw [Function.update_of_ne hd]
      obtain ⟨h1, h2, c, hc, hkey⟩ := h.pending d g (hne d hd ▸ hg) hp
      obtain ⟨c', hc', he⟩ := View.getElem?_addVersion (w := w) hc
      refine ⟨h1, h2, c', hc', ?_⟩
      rw [← hkey, ← Change.key_erase, he, Change.key_erase]
  case waiting =>
    intro d g hg hex hall
    rw [hvbm] at hall
    by_cases hd : d = w.dst
    · subst hd
      rw [hself] at hg
      rw [← Option.some.inj hg]
    · refine h.waiting d g (hne d hd ▸ hg) ?_ fun x hx => hall x (by rw [hxs]; simp [hx])
      obtain ⟨x, hx, hxd⟩ := hex
      rcases hmem hx with hx | rfl
      · exact ⟨x, hx, hxd⟩
      · exact absurd hxd.symm hd
  case time =>
    intro d g hg hp
    rw [hvbm, hxs, published_concat fun _ => hnewer]
    by_cases hd : d = w.dst
    · subst hd
      rw [hself] at hg
      rw [← Option.some.inj hg] at hp
      cases hp
    · exact h.time d g (hne d hd ▸ hg) hp
  case weight =>
    intro d g hg hor
    rw [hvbm] at hor ⊢
    rw [hxs, published_concat fun _ => hnewer]
    have hor' : v₀.head d ≠ none ∨
        ∃ x ∈ versionsOver v₀ ws, x.dst = d ∧ x.time.e ≤ v.vbm.endEpoch := by
      rcases hor with hbase | ⟨x, hx, hxd, hle⟩
      · exact Or.inl hbase
      · rcases hmem hx with hx | rfl
        · exact Or.inr ⟨x, hx, hxd, hle⟩
        · exact absurd hnewer (not_lt.mpr hle)
    by_cases hd : d = w.dst
    · subst hd
      rw [hself] at hg
      obtain rfl := Option.some.inj hg
      cases hv : v.head w.dst with
      | none =>
        obtain ⟨hbase, hall⟩ := h.absent _ hv
        rcases hor' with hb | ⟨x, hx, hxd, -⟩
        · exact absurd hbase hb
        · exact absurd hxd (hall x hx)
      | some g => exact h.weight _ g hv hor'
    · exact h.weight d g (hne d hd ▸ hg) hor'
  case linked => rw [hvbm]; exact h.linked
  case blocks =>
    rw [hvbm, hxs]
    obtain ⟨vbs, heq, hall⟩ := h.blocks
    refine ⟨vbs, heq, fun vb hvb => (hall vb hvb).concat ?_⟩
    exact (h.linked.le vb (by rw [heq]; simp [hvb])).trans_lt hnewer
  case complete =>
    intro x hx hle
    rw [hvbm] at hle ⊢
    rcases hmem hx with hx | rfl
    · exact h.complete x hx hle
    · exact absurd hnewer (not_lt.mpr hle)

end Write

end Pipe

end AVBGraph
