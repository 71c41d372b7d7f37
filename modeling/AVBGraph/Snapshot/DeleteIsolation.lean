import AVBGraph.Snapshot.LoadedHistory

namespace AVBGraph

open Framework

namespace View

variable {S : StdSort} {v u t : View} {slot epoch d : Nat} {readTs : Composite} {w : Write}

/-- The buffered entries of an edge, without their links. -/
def entriesOf (v : View) (k d : Nat) : List Change :=
  ((v.changes k).map Change.erase).filter fun c => c.key = d

/-- The records of an edge that a scan hands over. -/
def recorded (v : View) (readTs : Composite) (d : Nat) : List Item :=
  (v.chainScan readTs).filter fun r => r.1.key = d

theorem mem_entriesOf {k : Nat} {c : Change} (hc : c ∈ v.changes k) (hkey : c.key = d) :
    c.erase ∈ v.entriesOf k d := by
  apply List.mem_filter.mpr
  refine ⟨List.mem_map_of_mem hc, ?_⟩
  rw [decide_eq_true_eq]
  exact hkey

theorem entriesOf_eq_nil {k : Nat} : v.entriesOf k d = [] ↔ ∀ c ∈ v.changes k, c.key ≠ d := by
  constructor
  · intro hnil c hc hkey
    have hmem := mem_entriesOf hc hkey
    rw [hnil] at hmem
    cases hmem
  · intro hno
    apply List.filter_eq_nil_iff.mpr
    intro c hc
    obtain ⟨c', hc', rfl⟩ := List.mem_map.mp hc
    rw [decide_eq_true_eq]
    exact hno c' hc'

theorem entriesOf_transform (vb k : Nat) :
    (v.transform S slot vb).entriesOf k d = if k = slot then [] else v.entriesOf k d := by
  unfold entriesOf
  rw [changes_transform]
  split_ifs
  · rfl
  · rfl

theorem recorded_congr (h : u.vbm.vbs = v.vbm.vbs) (hend : u.vbm.endEpoch = v.vbm.endEpoch) :
    u.recorded readTs d = v.recorded readTs d := by
  unfold recorded chainScan
  rw [h, hend]

namespace Chained

/-- A scan walks the blocks from its epoch on, if there are any. -/
theorem chainScan_eq (h : Chained v) (readTs : Composite) : v.chainScan readTs =
    v.vbm.vbs.flatMap fun b => if b.timestamp < readTs.e then [] else
      emitBlock .fineGrain readTs b := by
  unfold chainScan
  by_cases hle : readTs.e ≤ v.vbm.endEpoch
  · rw [if_pos hle, scan_eq_flatMap h.linked hle h.block_lt]
  · rw [if_neg hle, eq_comm]
    apply List.flatMap_eq_nil_iff.mpr
    intro b hb
    rw [if_pos ((h.linked.le b hb).trans_lt (not_le.mp hle))]

/-- Transform puts a block in front of the records that a scan hands over. -/
theorem recorded_transform (h : Chained v) (hne : v.changes slot ≠ []) (vb : Nat)
    (hasc : ∀ k, v.changes k ≠ [] → v.stamp slot ≤ v.stamp k) : ∃ b : VersionBlock,
    b.timestamp = v.stamp slot ∧ b.records = (publishAll S slot v).records ∧ ∀ readTs d,
      (v.transform S slot vb).recorded readTs d =
        (if b.timestamp < readTs.e then [] else
          (emitBlock .fineGrain readTs b).filter fun r => r.1.key = d) ++ v.recorded readTs d := by
  obtain ⟨b, hvbs, hts, hrecords, -⟩ := vbs_transform (S := S) hne vb
  refine ⟨b, hts, hrecords, ?_⟩
  intro readTs d
  unfold recorded
  rw [chainScan_eq (h.transform hne vb hasc), chainScan_eq h, hvbs, List.flatMap_cons,
    List.filter_append]
  congr 1
  split_ifs
  · rfl
  · rfl

end Chained

/-- The records that a block hands over for an edge are some of its records of the edge. -/
theorem emitBlock_sublist (readTs : Composite) (b : VersionBlock) (d : Nat) :
    ((emitBlock .fineGrain readTs b).filter fun r => r.1.key = d).Sublist
      (b.records.filter fun r => r.1.key = d) := by
  apply List.Sublist.filter
  unfold emitBlock
  split_ifs
  · exact List.takeWhile_sublist _
  · exact List.takeWhile_sublist _

/-- An edge whose entries are deletions is handed over from the items and the blocks. -/
theorem length_emitted (hentries : ∀ k, ∀ c ∈ v.entriesOf k d, isDelete c.edge = true) :
    (v.emitted readTs d).length =
      ((v.head d).filter (Head.visible readTs)).toList.length + (v.recorded readTs d).length := by
  have hscan : (v.scanTvbs readTs).filter (fun c => c.key = d) = [] := by
    apply List.filter_eq_nil_iff.mpr
    intro c hc hkey
    rw [decide_eq_true_eq] at hkey
    obtain ⟨k, -, hc⟩ := List.mem_flatMap.mp hc
    split_ifs at hc
    · obtain ⟨newer, older, hsplit, -, hlive, -⟩ := mem_scanChanges hc
      have hmem : c ∈ v.changes k := by
        rw [← List.mem_reverse, hsplit]
        exact List.mem_append_right _ List.mem_cons_self
      have hdel : isDelete c.edge = true := hentries k c.erase (mem_entriesOf hmem hkey)
      rw [hlive] at hdel
      cases hdel
    · cases hc
  unfold emitted
  rw [hscan]
  simp [recorded]

/-- An edge without a newest live version or entry is handed over from the blocks only. -/
theorem length_emitted_deleted (hhead : ∀ g, v.head d = some g → g.deleted = true)
    (hentries : ∀ k, ∀ c ∈ v.entriesOf k d, isDelete c.edge = true) :
    (v.emitted readTs d).length = (v.recorded readTs d).length := by
  have hnone : (v.head d).filter (Head.visible readTs) = none := by
    apply Option.filter_eq_none_iff.mpr
    intro g hg
    rw [Head.visible, hhead g hg]
    exact Bool.false_ne_true
  rw [length_emitted hentries, hnone]
  exact Nat.zero_add _

/-- What an operation that does not concern an edge leaves alone. A merge may drop an edge without
entries. -/
structure Untouched (d : Nat) (v u : View) : Prop where
  head : u.head d = v.head d ∨ u.head d = none ∧ (∃ g, v.head d = some g ∧ g.deleted = true) ∧
    ∀ k, v.entriesOf k d = []
  entries : ∀ k, u.entriesOf k d = v.entriesOf k d
  stamp : ∀ k, v.entriesOf k d ≠ [] → u.stamp k = v.stamp k
  recorded : ∀ readTs, u.recorded readTs d = v.recorded readTs d

namespace Untouched

theorem trans (h : Untouched d v u) (h' : Untouched d u t) : Untouched d v t where
  head := by
    rcases h'.head with heq | ⟨hnone, ⟨g, hg, hdel⟩, hnil⟩
    · rw [heq]
      exact h.head
    · right
      refine ⟨hnone, ?_, fun k => h.entries k ▸ hnil k⟩
      rcases h.head with heq | ⟨hno, -⟩
      · exact ⟨g, heq ▸ hg, hdel⟩
      · rw [hno] at hg
        cases hg
  entries k := (h'.entries k).trans (h.entries k)
  stamp k hk := by
    rw [h'.stamp k (h.entries k ▸ hk), h.stamp k hk]
  recorded readTs := (h'.recorded readTs).trans (h.recorded readTs)

theorem merge (h : v.Merged u) : Untouched d v u where
  head := (h.head d).imp_right fun ⟨hnone, hdel, hno⟩ =>
    ⟨hnone, hdel, fun k => entriesOf_eq_nil.mpr (hno k)⟩
  entries k := by
    unfold entriesOf
    rw [h.changes]
  stamp k _ := by rw [h.stamp]
  recorded readTs := by
    apply recorded_congr
    · rw [h.vbm]
    · rw [h.vbm]

theorem openTvb (hfree : v.changes (epoch % 16) = [] ∨ v.stamp (epoch % 16) = epoch) :
    Untouched d v (v.openTvb epoch) where
  head := by
    left
    rw [head_openTvb]
  entries k := by
    unfold entriesOf
    rw [changes_openTvb_of_free hfree]
  stamp k hk := by
    apply stamp_openTvb_of_free hfree
    intro hnil
    apply hk
    apply entriesOf_eq_nil.mpr
    rw [hnil]
    intro c hc
    cases hc
  recorded readTs := recorded_congr (vbs_openTvb ..) (endEpoch_openTvb ..)

theorem addVersion (hd : w.dst ≠ d) (delete pending : Bool) (last : Composite)
    (lastIndex weight : Nat) :
    Untouched d v (v.addVersion delete pending last lastIndex weight w) where
  head := by
    left
    rw [head_addVersion, Function.update_of_ne (Ne.symm hd)]
  entries k := by
    unfold entriesOf
    rw [addVersion_erase, List.filter_append]
    split_ifs
    · have hother : [newChange delete last w].filter (fun c => c.key = d) = [] := by
        simp [key_newChange, hd]
      rw [hother, List.append_nil]
    · rw [List.filter_nil, List.append_nil]
  stamp k _ := by rw [stamp_addVersion]
  recorded readTs := by
    apply recorded_congr
    · rw [vbm_addVersion]
    · rw [vbm_addVersion]

theorem transform (h : Chained v) (hne : v.changes slot ≠ []) (vb : Nat)
    (hasc : ∀ k, v.changes k ≠ [] → v.stamp slot ≤ v.stamp k) (hno : v.entriesOf slot d = []) :
    Untouched d v (v.transform S slot vb) where
  head := by
    left
    rw [head_transform hne, publishAll_untouched (entriesOf_eq_nil.mp hno)]
  entries k := by
    rw [entriesOf_transform]
    split_ifs with hk
    · rw [hk, hno]
    · rfl
  stamp k _ := by rw [stamp_transform]
  recorded readTs := by
    obtain ⟨b, -, hrecords, hrecorded⟩ := h.recorded_transform (S := S) hne vb hasc
    have hnil : b.records.filter (fun r => r.1.key = d) = [] := by
      apply List.filter_eq_nil_iff.mpr
      intro r hr
      rw [hrecords] at hr
      obtain ⟨c, hc, -, hkey, -⟩ := Chained.entry_of_record hr
      rw [decide_eq_true_eq, hkey]
      exact entriesOf_eq_nil.mp hno c hc
    have hemit := emitBlock_sublist readTs b d
    rw [hnil, List.sublist_nil] at hemit
    rw [hrecorded, hemit, ite_self, List.nil_append]

end Untouched

/-- An edge whose version of time `old` was deleted by the write `w`, with its entry pending. The
scans hand over `kept` records of it. -/
structure Deleting (w : Write) (old : Composite) (kept : Composite → Nat) (v : View) : Prop where
  head : ∃ g, v.head w.dst = some g ∧ g.deleted = true
  stamp : v.stamp (w.epoch % 16) = w.epoch
  entries : ∀ k, v.entriesOf k w.dst = if k = w.epoch % 16 then [newChange true old w] else []
  recorded : ∀ readTs, (v.recorded readTs w.dst).length = kept readTs

/-- The same edge after Transform of the epoch of `w`: readers of epochs before the version and
readers after its deletion are handed over the same records. -/
structure Deleted (w : Write) (old : Composite) (kept : Composite → Nat) (v : View) : Prop where
  head : ∀ g, v.head w.dst = some g → g.deleted = true
  entries : ∀ k, v.entriesOf k w.dst = []
  recorded : ∀ readTs, readTs.e < old.e ∨ w.time < readTs →
    (v.recorded readTs w.dst).length = kept readTs

variable {old : Composite} {kept : Composite → Nat}

namespace Deleting

theorem congr (h : Deleting w old kept v) (hu : Untouched w.dst v u) : Deleting w old kept u where
  head := by
    rcases hu.head with heq | ⟨-, -, hnil⟩
    · rw [heq]
      exact h.head
    · have hfull := h.entries (w.epoch % 16)
      rw [hnil, if_pos rfl] at hfull
      cases hfull
  stamp := by
    rw [hu.stamp, h.stamp]
    rw [h.entries, if_pos rfl]
    exact List.cons_ne_nil _ _
  entries k := by rw [hu.entries, h.entries]
  recorded readTs := by rw [hu.recorded, h.recorded]

/-- The entry of the deletion in its slot. -/
theorem entry (h : Deleting w old kept v) : ∃ c,
    (v.changes (w.epoch % 16)).filter (fun c => c.key = w.dst) = [c] ∧
      c.erase = newChange true old w := by
  have hone := h.entries (w.epoch % 16)
  rw [if_pos rfl] at hone
  unfold entriesOf at hone
  rw [List.filter_map] at hone
  obtain ⟨c, hc, herase⟩ := List.map_eq_singleton_iff.mp hone
  exact ⟨c, hc, herase⟩

/-- The record that Transform makes of the deletion. -/
theorem record (h : Deleting w old kept v) : ∃ c g, c ∈ v.changes (w.epoch % 16) ∧
    c.erase = newChange true old w ∧ (publishAll S (w.epoch % 16) v).records.filter
      (fun r => r.1.key = w.dst) = [recordOf c g] := by
  obtain ⟨c, hc, herase⟩ := h.entry
  obtain ⟨g, hg, -⟩ := h.head
  have hmem : c ∈ (v.changes (w.epoch % 16)).filter fun c => c.key = w.dst := by
    rw [hc]
    exact List.mem_singleton_self c
  have hdel : isDelete c.edge = true := by
    have hedge : c.edge = setDelete w.dst := congrArg Change.edge herase
    rw [hedge]
    exact isDelete_setDelete _
  exact ⟨c, g.weight, (List.mem_filter.mp hmem).1, herase,
    (Stage.publishAll_deletion (S := S) hg hc hdel).2⟩

theorem full (h : Deleting w old kept v) : v.changes (w.epoch % 16) ≠ [] := by
  obtain ⟨c, -, hc, -⟩ := h.record (S := .stable)
  exact List.ne_nil_of_mem hc

/-- The block of the deletion shows its record to no reader of an epoch before the version, and to no
reader after the deletion. -/
theorem hidden (h : Deleting w old kept v) (hold : old.e < 2 ^ 31) {b : VersionBlock}
    (hts : b.timestamp = w.epoch) (hrecords : b.records = (publishAll S (w.epoch % 16) v).records)
    (hlt : ¬b.timestamp < readTs.e) (hout : readTs.e < old.e ∨ w.time < readTs) :
    (emitBlock .fineGrain readTs b).filter (fun r => r.1.key = w.dst) = [] := by
  obtain ⟨c, weight, -, herase, hrecord⟩ := h.record (S := S)
  have hsub := emitBlock_sublist readTs b w.dst
  rw [hrecords, hrecord] at hsub
  rcases List.sublist_singleton.mp hsub with hnil | hone
  · exact hnil
  · exfalso
    have hmem : recordOf c weight ∈ (emitBlock .fineGrain readTs b).filter
        fun r => r.1.key = w.dst := by
      rw [hone]
      exact List.mem_singleton_self _
    have hmem := (List.mem_filter.mp hmem).1
    have hcold : c.old = old := congrArg Change.old herase
    have hintra : c.intra = w.txn.intra := congrArg Change.intra herase
    have hcoarse : (recordOf c weight).1.getCoarseC = old.e := by
      show clearTmp c.old.e = old.e
      rw [hcold, clearTmp_of_lt hold]
    have hcreation : (recordOf c weight).1.creation.e = old.e := hcoarse
    have hindex : (recordOf c weight).2.index = w.txn.intra := hintra
    have htime : w.time.e = w.epoch ∧ w.time.i = w.txn.intra := ⟨rfl, rfl⟩
    rw [Composite.lt_def, htime.1, htime.2] at hout
    unfold emitBlock at hmem
    by_cases hown : b.timestamp = readTs.e
    · rw [if_pos ⟨rfl, hown⟩] at hmem
      have hvisible := List.mem_takeWhile_imp hmem
      simp only [EdgeWithIndex.isVisibleAtCompositeInv, Composite.lt_def, Composite.le_def,
        decide_eq_true_eq, hcreation, hindex] at hvisible
      omega
    · rw [if_neg fun h => hown h.2] at hmem
      have hvisible := List.mem_takeWhile_imp hmem
      simp only [EdgeWithIndex.isVisibleAt, decide_eq_true_eq, hcoarse] at hvisible
      omega

end Deleting

/-- Transform of the epoch of the deletion. -/
theorem Deleting.transform (h : Deleting w old kept v) (hch : Chained v) (hold : old.e < 2 ^ 31)
    (vb : Nat) (hasc : ∀ k, v.changes k ≠ [] → v.stamp (w.epoch % 16) ≤ v.stamp k) :
    Deleted w old kept (v.transform S (w.epoch % 16) vb) := by
  obtain ⟨b, hts, hrecords, hrecorded⟩ := hch.recorded_transform (S := S) h.full vb hasc
  refine ⟨?_, ?_, ?_⟩
  · intro g hg
    rw [head_transform h.full] at hg
    obtain ⟨g₀, hg₀, hdel⟩ := publishAll_deleted hg
    obtain ⟨g₁, hg₁, hdel₁⟩ := h.head
    rw [hg₁] at hg₀
    rw [hdel, ← Option.some.inj hg₀, hdel₁]
  · intro k
    rw [entriesOf_transform, h.entries]
    split_ifs
    · rfl
    · rfl
  · intro readTs hout
    rw [hrecorded, ← h.recorded readTs]
    split_ifs with hlt
    · rfl
    · rw [h.hidden hold (hts.trans h.stamp) hrecords hlt hout, List.nil_append]

theorem Deleted.congr (h : Deleted w old kept v) (hu : Untouched w.dst v u) :
    Deleted w old kept u where
  head g hg := by
    rcases hu.head with heq | ⟨hnone, -⟩
    · exact h.head g (heq ▸ hg)
    · rw [hnone] at hg
      cases hg
  entries k := by rw [hu.entries, h.entries]
  recorded readTs hout := by rw [hu.recorded, h.recorded readTs hout]

/-- After the deletion a scan hands over the edge from the blocks only. -/
theorem Deleting.emitted (h : Deleting w old kept v) (readTs : Composite) :
    (v.emitted readTs w.dst).length = kept readTs := by
  rw [← h.recorded]
  apply length_emitted_deleted
  · intro g hg
    obtain ⟨g', hg', hdel⟩ := h.head
    rw [hg] at hg'
    rw [Option.some.inj hg', hdel]
  · intro k c hc
    rw [h.entries] at hc
    split_ifs at hc
    · rw [List.mem_singleton.mp hc]
      exact isDelete_setDelete _
    · cases hc

theorem Deleted.emitted_eq (h : Deleted w old kept v) (readTs : Composite) :
    (v.emitted readTs w.dst).length = (v.recorded readTs w.dst).length := by
  apply length_emitted_deleted h.head
  intro k c hc
  rw [h.entries] at hc
  cases hc

theorem Deleted.emitted (h : Deleted w old kept v) {readTs : Composite}
    (hout : readTs.e < old.e ∨ w.time < readTs) :
    (v.emitted readTs w.dst).length = kept readTs := by
  rw [h.emitted_eq, h.recorded readTs hout]

theorem entriesOf_addVersion (delete pending : Bool) (last : Composite) (lastIndex weight k : Nat) :
    (v.addVersion delete pending last lastIndex weight w).entriesOf k w.dst =
      v.entriesOf k w.dst ++ if k = w.epoch % 16 then [newChange delete last w] else [] := by
  unfold entriesOf
  rw [addVersion_erase, List.filter_append]
  congr 1
  split_ifs
  · simp [key_newChange]
  · rfl

/-- The deletion of an edge without entries. -/
theorem Deleting.start (hfree : ∀ k, v.entriesOf k w.dst = [])
    (hstamp : v.stamp (w.epoch % 16) = w.epoch) (old : Composite) (pending : Bool)
    (lastIndex weight : Nat) : Deleting w old (fun readTs => (v.recorded readTs w.dst).length)
      (v.addVersion true pending old lastIndex weight w) where
  head := by
    rw [head_addVersion, Function.update_self]
    exact ⟨_, rfl, rfl⟩
  stamp := by rw [stamp_addVersion, hstamp]
  entries k := by rw [entriesOf_addVersion, hfree, List.nil_append]
  recorded readTs := by
    rw [recorded_congr]
    · rw [vbm_addVersion]
    · rw [vbm_addVersion]

/-- An edge whose newest version is of epoch 0 has no entry, and no scan hands over a record. -/
def Initial (v : View) (d : Nat) : Prop :=
  ∀ g, v.head d = some g → g.time.e = 0 →
    (∀ k, v.entriesOf k d = []) ∧ ∀ readTs, v.recorded readTs d = []

theorem Initial.congr (h : Initial v d) (hu : Untouched d v u) : Initial u d := by
  intro g hg hz
  rcases hu.head with heq | ⟨hnone, -⟩
  · obtain ⟨hentries, hrecorded⟩ := h g (heq ▸ hg) hz
    exact ⟨fun k => (hu.entries k).trans (hentries k),
      fun readTs => (hu.recorded readTs).trans (hrecorded readTs)⟩
  · rw [hnone] at hg
    cases hg

theorem Initial.transform (h : Initial v d) (hch : Chained v) (hne : v.changes slot ≠ []) (vb : Nat)
    (hasc : ∀ k, v.changes k ≠ [] → v.stamp slot ≤ v.stamp k) :
    Initial (v.transform S slot vb) d := by
  by_cases hnil : v.entriesOf slot d = []
  · exact h.congr (Untouched.transform hch hne vb hasc hnil)
  · -- the edge was written, and its epoch does not fall to 0
    have hpos : 1 ≤ v.stamp slot := Nat.one_le_of_lt (hch.slot slot hne).2
    intro g hg hz
    rw [head_transform hne] at hg
    have hle := Stage.publishAll_le (S := S) (n := 1) hpos (by
      intro g hg
      by_contra hno
      exact hnil ((h g hg (Nat.lt_one_iff.mp (not_le.mp hno))).1 slot)) g hg
    omega

end View

def Op.Writes (d : Nat) : Op → Prop
  | .insert _ w | .delete _ w => w.dst = d
  | .transform _ _ => False

theorem Applied.writes_op {env : Env} {o : Applied} {d : Nat} :
    (o.op env).Writes d ↔ o.write.dst = d := by
  obtain ⟨delete, w⟩ := o
  cases delete
  · exact Iff.rfl
  · exact Iff.rfl

namespace Trace

variable {S : StdSort} {h h' : Trace} {op : Op} {w : Write} {d : Nat} {readTs : Composite}

/-- An operation in the order of the epochs that does not write the edge. -/
def Apart (S : StdSort) (d : Nat) (h : Trace) (op : Op) : Prop := h.Orderly S op ∧ ¬op.Writes d

/-- An operation on other edges concerns an edge only when it publishes its entries. -/
theorem Moves.apart (hm : Moves S h h' op) (hs : Standing h) (hd : ¬op.Writes d) :
    View.Untouched d h.state.view h'.state.view ∨ ∃ slot vb,
      h.state.view.entriesOf slot d ≠ [] ∧ h.state.view.changes slot ≠ [] ∧
      (∀ k, h.state.view.changes k ≠ [] → h.state.view.stamp slot ≤ h.state.view.stamp k) ∧
      h'.state.view = h.state.view.transform S slot vb := by
  cases hm with
  | unknown env w log merged => exact Or.inl (.merge merged)
  | wrote env o u merged lt free head_lt outcome =>
    have hopen : View.Untouched d h.state.view (u.openTvb o.write.epoch) :=
      (View.Untouched.merge merged).trans (.openTvb free)
    left
    cases outcome with
    | refused hlog hview =>
      rw [hview]
      exact hopen
    | accepted pending lastIndex hlog hknown hfits hview =>
      rw [hview]
      apply hopen.trans
      apply View.Untouched.addVersion
      exact fun heq => hd (Applied.writes_op.mpr heq)
  | idle epoch vb log view =>
    left
    rw [view]
    exact ⟨Or.inl rfl, fun _ => rfl, fun _ _ => rfl, fun _ => rfl⟩
  | transformed epoch vb log stamp full oldest view =>
    by_cases hnil : h.state.view.entriesOf (epoch % 16) d = []
    · left
      rw [view]
      exact .transform hs.chained full vb oldest hnil
    · exact Or.inr ⟨epoch % 16, vb, hnil, full, oldest, view⟩

/-- A vertex on which the edge was deleted by the write `w` and not written since. -/
structure Removed (w : Write) (old : Composite) (kept : Composite → Nat) (h : Trace) : Prop extends
    Standing h where
  stage : h.state.view.Deleting w old kept ∨ h.state.view.Deleted w old kept

theorem Removed.step {old : Composite} {kept : Composite → Nat} (hr : Removed w old kept h)
    (hold : old.e < 2 ^ 31) (hok : h.Apart S w.dst op)
    (hstep : h.step .fineGrain S op = some h') : Removed w old kept h' := by
  refine ⟨hr.toStanding.step hok.1 hstep, ?_⟩
  have hmoves := (hr.toStanding.moves hok.1 hstep).2
  rcases hmoves.apart hr.toStanding hok.2 with hu | ⟨slot, vb, hne, hfull, hasc, hview⟩
  · exact hr.stage.imp (fun hs => hs.congr hu) fun hs => hs.congr hu
  · right
    rcases hr.stage with hs | hs
    · obtain rfl : slot = w.epoch % 16 := by
        by_contra hslot
        exact hne ((hs.entries slot).trans (if_neg hslot))
      rw [hview]
      exact hs.transform hr.chained hold vb hasc
    · exact absurd (hs.entries slot) hne

/-- Every edge of epoch 0 is as it was loaded. -/
structure Primed (h : Trace) : Prop extends Standing h where
  initial : ∀ d, h.state.view.Initial d

theorem Primed.step (hp : Primed h) (hord : h.Orderly S op)
    (hstep : h.step .fineGrain S op = some h') : Primed h' := by
  refine ⟨hp.toStanding.step hord hstep, ?_⟩
  intro d
  have hmoves := (hp.toStanding.moves hord hstep).2
  cases hmoves with
  | unknown env w log merged => exact (hp.initial d).congr (.merge merged)
  | wrote env o u merged lt free head_lt outcome =>
    have hopen := ((hp.initial d).congr (.merge merged)).congr (.openTvb free)
    cases outcome with
    | refused hlog hview =>
      rw [hview]
      exact hopen
    | accepted pending lastIndex hlog hknown hfits hview =>
      rw [hview]
      by_cases hd : o.write.dst = d
      · intro g hg hz
        rw [View.head_addVersion, ← hd, Function.update_self] at hg
        rw [← Option.some.inj hg] at hz
        exact absurd hz o.write.epoch_pos.ne'
      · exact hopen.congr (.addVersion hd ..)
  | idle epoch vb log view =>
    rw [view]
    exact hp.initial d
  | transformed epoch vb log stamp full oldest view =>
    rw [view]
    exact (hp.initial d).transform hp.chained full vb oldest

theorem Primed.run {s : VertexEdges} (hs : s.Built) {es : List Op}
    (hord : Along (Trace.step .fineGrain S) (Orderly S) ⟨s, []⟩ es)
    (hrun : exec (Trace.step .fineGrain S) ⟨s, []⟩ es = some h) : Primed h := by
  refine invariant_of_step (fun _ _ _ hi ho hstep => hi.step ho hstep) ?_ hord hrun
  refine ⟨Standing.start hs, ?_⟩
  intro d g _ _
  have hnil : s.view.changes = fun _ => [] := funext hs.changes
  have hvbm : s.view.vbm = .empty := hs.vbm
  constructor
  · intro k
    rw [View.entriesOf, hnil]
    rfl
  · intro readTs
    rw [View.recorded, View.chainScan, hvbm]
    split_ifs
    · rfl
    · rfl

/-- The slot of the oldest pending epoch can be transformed. -/
theorem Standing.publish (hs : Standing h) {slot : Nat} (hfull : h.state.view.changes slot ≠ [])
    (hmin : ∀ k, h.state.view.changes k ≠ [] → h.state.view.stamp slot ≤ h.state.view.stamp k)
    (d vb : Nat) : h.Apart S d (.transform (h.state.view.stamp slot) vb) ∧
      ∃ u, h.step .fineGrain S (.transform (h.state.view.stamp slot) vb) = some u ∧
        u.state.view = h.state.view.transform S slot vb := by
  have hslot := (hs.chained.slot slot hfull).1
  constructor
  · refine ⟨?_, fun hno => hno⟩
    intro k _
    by_cases hk : h.state.view.changes k = []
    · exact Or.inl (VertexEdges.changes_eq_nil.mp hk)
    · exact Or.inr (hmin k hk)
  · obtain ⟨n, t, ht, -, hview⟩ := VertexEdges.transform_refines (S := S) hs.wf slot vb
    refine ⟨⟨t, h.log⟩, ?_, hview⟩
    have hown : (h.state.tmpVb (h.state.view.stamp slot % 16)).timestamp =
        h.state.view.stamp slot := by
      rw [hslot]
      rfl
    rw [Trace.step, if_pos hown, hslot, ht]
    rfl

section Delete

variable {env : Env} {x : Item} {r : WriteResult}

end Delete

end Trace

end AVBGraph
