import AVBGraph.Vertex.Refine
import Mathlib.Data.List.TakeWhile

namespace AVBGraph

open Framework

/-- A scan that starts in a block not older than its epoch emits from every block down to it. -/
theorem scan_eq_flatMap {e : Nat} {vbs : List VersionBlock} (h : Linked e vbs) {readTs : Composite}
    (he : readTs.e ≤ e) (hlt : ∀ vb ∈ vbs, ∀ r ∈ vb.records, r.1.block < 2 ^ 31) :
    scan .fineGrain readTs vbs =
      vbs.flatMap fun vb => if vb.timestamp < readTs.e then [] else emitBlock .fineGrain readTs vb := by
  induction vbs generalizing e with
  | nil => rfl
  | cons vb rest ih =>
    obtain ⟨rfl, hlast, hrest⟩ := h
    have hle := hrest.le
    have hnext : (if vb.endsBefore .fineGrain readTs.e then [] else scan .fineGrain readTs rest) =
        rest.flatMap fun vb => if vb.timestamp < readTs.e then [] else emitBlock .fineGrain readTs vb := by
      by_cases hend : vb.lastEpoch < readTs.e
      · rw [if_pos (by simpa [VersionBlock.endsBefore] using hend), eq_comm, List.flatMap_eq_nil_iff]
        intro w hw
        rw [if_pos ((hle w hw).trans_lt hend)]
      · rw [if_neg (by simpa [VersionBlock.endsBefore] using hend)]
        exact ih hrest (not_lt.mp hend) fun w hw => hlt w (by simp [hw])
    rw [scan, List.flatMap_cons, if_neg (not_lt.mpr he), hnext]
    by_cases hts : vb.timestamp = readTs.e
    · have hrest : (rest.flatMap fun vb => if vb.timestamp < readTs.e then [] else
          emitBlock .fineGrain readTs vb) = [] := by
        rw [List.flatMap_eq_nil_iff]
        intro w hw
        rw [if_pos ((hle w hw).trans_lt (hts ▸ hlast))]
      simp only [hts, hrest, and_self, if_true]
      by_cases hnil : vb.records = []
      · simp [hnil, emitBlock]
      · simp [hnil]
    · simp only [hts, and_false, if_false]
      by_cases hskip : vb.skipped readTs.e = true
      · rw [if_pos hskip]
        -- a skipped block shows nothing: its first record is too young
        have hemit : emitBlock .fineGrain readTs vb = [] := by
          unfold emitBlock
          rw [if_neg (fun h => hts h.2)]
          cases hr : vb.records with
          | nil => rfl
          | cons r rs =>
            have hlt31 := hlt vb (by simp) r (by simp [hr])
            have : readTs.e < r.1.block := by simpa [VersionBlock.skipped, hr] using hskip
            refine List.takeWhile_cons_of_neg ?_
            simp [EdgeWithIndex.isVisibleAt, EdgeWithIndex.getCoarseC, clearTmp_of_lt hlt31, this]
        rw [hemit, List.nil_append]
      · rw [if_neg hskip]

/-- A block emits records of its own, each visible at the reader. -/
theorem mem_emitBlock {readTs : Composite} {vb : VersionBlock} {r : Item}
    (h : r ∈ emitBlock .fineGrain readTs vb) : r ∈ vb.records ∧
      (r.1.creation < readTs ∨ vb.timestamp ≠ readTs.e ∧ r.1.getCoarseC ≤ readTs.e) := by
  unfold emitBlock at h
  split_ifs at h with hts
  · have hvis := List.mem_takeWhile_imp h
    simp only [EdgeWithIndex.isVisibleAtCompositeInv, decide_eq_true_eq] at hvis
    exact ⟨(List.takeWhile_prefix _).subset h, Or.inl hvis.1⟩
  · have hvis := List.mem_takeWhile_imp h
    simp only [EdgeWithIndex.isVisibleAt, decide_eq_true_eq] at hvis
    exact ⟨(List.takeWhile_prefix _).subset h, Or.inr ⟨fun heq => hts ⟨rfl, heq⟩, hvis⟩⟩

/-- What a scan emits comes from a block of the chain. -/
theorem mem_scan {b : Build} {readTs : Composite} {vbs : List VersionBlock} {r : Item}
    (h : r ∈ scan b readTs vbs) : ∃ vb ∈ vbs, r ∈ emitBlock b readTs vb := by
  induction vbs with
  | nil => simp [scan] at h
  | cons vb rest ih =>
    set next := if vb.endsBefore b readTs.e then [] else scan b readTs rest with hdef
    have hnext : r ∈ next → ∃ w ∈ vb :: rest, r ∈ emitBlock b readTs w := by
      intro hr
      rw [hdef] at hr
      split_ifs at hr
      · simp at hr
      · obtain ⟨w, hw, hrw⟩ := ih hr
        exact ⟨w, by simp [hw], hrw⟩
    have hboth : r ∈ emitBlock b readTs vb ++ next → ∃ w ∈ vb :: rest, r ∈ emitBlock b readTs w :=
      fun hr => (List.mem_append.mp hr).elim (fun hr => ⟨vb, by simp, hr⟩) hnext
    rw [scan, ← hdef] at h
    split_ifs at h
    · simp at h
    · exact hboth h
    · exact hnext h
    · exact hboth h

def Head.visible (readTs : Composite) (h : Head) : Bool := !h.deleted && h.time < readTs

/-- What the scan of a TmpVersionBlock hands over for an entry. -/
def Change.item (c : Change) : Item := (⟨c.edge, c.old.e, c.old.i⟩, ⟨c.weight, 0, c.intra⟩)

namespace View

/-- `scanTvb` on changes. -/
def scanChanges (readTs : Composite) (timestamp : Nat) : List Change → List Change
  | [] => []
  | c :: cs =>
    if isDelete c.edge then scanChanges readTs timestamp cs
    else if readTs ≤ ⟨timestamp, c.intra⟩ then
      if c.old < readTs then c :: scanChanges readTs timestamp cs
      else scanChanges readTs timestamp cs
    else []

/-- What a scan emits is visible, and no later entry ends it. -/
theorem mem_scanChanges {readTs : Composite} {timestamp : Nat} {cs : List Change} {c : Change}
    (h : c ∈ scanChanges readTs timestamp cs) : ∃ newer older, cs = newer ++ c :: older ∧
      c.old < readTs ∧ isDelete c.edge = false ∧
      ∀ x ∈ newer ++ [c], isDelete x.edge = true ∨ readTs ≤ ⟨timestamp, x.intra⟩ := by
  induction cs with
  | nil => simp [scanChanges] at h
  | cons x xs ih =>
    have hrest : (isDelete x.edge = true ∨ readTs ≤ ⟨timestamp, x.intra⟩) →
        c ∈ scanChanges readTs timestamp xs → ∃ newer older, x :: xs = newer ++ c :: older ∧
          c.old < readTs ∧ isDelete c.edge = false ∧
          ∀ y ∈ newer ++ [c], isDelete y.edge = true ∨ readTs ≤ ⟨timestamp, y.intra⟩ := by
      intro hx hc
      obtain ⟨newer, older, rfl, hold, hdel, hall⟩ := ih hc
      exact ⟨x :: newer, older, rfl, hold, hdel, by simpa using ⟨hx, by simpa using hall⟩⟩
    rw [scanChanges] at h
    split_ifs at h with hd hle hlt
    · exact hrest (Or.inl hd) h
    · rcases List.mem_cons.mp h with rfl | h
      · exact ⟨[], xs, rfl, hlt, by simpa using hd, by simp [hle]⟩
      · exact hrest (Or.inr hle) h
    · exact hrest (Or.inr hle) h
    · simp at h

def scanTvbs (v : View) (readTs : Composite) : List Change :=
  (List.range 16).flatMap fun slot =>
    if v.vbm.activeTvbMask slot then scanChanges readTs (v.stamp slot) (v.changes slot).reverse
    else []

def chainScan (v : View) (readTs : Composite) : List Item :=
  if readTs.e ≤ v.vbm.endEpoch then scan .fineGrain readTs v.vbm.vbs else []

theorem mem_chainScan {v : View} {readTs : Composite} {r : Item} (h : r ∈ v.chainScan readTs) :
    ∃ vb ∈ v.vbm.vbs, r ∈ emitBlock .fineGrain readTs vb := by
  unfold chainScan at h
  split_ifs at h
  · exact mem_scan h
  · simp at h

/-- The weights that a scan hands over for one destination. -/
def emitted (v : View) (readTs : Composite) (d : Nat) : List Nat :=
  ((v.head d).filter (Head.visible readTs)).toList.map Head.weight ++
    ((v.scanTvbs readTs).filter fun c => c.key = d).map Change.weight ++
    ((v.chainScan readTs).filter fun r => r.1.key = d).map fun r => r.2.e

end View

namespace VertexEdges

variable {s : VertexEdges} {readTs : Composite}

theorem scanTvb_eq (timestamp : Nat) (xs : List VersionEntry) :
    scanTvb readTs timestamp xs =
      (View.scanChanges readTs timestamp (xs.map VersionEntry.change)).map Change.item := by
  induction xs with
  | nil => rfl
  | cons x xs ih =>
    have hedge : x.change.edge = x.edge := rfl
    have hintra : x.change.intra = x.newIntraC := rfl
    have hold : x.change.old = x.old := rfl
    simp only [scanTvb, List.map_cons, View.scanChanges, hedge, hintra, hold, ih]
    split_ifs <;> rfl

theorem scanTvbs_eq : s.scanTvbs readTs = (s.view.scanTvbs readTs).map Change.item := by
  unfold scanTvbs View.scanTvbs
  rw [List.map_flatMap]
  refine List.flatMap_congr fun slot _ => ?_
  have hmask : s.view.vbm.activeTvbMask slot = s.vbm.activeTvbMask slot := rfl
  rw [hmask]
  split_ifs
  · rw [scanTvb_eq, List.map_reverse]
    rfl
  · rfl

theorem forEachEdgeWithProperty_eq : s.forEachEdgeWithProperty .fineGrain readTs =
    s.items.filter (visible .fineGrain readTs) ++ (s.view.scanTvbs readTs).map Change.item ++
      s.view.chainScan readTs := by
  unfold forEachEdgeWithProperty
  rw [if_pos rfl, scanTvbs_eq]
  simp only [chainScan, walk_eq_scan]
  rfl

/-- The scan of a vertex, destination by destination. -/
theorem emitted_view (h : Rep s) (d : Nat) :
    ((s.forEachEdgeWithProperty .fineGrain readTs).filter fun x => x.1.key = d).map
      (fun x => x.2.e) = s.view.emitted readTs d := by
  have hitems : (s.items.filter (visible .fineGrain readTs)).filter (fun x => x.1.key = d) =
      (s.item d).toList.filter (visible .fineGrain readTs) := by
    rw [List.filter_filter, ← h.filter_items, List.filter_filter]
    exact List.filter_congr fun x _ => Bool.and_comm _ _
  rw [forEachEdgeWithProperty_eq, List.filter_append, List.filter_append, List.map_append,
    List.map_append, hitems, List.filter_map, List.map_map]
  unfold View.emitted
  congr 2
  cases hi : s.item d with
  | none => simp [view, hi]
  | some x =>
    have hv : visible .fineGrain readTs x = (headOf x).visible readTs := rfl
    have hw : (headOf x).weight = x.2.e := rfl
    cases hx : (headOf x).visible readTs with
    | false => simp [view, hi, hv, hx, Option.filter]
    | true => simp [view, hi, hv, hx, hw, Option.filter]

/-- The destinations that for_each_edge hands over are counted by the weights. -/
theorem count_forEachEdge (h : Rep s) (d : Nat) :
    ((s.forEachEdge .fineGrain readTs).map EdgeWithIndex.key).count d =
      (s.view.emitted readTs d).length := by
  rw [← emitted_view h, forEachEdge, List.map_map, List.length_map, List.count_eq_countP,
    List.countP_map, List.countP_eq_length_filter]
  congr 1

end VertexEdges

end AVBGraph
