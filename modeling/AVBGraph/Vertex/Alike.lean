import AVBGraph.Vertex.Degree

namespace AVBGraph

open Framework Function

/-- A buffered entry without the position of its item. -/
def VersionEntry.unplaced (x : VersionEntry) : VersionEntry := { x with offset := 0, mergeTimes := 0 }

theorem VersionEntry.unplaced_eq {x y : VersionEntry} : x.unplaced = y.unplaced ↔
    x.lastEpoch = y.lastEpoch ∧ x.oldIntraC = y.oldIntraC ∧ x.newIntraC = y.newIntraC ∧
      x.txn = y.txn ∧ x.edge = y.edge ∧ x.weight = y.weight ∧ x.link = y.link := by
  simp [VersionEntry.unplaced]

namespace VertexEdges

variable {S : StdSort} {b : Build} {s t u : VertexEdges} {slot epoch vb i : Nat}

/-- Readers and Transform cannot tell the two vertices apart: they may differ in the positions of
their items, in TmpVersionBlocks without entries, and in deleted edges without entries. -/
structure Alike (s t : VertexEdges) : Prop where
  left : Wf s
  right : Wf t
  entries : ∀ k, (t.tmpVb k).entries.map VersionEntry.unplaced =
    (s.tmpVb k).entries.map VersionEntry.unplaced
  timestamp : ∀ k, (s.tmpVb k).entries ≠ [] → (t.tmpVb k).timestamp = (s.tmpVb k).timestamp
  mask : ∀ k, (s.tmpVb k).entries ≠ [] → t.vbm.activeTvbMask k = s.vbm.activeTvbMask k
  edgeNum : t.edgeNum = s.edgeNum
  endEpoch : t.vbm.endEpoch = s.vbm.endEpoch
  vbs : t.vbm.vbs = s.vbm.vbs
  item : ∀ d, t.item d = s.item d ∨ t.item d = none ∧ ∃ x, s.item d = some x ∧
    isDelete x.1.e = true ∧ ∀ k, ∀ y ∈ (s.tmpVb k).entries, y.key ≠ d

/-- A merge keeps the edges with buffered entries: their words carry TMPVB_MASK. -/
def KeepsBuffered (oldest : Nat) (s : VertexEdges) : Prop :=
  ∀ slot, ∀ x ∈ (s.tmpVb slot).entries, ∀ y, s.item x.key = some y → dropped oldest y.1 = false

namespace Alike

theorem refl (h : Wf s) : Alike s s where
  left := h
  right := h
  entries _ := rfl
  timestamp _ _ := rfl
  mask _ _ := rfl
  edgeNum := rfl
  endEpoch := rfl
  vbs := rfl
  item _ := Or.inl rfl

theorem length (h : Alike s t) (k : Nat) :
    (t.tmpVb k).entries.length = (s.tmpVb k).entries.length := by
  have := congrArg List.length (h.entries k)
  rwa [List.length_map, List.length_map] at this

theorem entries_eq_nil (h : Alike s t) (k : Nat) :
    (t.tmpVb k).entries = [] ↔ (s.tmpVb k).entries = [] := by
  rw [← List.length_eq_zero_iff, h.length, List.length_eq_zero_iff]

theorem mem_entries (h : Alike s t) {k : Nat} {y : VersionEntry} (hy : y ∈ (s.tmpVb k).entries) :
    ∃ z ∈ (t.tmpVb k).entries, z.key = y.key := by
  have hmem := List.mem_map_of_mem (f := VersionEntry.unplaced) hy
  rw [← h.entries] at hmem
  obtain ⟨z, hz, heq⟩ := List.mem_map.mp hmem
  have hedge := (VersionEntry.unplaced_eq.mp heq).2.2.2.2.1
  refine ⟨z, hz, ?_⟩
  rw [VersionEntry.key, hedge]
  rfl

theorem trans (h : Alike s t) (h' : Alike t u) : Alike s u where
  left := h.left
  right := h'.right
  entries k := (h'.entries k).trans (h.entries k)
  timestamp k hk := by
    rw [h'.timestamp k fun hnil => hk ((h.entries_eq_nil k).mp hnil), h.timestamp k hk]
  mask k hk := by
    rw [h'.mask k fun hnil => hk ((h.entries_eq_nil k).mp hnil), h.mask k hk]
  edgeNum := h'.edgeNum.trans h.edgeNum
  endEpoch := h'.endEpoch.trans h.endEpoch
  vbs := h'.vbs.trans h.vbs
  item d := by
    rcases h'.item d with heq | ⟨hnone, x, hx, hdel, hno⟩
    · rw [heq]
      exact h.item d
    · rcases h.item d with heq | ⟨hnone', hrest⟩
      · refine Or.inr ⟨hnone, x, heq ▸ hx, hdel, ?_⟩
        intro k y hy hkey
        obtain ⟨z, hz, hzk⟩ := h.mem_entries hy
        exact hno k z hz (hzk.trans hkey)
      · exact Or.inr ⟨hnone, hrest⟩

/-- A merge that drops no edge with a buffered entry. -/
theorem prepare (h : Wf s) {env : Env} (hkeep : KeepsBuffered env.oldest s) :
    Alike s (s.prepare S env) where
  left := h
  right := h.prepare hkeep
  entries k := by rw [tmpVb_prepare]
  timestamp k _ := by rw [tmpVb_prepare]
  mask k _ := by rw [vbm_prepare]
  edgeNum := edgeNum_prepare
  endEpoch := by rw [vbm_prepare]
  vbs := by rw [vbm_prepare]
  item d := by
    refine (item_prepare h.rep d).imp_right ?_
    rintro ⟨hnone, x, hx, hdrop⟩
    refine ⟨hnone, x, hx, ?_, ?_⟩
    · by_contra hno
      simp [dropped, hno] at hdrop
    · rintro k y hy rfl
      rw [hkeep k y hy x hx] at hdrop
      cases hdrop

/-- Opening a TmpVersionBlock without entries. -/
theorem openTvb (h : Wf s) (b : Build) {epoch : Nat} (hepoch : epoch < 2 ^ 31)
    (hfree : SlotFree s epoch) : Alike s (s.openTvb b epoch).2 := by
  have hwf := h.openTvb b hepoch
  unfold VertexEdges.openTvb at hwf ⊢
  by_cases hts : (s.tmpVb (epoch % 16)).timestamp = epoch
  · rw [if_pos hts]
    exact refl h
  · rw [if_neg hts] at hwf ⊢
    have hnil : (s.tmpVb (epoch % 16)).entries = [] := hfree.resolve_left hts
    have hother : ∀ k, (s.tmpVb k).entries ≠ [] → k ≠ epoch % 16 := by
      rintro k hk rfl
      exact hk hnil
    refine ⟨h, hwf, ?_, ?_, ?_, rfl, ?_, ?_, ?_⟩
    · intro k
      by_cases hk : k = epoch % 16
      · subst hk
        simp [hnil]
      · simp [hk]
    · intro k hk
      simp [hother k hk]
    · intro k hk
      dsimp only
      split_ifs
      · simp [VersionBlockManager.markTvbActive, hother k hk]
      · rfl
    · dsimp only
      split_ifs <;> rfl
    · dsimp only
      split_ifs <;> rfl
    · intro d
      left
      unfold VertexEdges.item items locs
      congr 1

theorem setItem (h : Alike s t) {l l' : Loc} (hl : l ∈ s.locs) (hl' : l' ∈ t.locs) {y : Item}
    (hy : y.1.key = (s.itemE l).key) (hy' : y.1.key = (t.itemE l').key) :
    Alike (s.setItem l y) (t.setItem l' y) where
  left := h.left.setItem hy
  right := h.right.setItem hy'
  entries k := by
    rw [tmpVb_setItem, tmpVb_setItem]
    exact h.entries k
  timestamp k hk := by
    rw [tmpVb_setItem] at hk ⊢
    rw [tmpVb_setItem]
    exact h.timestamp k hk
  mask k hk := by
    rw [tmpVb_setItem] at hk
    rw [vbm_setItem, vbm_setItem]
    exact h.mask k hk
  edgeNum := by
    rw [edgeNum_setItem, edgeNum_setItem]
    exact h.edgeNum
  endEpoch := by
    rw [vbm_setItem, vbm_setItem]
    exact h.endEpoch
  vbs := by
    rw [vbm_setItem, vbm_setItem]
    exact h.vbs
  item d := by
    rw [h.left.rep.item_setItem hl hy, h.right.rep.item_setItem hl' hy', ← hy, ← hy', tmpVb_setItem]
    by_cases hd : d = y.1.key
    · simp [hd]
    · simp only [if_neg hd]
      exact h.item d

theorem map_modify_unplaced {g : VersionEntry → VersionEntry}
    (hg : ∀ x, (g x).unplaced = g x.unplaced) (index : Nat) {xs ys : List VersionEntry}
    (h : ys.map VersionEntry.unplaced = xs.map VersionEntry.unplaced) :
    (ys.modify index g).map VersionEntry.unplaced =
      (xs.modify index g).map VersionEntry.unplaced := by
  rw [map_modify hg, map_modify hg, h]

theorem changeLast (h : Alike s t) (link : VersionLink) (addr : Nat) :
    Alike (s.changeLast link addr) (t.changeLast link addr) := by
  have hnil : ∀ (xs : List VersionEntry) (f : VersionEntry → VersionEntry),
      xs.modify link.index f = [] ↔ xs = [] := by
    intro xs f
    rw [← List.length_eq_zero_iff, List.length_modify, List.length_eq_zero_iff]
  have hentries : ∀ v : VertexEdges, ∀ k, ((v.changeLast link addr).tmpVb k).entries = [] ↔
      (v.tmpVb k).entries = [] := by
    intro v k
    unfold VertexEdges.changeLast
    by_cases hk : k = link.block % 16
    · subst hk
      simp [TmpVersionBlock.changeLastIndex, hnil]
    · simp [hk]
  have hstamp : ∀ v : VertexEdges, ∀ k, ((v.changeLast link addr).tmpVb k).timestamp =
      (v.tmpVb k).timestamp := by
    intro v k
    unfold VertexEdges.changeLast
    by_cases hk : k = link.block % 16
    · subst hk
      simp [TmpVersionBlock.changeLastIndex]
    · simp [hk]
  refine ⟨h.left.changeLast link addr, h.right.changeLast link addr, ?_, ?_, ?_, h.edgeNum,
    h.endEpoch, h.vbs, ?_⟩
  · intro k
    unfold VertexEdges.changeLast
    by_cases hk : k = link.block % 16
    · subst hk
      simp only [update_self]
      unfold TmpVersionBlock.changeLastIndex
      apply map_modify_unplaced
      · intro x
        rfl
      · exact h.entries (link.block % 16)
    · simp only [update_of_ne hk]
      exact h.entries k
  · intro k hk
    rw [hstamp, hstamp]
    exact h.timestamp k fun hn => hk ((hentries s k).mpr hn)
  · intro k hk
    exact h.mask k fun hn => hk ((hentries s k).mpr hn)
  · intro d
    refine (h.item d).imp_right ?_
    rintro ⟨hnone, x, hx, hdel, hno⟩
    refine ⟨hnone, x, hx, hdel, ?_⟩
    intro k y hy
    unfold VertexEdges.changeLast at hy
    by_cases hk : k = link.block % 16
    · subst hk
      simp only [update_self] at hy
      obtain ⟨z, hz, rfl | rfl⟩ := mem_modify hy
      · exact hno _ _ hz
      · exact hno _ z hz
    · simp only [update_of_ne hk] at hy
      exact hno k y hy

end Alike

section Transform

/-- Two vertices in the middle of Transform. -/
structure Abreast (n slot : Nat) (p q : Progress) : Prop where
  state : Alike p.state q.state
  length : (p.state.tmpVb slot).entries.length = n
  edgeNum : q.edgeNum = p.edgeNum
  records : q.records = p.records

theorem Alike.entry (h : Alike s t) (slot i : Nat) :
    (t.entry slot i).unplaced = (s.entry slot i).unplaced := by
  have hmap : ∀ v : VertexEdges, (v.entry slot i).unplaced =
      ((v.tmpVb slot).entries.map VersionEntry.unplaced).getD i default :=
    fun v => (List.getD_map (v.tmpVb slot).entries default VersionEntry.unplaced).symm
  rw [hmap, hmap, h.entries]

/-- Both vertices find the item of an entry, and it is the same. -/
theorem Abreast.locate {n : Nat} {p q : Progress} (h : Abreast n slot p q) (hi : i < n) :
    ∃ l ∈ p.state.locs, ∃ l' ∈ q.state.locs,
      p.state.locate (p.state.entry slot i) = some l ∧
      q.state.locate (q.state.entry slot i) = some l' ∧
      (q.state.itemE l').key = (p.state.itemE l).key ∧
      q.state.itemE l' = p.state.itemE l ∧ q.state.itemP l' = p.state.itemP l := by
  have hmem : ∀ v : VertexEdges, (v.tmpVb slot).entries.length = n →
      v.entry slot i ∈ (v.tmpVb slot).entries := by
    intro v hv
    unfold VertexEdges.entry
    rw [List.getD_eq_getElem _ _ (hv ▸ hi)]
    exact List.getElem_mem _
  have hp := hmem p.state h.length
  have hq := hmem q.state ((h.state.length slot).trans h.length)
  obtain ⟨l, hl, hloc, hkey⟩ := (h.state.left.placed slot _ hp).locate h.state.left.rep
  obtain ⟨l', hl', hloc', hkey'⟩ := (h.state.right.placed slot _ hq).locate h.state.right.rep
  have hedge := (VersionEntry.unplaced_eq.mp (h.state.entry slot i)).2.2.2.2.1
  have hsame : (q.state.entry slot i).key = (p.state.entry slot i).key := by
    rw [VersionEntry.key, hedge]
    rfl
  have hkeys : (q.state.itemE l').key = (p.state.itemE l).key := by
    rw [hkey', hkey, hsame]
  have hitem := h.state.left.rep.item_eq hl
  have hitem' := h.state.right.rep.item_eq hl'
  refine ⟨l, hl, l', hl', hloc, hloc', hkeys, ?_⟩
  rw [hkeys] at hitem'
  rcases h.state.item (p.state.itemE l).key with heq | ⟨hnone, -⟩
  · rw [hitem, hitem'] at heq
    exact Prod.mk.inj (Option.some.inj heq)
  · rw [hitem'] at hnone
    cases hnone

theorem Abreast.setItem {n : Nat} {p q : Progress} (h : Abreast n slot p q) {l l' : Loc}
    (hl : l ∈ p.state.locs) (hl' : l' ∈ q.state.locs) {y : Item}
    (hy : y.1.key = (p.state.itemE l).key) (hy' : y.1.key = (q.state.itemE l').key)
    (edgeNum : Int) (records : List Item) :
    Abreast n slot ⟨p.state.setItem l y, edgeNum, records⟩
      ⟨q.state.setItem l' y, edgeNum, records⟩ := by
  refine ⟨h.state.setItem hl hl' hy hy', ?_, rfl, rfl⟩
  show ((p.state.setItem l y).tmpVb slot).entries.length = n
  rw [tmpVb_setItem]
  exact h.length

theorem Abreast.changeLast {n : Nat} {p q : Progress} (h : Abreast n slot p q)
    (link : VersionLink) (addr : Nat) :
    Abreast n slot { p with state := p.state.changeLast link addr }
      { q with state := q.state.changeLast link addr } := by
  refine ⟨h.state.changeLast link addr, ?_, h.edgeNum, h.records⟩
  show ((p.state.changeLast link addr).tmpVb slot).entries.length = n
  rw [← h.length]
  unfold VertexEdges.changeLast
  by_cases hk : slot = link.block % 16
  · subst hk
    simp [TmpVersionBlock.changeLastIndex]
  · simp [hk]

theorem Abreast.publishFresh {n : Nat} {p q : Progress} (h : Abreast n slot p q) (b : Build)
    (epoch : Nat) (hi : i < n) : ∃ p' q', publishFresh b slot epoch p i = some p' ∧
      publishFresh b slot epoch q i = some q' ∧ Abreast n slot p' q' := by
  obtain ⟨l, hl, l', hl', hloc, hloc', hkey, hE, hP⟩ := h.locate hi
  obtain ⟨-, -, hintra, -, -, hweight, hlink⟩ :=
    VersionEntry.unplaced_eq.mp (h.state.entry slot i)
  unfold VertexEdges.publishFresh
  simp only [hloc, hloc', Option.map_some, hintra, hweight, hlink, hE, hP, h.edgeNum, h.records]
  refine ⟨_, _, rfl, rfl, ?_⟩
  by_cases hnext : (p.state.entry slot i).link.hasNextVB = true
  · simp only [if_pos hnext]
    exact (h.changeLast _ 0).setItem hl hl' rfl hkey.symm _ _
  · simp only [if_neg hnext]
    exact h.setItem hl hl' rfl hkey.symm _ _

theorem Abreast.publishFine {n : Nat} {p q : Progress} (h : Abreast n slot p q) (epoch : Nat)
    (hi : i < n) : ∃ p' q', publishFine slot epoch p i = some p' ∧
      publishFine slot epoch q i = some q' ∧ Abreast n slot p' q' := by
  obtain ⟨l, hl, l', hl', hloc, hloc', hkey, hE, hP⟩ := h.locate hi
  obtain ⟨hlast, hold, hintra, -, hedge, hweight, hlink⟩ :=
    VersionEntry.unplaced_eq.mp (h.state.entry slot i)
  have hk : (q.state.entry slot i).key = (p.state.entry slot i).key := by
    rw [VersionEntry.key, hedge]
    rfl
  unfold VertexEdges.publishFine
  simp only [hloc, hloc', Option.map_some, hlast, hold, hintra, hedge, hweight, hlink, hE, hP, hk,
    h.edgeNum, h.records]
  refine ⟨_, _, rfl, rfl, ?_⟩
  exact h.setItem hl hl' rfl hkey.symm _ _

theorem Abreast.publishCoarse {n : Nat} {p q : Progress} (h : Abreast n slot p q) (third : Bool)
    (epoch vb : Nat) (hi : i < n) : ∃ p' q', publishCoarse third slot epoch vb p i = some p' ∧
      publishCoarse third slot epoch vb q i = some q' ∧ Abreast n slot p' q' := by
  obtain ⟨l, hl, l', hl', hloc, hloc', hkey, hE, hP⟩ := h.locate hi
  obtain ⟨-, -, -, -, hedge, hweight, hlink⟩ :=
    VersionEntry.unplaced_eq.mp (h.state.entry slot i)
  have hk : (q.state.entry slot i).key = (p.state.entry slot i).key := by
    rw [VersionEntry.key, hedge]
    rfl
  unfold VertexEdges.publishCoarse
  simp only [hloc, hloc', Option.map_some, hedge, hweight, hlink, hE, hP, hk, h.edgeNum, h.records]
  refine ⟨_, _, rfl, rfl, ?_⟩
  by_cases hnext : (p.state.entry slot i).link.hasNextVB = true ∧ third = false
  · simp only [if_pos hnext]
    exact (h.changeLast _ vb).setItem hl hl' rfl hkey.symm _ _
  · simp only [if_neg hnext]
    exact h.setItem hl hl' rfl hkey.symm _ _

theorem Alike.transformOrder (h : Alike s t) (slot : Nat) :
    transformOrder S (t.tmpVb slot).entries = transformOrder S (s.tmpVb slot).entries := by
  have hbefore : ∀ i j, createdBefore (t.entry slot i) (t.entry slot j) =
      createdBefore (s.entry slot i) (s.entry slot j) := by
    intro i j
    obtain ⟨hi, hi', -⟩ := VersionEntry.unplaced_eq.mp (h.entry slot i)
    obtain ⟨hj, hj', -⟩ := VersionEntry.unplaced_eq.mp (h.entry slot j)
    rw [createdBefore, createdBefore, hi, hi', hj, hj']
  unfold VertexEdges.transformOrder
  rw [h.length]
  congr 1
  funext i j
  exact hbefore i j

theorem Alike.publishAll (h : Alike s t) (b : Build) (slot vb : Nat)
    (hne : (s.tmpVb slot).entries ≠ []) : ∃ p q, publishAll b S slot vb s = some p ∧
      publishAll b S slot vb t = some q ∧ Abreast (s.tmpVb slot).entries.length slot p q := by
  set n := (s.tmpVb slot).entries.length with hn
  have hlast : ∀ i, (t.entry slot i).lastEpoch = (s.entry slot i).lastEpoch := fun i =>
    (VersionEntry.unplaced_eq.mp (h.entry slot i)).1
  have hedge : ∀ i, (t.entry slot i).edge = (s.entry slot i).edge := fun i =>
    (VersionEntry.unplaced_eq.mp (h.entry slot i)).2.2.2.2.1
  unfold VertexEdges.publishAll
  simp only [h.transformOrder, hlast, hedge, h.timestamp slot hne]
  set epoch := (s.tmpVb slot).timestamp
  set order := VertexEdges.transformOrder S (s.tmpVb slot).entries with horder
  set fresh := order.takeWhile fun i => (s.entry slot i).lastEpoch = 0 with hfresh
  set rest := order.dropWhile fun i => (s.entry slot i).lastEpoch = 0 with hrest
  have hlt : ∀ i ∈ order, i < n := fun i hi => S.mem.mp hi
  have hfreshlt : ∀ p : Nat → Bool, ∀ i ∈ fresh.filter p, i < n := fun p i hi =>
    hlt i ((List.takeWhile_prefix _).subset (List.mem_filter.mp hi).1)
  have hrestlt : ∀ i ∈ rest, i < n := fun i hi => hlt i ((List.dropWhile_suffix _).subset hi)
  have hreplace : ∀ third p q i, i < n → Abreast n slot p q → ∃ p' q',
      (if b = .fineGrain then VertexEdges.publishFine slot epoch
        else VertexEdges.publishCoarse third slot epoch vb) p i = some p' ∧
      (if b = .fineGrain then VertexEdges.publishFine slot epoch
        else VertexEdges.publishCoarse third slot epoch vb) q i = some q' ∧
      Abreast n slot p' q' := by
    intro third p q i hi hpq
    cases b with
    | fineGrain => exact hpq.publishFine _ hi
    | coarse => exact hpq.publishCoarse third _ vb hi
  have hstart : Abreast n slot ⟨s, 0, []⟩ ⟨t, 0, []⟩ := ⟨h, hn.symm, rfl, rfl⟩
  have hfirst : ∃ p q, (fresh.filter fun i => !isDelete (s.entry slot i).edge).foldlM
      (VertexEdges.publishFresh b slot epoch) ⟨s, 0, []⟩ = some p ∧
      (fresh.filter fun i => !isDelete (s.entry slot i).edge).foldlM
        (VertexEdges.publishFresh b slot epoch) ⟨t, 0, []⟩ = some q ∧ Abreast n slot p q := by
    apply foldlM_sim (R := Abreast n slot) _ hstart
    intro p q i hi hpq
    exact hpq.publishFresh b _ (hfreshlt _ i hi)
  obtain ⟨p₁, q₁, hp₁, hq₁, h₁⟩ := hfirst
  obtain ⟨p₂, q₂, hp₂, hq₂, h₂⟩ := foldlM_sim (fun p q i hi hpq =>
    hreplace false p q i (hrestlt i hi) hpq) h₁
  obtain ⟨p₃, q₃, hp₃, hq₃, h₃⟩ := foldlM_sim
    (l := fresh.filter fun i => isDelete (s.entry slot i).edge) (fun p q i hi hpq =>
      hreplace true p q i (hfreshlt _ i hi) hpq) h₂
  refine ⟨p₃, q₃, ?_, ?_, h₃⟩
  · simp only [Option.bind_eq_bind, hp₁, Option.bind_some, hp₂]
    exact hp₃
  · simp only [Option.bind_eq_bind, hq₁, Option.bind_some, hq₂]
    exact hq₃

theorem Abreast.pushBlock {n : Nat} {p q : Progress} (h : Abreast n slot p q) (b : Build)
    (epoch vb : Nat) :
    Alike (pushBlock b slot epoch vb p) (pushBlock b slot epoch vb q) := by
  have hentries : ∀ (r : Progress) (k : Nat),
      ((VertexEdges.pushBlock b slot epoch vb r).tmpVb k).entries =
        if k = slot then [] else (r.state.tmpVb k).entries := by
    intro r k
    show (update r.state.tmpVb slot (r.state.tmpVb slot).clear k).entries = _
    by_cases hk : k = slot
    · subst hk
      rw [update_self, if_pos rfl]
      rfl
    · rw [update_of_ne hk, if_neg hk]
  have hstamp : ∀ (r : Progress) (k : Nat),
      ((VertexEdges.pushBlock b slot epoch vb r).tmpVb k).timestamp = (r.state.tmpVb k).timestamp := by
    intro r k
    show (update r.state.tmpVb slot (r.state.tmpVb slot).clear k).timestamp = _
    by_cases hk : k = slot
    · subst hk
      rw [update_self]
      rfl
    · rw [update_of_ne hk]
  have hmask : ∀ (r : Progress) (k : Nat),
      (VertexEdges.pushBlock b slot epoch vb r).vbm.activeTvbMask k =
        if b = .fineGrain ∧ k = epoch % 16 then false else r.state.vbm.activeTvbMask k := by
    intro r k
    cases b with
    | fineGrain =>
      show update r.state.vbm.activeTvbMask (epoch % 16) false k = _
      by_cases hk : k = epoch % 16
      · simp [hk]
      · simp [hk]
    | coarse => rfl
  have hwf : ∀ r : Progress, Wf r.state → Wf (VertexEdges.pushBlock b slot epoch vb r) := fun r hr =>
    hr.update slot (t := (r.state.tmpVb slot).clear) (fun _ hx => absurd hx List.not_mem_nil)
      (hr.stamp slot) _ _
  refine ⟨hwf p h.state.left, hwf q h.state.right, ?_, ?_, ?_, ?_, ?_, ?_, ?_⟩
  · intro k
    rw [hentries, hentries]
    by_cases hk : k = slot
    · rw [if_pos hk, if_pos hk]
    · rw [if_neg hk, if_neg hk]
      exact h.state.entries k
  · intro k hk
    rw [hentries] at hk
    rw [hstamp, hstamp]
    apply h.state.timestamp
    intro hnil
    apply hk
    rw [hnil]
    exact ite_self []
  · intro k hk
    rw [hentries] at hk
    have hks : k ≠ slot := fun heq => hk (if_pos heq)
    rw [if_neg hks] at hk
    rw [hmask, hmask, h.state.mask k hk]
  · show q.state.edgeNum + q.edgeNum = p.state.edgeNum + p.edgeNum
    rw [h.state.edgeNum, h.edgeNum]
  · cases b <;> rfl
  · have hvbs : ∀ r : Progress, (VertexEdges.pushBlock b slot epoch vb r).vbm.vbs =
        ⟨vb, epoch, r.state.vbm.endEpoch, r.edgeNum, r.records⟩ :: r.state.vbm.vbs := by
      intro r
      cases b <;> rfl
    rw [hvbs, hvbs, h.state.endEpoch, h.edgeNum, h.records, h.state.vbs]
  · intro d
    have hitem : ∀ r : Progress, (VertexEdges.pushBlock b slot epoch vb r).item d = r.state.item d := by
      intro r
      rfl
    rw [hitem, hitem]
    refine (h.state.item d).imp_right ?_
    rintro ⟨hnone, x, hx, hdel, hno⟩
    refine ⟨hnone, x, hx, hdel, fun k y hy => ?_⟩
    rw [hentries] at hy
    split_ifs at hy
    · cases hy
    · exact hno k y hy

/-- Transform of a slot keeps such vertices alike. -/
theorem Alike.transform (h : Alike s t) (b : Build) (slot vb : Nat) :
    ∃ n s' t', s.transform b S slot vb = some (n, s') ∧ t.transform b S slot vb = some (n, t') ∧
      Alike s' t' := by
  unfold VertexEdges.transform
  by_cases hnil : (s.tmpVb slot).entries = []
  · rw [if_pos hnil, if_pos ((h.entries_eq_nil slot).mpr hnil)]
    exact ⟨0, s, t, rfl, rfl, h⟩
  · rw [if_neg hnil, if_neg fun hn => hnil ((h.entries_eq_nil slot).mp hn)]
    obtain ⟨p, q, hp, hq, hpq⟩ := h.publishAll (S := S) b slot vb hnil
    rw [hp, hq, h.timestamp slot hnil]
    refine ⟨_, _, _, rfl, ?_, hpq.pushBlock b _ vb⟩
    rw [Option.map_some, hpq.records]

end Transform

section Read

variable {readTs : Composite}

theorem Rep.nodup_items (h : Rep s) : s.items.Nodup := by
  apply h.pairwise_items.imp
  intro x y hne heq
  exact hne (congrArg (fun z : Item => z.1.key) heq)

theorem Alike.visible_items (h : Alike s t) (b : Build) (readTs : Composite) :
    (t.items.filter (visible b readTs)).Perm (s.items.filter (visible b readTs)) := by
  apply (List.perm_ext_iff_of_nodup (h.right.rep.nodup_items.filter _)
    (h.left.rep.nodup_items.filter _)).mpr
  intro x
  rw [List.mem_filter, List.mem_filter]
  apply and_congr_left
  intro hvis
  have hmem : ∀ v : VertexEdges, Rep v → (x ∈ v.items ↔ v.item (keyOf x) = some x) := by
    intro v hv
    rw [hv.item_iff]
    exact ⟨fun hx => ⟨hx, rfl⟩, And.left⟩
  rw [hmem t h.right.rep, hmem s h.left.rep]
  rcases h.item (keyOf x) with heq | ⟨hnone, y, hy, hdel, -⟩
  · rw [heq]
  · rw [hnone, hy]
    constructor
    · intro hx
      cases hx
    · intro hx
      obtain rfl := Option.some.inj hx
      simp [visible, hdel] at hvis

theorem Alike.scanTvbs (h : Alike s t) : t.scanTvbs readTs = s.scanTvbs readTs := by
  unfold VertexEdges.scanTvbs
  apply List.flatMap_congr
  intro k _
  by_cases hnil : (s.tmpVb k).entries = []
  · rw [hnil, (h.entries_eq_nil k).mpr hnil]
    simp [scanTvb]
  · have hchanges : (t.tmpVb k).entries.map VersionEntry.change =
        (s.tmpVb k).entries.map VersionEntry.change := by
      have hmap : ∀ xs : List VersionEntry, xs.map VersionEntry.change =
          (xs.map VersionEntry.unplaced).map VersionEntry.change := by
        intro xs
        rw [List.map_map]
        rfl
      rw [hmap, h.entries, ← hmap]
    rw [h.mask k hnil, h.timestamp k hnil, scanTvb_eq, scanTvb_eq, List.map_reverse,
      List.map_reverse, hchanges]

/-- Readers get the same edges and properties, in some order. -/
theorem Alike.forEachEdgeWithProperty (h : Alike s t) (b : Build) (readTs : Composite) :
    (t.forEachEdgeWithProperty b readTs).Perm (s.forEachEdgeWithProperty b readTs) := by
  have hchain : t.chainScan b readTs = s.chainScan b readTs := by
    unfold chainScan
    rw [h.endEpoch, h.vbs]
  unfold VertexEdges.forEachEdgeWithProperty
  rw [hchain, h.scanTvbs]
  exact ((h.visible_items b readTs).append_right _).append_right _

theorem Alike.forEachEdge (h : Alike s t) (b : Build) (readTs : Composite) :
    (t.forEachEdge b readTs).Perm (s.forEachEdge b readTs) :=
  (h.forEachEdgeWithProperty b readTs).map Prod.fst

theorem Alike.getDegree (h : Alike s t) (e : Nat) : t.getDegree e = s.getDegree e := by
  unfold VertexEdges.getDegree VersionBlockManager.getDegreeVersioned
  rw [h.endEpoch, h.vbs, h.edgeNum]

end Read

end VertexEdges

end AVBGraph
