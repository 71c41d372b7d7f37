import AVBGraph.Framework.Ledger
import AVBGraph.Vertex.Stamps
import AVBGraph.Vertex.History

namespace AVBGraph

open Framework Function

namespace VersionBlockManager

/-- A chain whose timestamps never rise, and end at 0. -/
def Descending : Nat → List VersionBlock → Prop
  | e, [] => e = 0
  | e, vb :: rest => vb.timestamp = e ∧ vb.lastEpoch ≤ e ∧ Descending vb.lastEpoch rest

theorem Descending.le {e : Nat} {vbs : List VersionBlock} (h : Descending e vbs) :
    ∀ vb ∈ vbs, vb.timestamp ≤ e := by
  induction vbs generalizing e with
  | nil => simp
  | cons vb rest ih =>
    obtain ⟨hts, hle, hrest⟩ := h
    intro w hw
    rcases List.mem_cons.mp hw with rfl | hw
    · exact hts.le
    · exact (ih hrest w hw).trans hle

/-- The degree changes of the blocks up to an epoch. -/
def degreeUpTo (epoch : Nat) (vbs : List VersionBlock) : Int :=
  (vbs.map fun vb => if vb.timestamp ≤ epoch then vb.edgeNum else 0).sum

/-- getDegreeVersioned takes back what the blocks above the epoch added. -/
theorem degreeLoop_eq {epoch e : Nat} {vbs : List VersionBlock} (h : Descending e vbs)
    (degree : Int) : degreeLoop epoch e vbs degree =
      some (degree - (vbs.map VersionBlock.edgeNum).sum + degreeUpTo epoch vbs) := by
  induction vbs generalizing e degree with
  | nil =>
    have he : e = 0 := h
    subst he
    simp [degreeLoop, degreeUpTo]
  | cons vb rest ih =>
    have hall := h.le
    obtain ⟨hts, hle, hrest⟩ := h
    rw [degreeLoop]
    by_cases hlt : epoch < e
    · have hnot : ¬vb.timestamp ≤ epoch := by omega
      rw [if_pos hlt, ih hrest]
      simp only [degreeUpTo, List.map_cons, List.sum_cons, if_neg hnot]
      congr 1
      ring
    · -- the loop stops here, and no older block is younger
      have hold : ∀ w ∈ vb :: rest, w.timestamp ≤ epoch :=
        fun w hw => (hall w hw).trans (not_lt.mp hlt)
      have hsum : degreeUpTo epoch (vb :: rest) =
          ((vb :: rest).map VersionBlock.edgeNum).sum := by
        unfold degreeUpTo
        congr 1
        apply List.map_congr_left
        intro w hw
        rw [if_pos (hold w hw)]
      rw [if_neg hlt, hsum]
      congr 1
      ring

theorem Descending.of_linked {e : Nat} {vbs : List VersionBlock} (h : Linked e vbs) :
    Descending e vbs := by
  induction vbs generalizing e with
  | nil => exact h
  | cons vb rest ih =>
    obtain ⟨hts, hlt, hrest⟩ := h
    exact ⟨hts, hlt.le, ih hrest⟩

/-- The caller's counter and the manager after PushVB of the blocks, one after the other. -/
def pushAll (b : Build) (blocks : List VersionBlock) (edgeNum : Int) (m : VersionBlockManager) :
    Int × VersionBlockManager :=
  blocks.foldl (fun r nw => r.2.pushVB b r.1 nw) (edgeNum, m)

/-- The counter at an epoch, once the later blocks are taken back. -/
def counterAt (epoch : Nat) (edgeNum : Int) (m : VersionBlockManager) : Int :=
  edgeNum - (m.vbs.map VersionBlock.edgeNum).sum + degreeUpTo epoch m.vbs

theorem degreeUpTo_eq_filter (epoch : Nat) (vbs : List VersionBlock) : degreeUpTo epoch vbs =
    ((vbs.filter fun vb => vb.timestamp ≤ epoch).map VersionBlock.edgeNum).sum := by
  induction vbs with
  | nil => rfl
  | cons vb rest ih =>
    rw [degreeUpTo, List.map_cons, List.sum_cons, ← degreeUpTo, ih]
    by_cases hle : vb.timestamp ≤ epoch
    · rw [if_pos hle, List.filter_cons_of_pos (by simpa using hle), List.map_cons, List.sum_cons]
    · rw [if_neg hle, List.filter_cons_of_neg (by simpa using hle), zero_add]

theorem counterAt_pushVB (b : Build) (epoch : Nat) (edgeNum : Int) (nw : VersionBlock)
    (m : VersionBlockManager) :
    counterAt epoch (m.pushVB b edgeNum nw).1 (m.pushVB b edgeNum nw).2 =
      counterAt epoch edgeNum m + if nw.timestamp ≤ epoch then nw.edgeNum else 0 := by
  simp only [counterAt, pushVB, degreeUpTo, List.map_cons, List.sum_cons]
  ring

theorem pushAll_counterAt (b : Build) (epoch : Nat) (edgeNum : Int) {blocks : List VersionBlock}
    {m : VersionBlockManager} (hm : Linked m.endEpoch m.vbs)
    (habove : ∀ vb ∈ blocks, m.endEpoch < vb.timestamp)
    (hasc : blocks.Pairwise fun x y => x.timestamp < y.timestamp) :
    Linked (pushAll b blocks edgeNum m).2.endEpoch (pushAll b blocks edgeNum m).2.vbs ∧
      counterAt epoch (pushAll b blocks edgeNum m).1 (pushAll b blocks edgeNum m).2 =
        counterAt epoch edgeNum m + degreeUpTo epoch blocks := by
  induction blocks generalizing edgeNum m with
  | nil => exact ⟨hm, by simp [pushAll, degreeUpTo]⟩
  | cons nw rest ih =>
    obtain ⟨hnw, hrest⟩ := List.pairwise_cons.mp hasc
    obtain ⟨hlinked, hcounter⟩ :=
      ih (m.pushVB b edgeNum nw).1 (hm.pushVB (habove nw List.mem_cons_self)) hnw hrest
    have hpush : pushAll b (nw :: rest) edgeNum m =
        pushAll b rest (m.pushVB b edgeNum nw).1 (m.pushVB b edgeNum nw).2 := rfl
    rw [hpush]
    refine ⟨hlinked, ?_⟩
    rw [hcounter, counterAt_pushVB]
    simp only [degreeUpTo, List.map_cons, List.sum_cons]
    ring

/-- The counter of the caller and getDegreeVersioned add up to the initial value and the changes of
the blocks up to the epoch; the walk reads blocks above the epoch only. -/
theorem degree_telescopes (b : Build) (epoch : Nat) (edgeNum : Int) {blocks : List VersionBlock}
    (hpos : ∀ vb ∈ blocks, 0 < vb.timestamp)
    (hasc : blocks.Pairwise fun x y => x.timestamp < y.timestamp) :
    let r := pushAll b blocks edgeNum .empty
    (∃ degree, r.2.getDegreeVersioned epoch = some degree ∧
      r.1 + degree =
        edgeNum + ((blocks.filter fun vb => vb.timestamp ≤ epoch).map VersionBlock.edgeNum).sum) ∧
      ∀ vb ∈ degreeReads epoch r.2.endEpoch r.2.vbs, epoch < vb.timestamp := by
  intro r
  obtain ⟨hlinked, hcounter⟩ := pushAll_counterAt b epoch edgeNum
    (show Linked empty.endEpoch empty.vbs from rfl) hpos hasc
  refine ⟨⟨_, degreeLoop_eq (Descending.of_linked hlinked) 0, ?_⟩, degreeReads_gt hlinked⟩
  rw [← degreeUpTo_eq_filter]
  have hempty : counterAt epoch edgeNum empty = edgeNum := by
    simp [counterAt, empty, degreeUpTo]
  rw [hempty] at hcounter
  rw [← hcounter, counterAt]
  ring

theorem degree_telescopes_three :
    let r := pushAll .fineGrain [⟨100, 1, 0, 3, []⟩, ⟨200, 4, 0, -2, []⟩, ⟨300, 9, 0, 5, []⟩] 7 .empty
    (∃ degree, r.2.getDegreeVersioned 4 = some degree ∧ r.1 + degree = 7 + (3 + (-2 + 0))) ∧
      ∀ vb ∈ degreeReads 4 r.2.endEpoch r.2.vbs, 4 < vb.timestamp :=
  degree_telescopes .fineGrain 4 7 (by decide) (by decide)

end VersionBlockManager

namespace VertexEdges

variable {S : StdSort} {env : Env} {s t : VertexEdges} {w : Write} {r : WriteResult}

/-- get_degree, as the int before the conversion to unsigned. -/
def getDegree (s : VertexEdges) (epoch : Nat) : Option Int :=
  (s.vbm.getDegreeVersioned epoch).map fun degree => s.edgeNum + degree

/-- The edge words that wait in a slot. -/
def edgesAt (s : VertexEdges) (k : Nat) : List Nat := (s.tmpVb k).entries.map VersionEntry.edge

theorem edgesAt_of_tmpVb (h : t.tmpVb = s.tmpVb) : t.edgesAt = s.edgesAt := by
  funext k
  simp only [edgesAt, h]

section Write

theorem edgesAt_insertVersion (edge block index link offset lastEpoch oldIntra newIntra : Nat) :
    (s.insertVersion w edge block index link offset lastEpoch oldIntra newIntra).2.edgesAt =
      update s.edgesAt (w.epoch % 16) (s.edgesAt (w.epoch % 16) ++ [edge]) := by
  funext k
  by_cases hk : k = w.epoch % 16
  · subst hk
    simp [edgesAt, insertVersion, TmpVersionBlock.insertVersion]
  · simp [edgesAt, insertVersion, hk]

/-- Entries that change their links only. -/
theorem edgesAt_modify {slot i : Nat} {f : VersionEntry → VersionEntry} {vb : TmpVersionBlock}
    (ht : t.tmpVb = update s.tmpVb slot vb) (hvb : vb.entries = (s.tmpVb slot).entries.modify i f)
    (hf : ∀ x, (f x).edge = x.edge) : t.edgesAt = s.edgesAt := by
  funext k
  simp only [edgesAt, ht]
  by_cases hk : k = slot
  · subst hk
    have hid : ∀ x : VersionEntry, (f x).edge = id x.edge := hf
    rw [update_self, hvb, map_modify hid, List.modify_id]
  · rw [update_of_ne hk]

theorem edgesAt_linkNext (pending : Bool) (lastEpoch lastIndex epoch idx : Nat) :
    (s.linkNext pending lastEpoch lastIndex epoch idx).edgesAt = s.edgesAt := by
  unfold linkNext
  split_ifs
  · exact edgesAt_modify rfl rfl fun _ => rfl
  · rfl

/-- What a write adds to the entries, whatever item it is about. -/
theorem edgesAt_addVersion (l : Loc) (offset : Nat) (delete : Bool)
    (lastEpoch lastIndex oldIntra : Nat) :
    (s.addVersion l offset delete lastEpoch lastIndex oldIntra w).edgesAt =
      update s.edgesAt (w.epoch % 16)
        (s.edgesAt (w.epoch % 16) ++ [if delete then setDelete w.dst else w.dst]) := by
  unfold addVersion
  simp only
  rw [edgesAt_of_tmpVb tmpVb_setItem, edgesAt_linkNext, edgesAt_insertVersion]

theorem linkNext_counters (pending : Bool) (lastEpoch lastIndex epoch idx : Nat) :
    (s.linkNext pending lastEpoch lastIndex epoch idx).edgeNum = s.edgeNum ∧
      (s.linkNext pending lastEpoch lastIndex epoch idx).vbm = s.vbm := by
  unfold linkNext
  split_ifs <;> exact ⟨rfl, rfl⟩

theorem addVersion_counters (l : Loc) (offset : Nat) (delete : Bool)
    (lastEpoch lastIndex oldIntra : Nat) :
    (s.addVersion l offset delete lastEpoch lastIndex oldIntra w).edgeNum = s.edgeNum ∧
      (s.addVersion l offset delete lastEpoch lastIndex oldIntra w).vbm = s.vbm := by
  unfold addVersion
  simp only [edgeNum_setItem, vbm_setItem]
  exact linkNext_counters ..

/-- What a write in the FINEGRAIN build adds to the entries of its slot. -/
structure Appends (s : VertexEdges) (w : Write) (edge : Nat) (r : Bool × VertexEdges) : Prop where
  edgeNum : r.2.edgeNum = s.edgeNum
  vbm : r.2.vbm = s.vbm
  stampAt : r.2.stampAt = s.stampAt
  edgesAt : r.2.edgesAt = if r.1 then
    update s.edgesAt (w.epoch % 16) (s.edgesAt (w.epoch % 16) ++ [edge]) else s.edgesAt

theorem insertFine_appends (l : Loc) (offset : Nat) (wasDeleted : Bool) :
    Appends s w w.dst (s.insertFine l offset wasDeleted w) := by
  have hstamp := stampAt_insertFine (s := s) (w := w) l offset wasDeleted
  unfold insertFine at hstamp ⊢
  simp only at hstamp ⊢
  by_cases hc : conflicts w.txn (if wasDeleted then 0 else (s.itemE l).getCoarseC) w.epoch = true
  · rw [if_pos hc] at hstamp ⊢
    exact ⟨rfl, rfl, hstamp, rfl⟩
  · rw [if_neg hc] at hstamp ⊢
    exact ⟨(addVersion_counters ..).1, (addVersion_counters ..).2, hstamp, edgesAt_addVersion ..⟩

theorem deleteFine_appends (l : Loc) (offset : Nat) :
    Appends s w (setDelete w.dst) (s.deleteFine l offset w) := by
  have hstamp := stampAt_deleteFine (s := s) (w := w) l offset
  unfold deleteFine at hstamp ⊢
  simp only at hstamp ⊢
  by_cases hc : conflicts w.txn (s.itemE l).getCoarseC w.epoch = true
  · rw [if_pos hc] at hstamp ⊢
    exact ⟨rfl, rfl, hstamp, rfl⟩
  · rw [if_neg hc] at hstamp ⊢
    exact ⟨(addVersion_counters ..).1, (addVersion_counters ..).2, hstamp, edgesAt_addVersion ..⟩

theorem openTvb_counters (epoch : Nat) :
    (s.openTvb .fineGrain epoch).2.edgeNum = s.edgeNum ∧
      (s.openTvb .fineGrain epoch).2.vbm.vbs = s.vbm.vbs ∧
      (s.openTvb .fineGrain epoch).2.vbm.endEpoch = s.vbm.endEpoch := by
  unfold openTvb
  split_ifs <;> exact ⟨rfl, rfl, rfl⟩

/-- A slot that is opened for another epoch loses its entries. -/
theorem edgesAt_openTvb (epoch : Nat) : (s.openTvb .fineGrain epoch).2.edgesAt =
    if s.stampAt (epoch % 16) = epoch then s.edgesAt else update s.edgesAt (epoch % 16) [] := by
  unfold openTvb
  by_cases h : (s.tmpVb (epoch % 16)).timestamp = epoch
  · rw [if_pos h]
    exact (if_pos h).symm
  · have h' : s.stampAt (epoch % 16) ≠ epoch := h
    rw [if_neg h, if_neg h']
    funext k
    by_cases hk : k = epoch % 16
    · subst hk
      simp [edgesAt]
    · simp [edgesAt, hk]

/-- The effect of a write on edge_num_, the version blocks and the buffered entries. -/
structure Buffers (s : VertexEdges) (w : Write) (edge : Nat) (r : WriteResult) : Prop where
  edgeNum : r.state.edgeNum = s.edgeNum
  vbs : r.state.vbm.vbs = s.vbm.vbs
  endEpoch : r.state.vbm.endEpoch = s.vbm.endEpoch
  entries : (r.accepted = false ∧ r.state.stampAt = s.stampAt ∧ r.state.edgesAt = s.edgesAt) ∨
    (r.state.stampAt = update s.stampAt (w.epoch % 16) w.epoch ∧
      r.state.edgesAt = update s.edgesAt (w.epoch % 16)
        ((if s.stampAt (w.epoch % 16) = w.epoch then s.edgesAt (w.epoch % 16) else []) ++
          if r.accepted then [edge] else []))

theorem Appends.buffers {p : VertexEdges} {edge : Nat} {u : Bool × VertexEdges} {registered : Bool}
    (h : Appends (p.openTvb .fineGrain w.epoch).2 w edge u) (htmp : p.tmpVb = s.tmpVb)
    (hvbm : p.vbm = s.vbm) (hnum : p.edgeNum = s.edgeNum) :
    Buffers s w edge ⟨u.1, registered, u.2⟩ := by
  obtain ⟨hn, hv, he⟩ := openTvb_counters (s := p) w.epoch
  have hopen := edgesAt_openTvb (s := p) w.epoch
  have hst := (stampAt_openTvb (b := .fineGrain) (s := p) w.epoch).2
  rw [stampAt_of_tmpVb htmp] at hst hopen
  rw [edgesAt_of_tmpVb htmp] at hopen
  refine ⟨h.edgeNum.trans (hn.trans hnum), ?_, ?_, Or.inr ⟨h.stampAt.trans hst, ?_⟩⟩
  · show u.2.vbm.vbs = s.vbm.vbs
    rw [h.vbm, hv, hvbm]
  · show u.2.vbm.endEpoch = s.vbm.endEpoch
    rw [h.vbm, he, hvbm]
  · show u.2.edgesAt = _
    rw [h.edgesAt, hopen]
    cases u.1 <;> by_cases hs : s.stampAt (w.epoch % 16) = w.epoch <;> simp [hs]

theorem insert_buffers (h : s.insertEdgeBlock .fineGrain S env w = some r) :
    Buffers s w w.dst r := by
  obtain ⟨f, hf, rfl⟩ := Option.map_eq_some_iff.mp h
  have hfound : f.state.tmpVb = s.tmpVb ∧ f.state.vbm = s.vbm ∧ f.state.edgeNum = s.edgeNum := by
    rw [← tmpVb_prepare (s := s), ← vbm_prepare (s := s), ← edgeNum_prepare (s := s)]
    unfold findOrAppend at hf
    split_ifs at hf
    · obtain ⟨⟨l, offset⟩, -, rfl⟩ := Option.map_eq_some_iff.mp hf
      cases l <;> exact ⟨rfl, rfl, rfl⟩
    · obtain rfl := Option.some.inj hf
      exact ⟨rfl, rfl, rfl⟩
  obtain ⟨htmp, hvbm, hnum⟩ := hfound
  exact (insertFine_appends f.loc f.offset f.wasDeleted).buffers htmp hvbm hnum

/-- A deletion of an unknown destination buffers nothing. -/
theorem delete_buffers (h : s.deleteEdgeBlock .fineGrain S env w = some r) :
    Buffers s w (setDelete w.dst) r := by
  unfold deleteEdgeBlock at h
  simp only at h
  split_ifs at h
  · obtain ⟨⟨l, offset⟩, -, rfl⟩ := Option.map_eq_some_iff.mp h
    exact (deleteFine_appends l offset).buffers tmpVb_prepare vbm_prepare edgeNum_prepare
  · obtain rfl := Option.some.inj h
    have hvbm : (s.prepare S env).vbm = s.vbm := vbm_prepare
    exact ⟨edgeNum_prepare, congrArg _ hvbm, congrArg _ hvbm,
      Or.inl ⟨rfl, stampAt_of_tmpVb tmpVb_prepare, edgesAt_of_tmpVb tmpVb_prepare⟩⟩

end Write

section Transform

/-- The degree change that the entries of a slot stand for. -/
def edgesDelta (edges : List Nat) : Int :=
  (edges.map fun e => if isDelete e then (-1 : Int) else 1).sum

theorem edgesDelta_append (es fs : List Nat) :
    edgesDelta (es ++ fs) = edgesDelta es + edgesDelta fs := by
  simp [edgesDelta]

variable {slot vb : Nat}

/-- The loops of Transform leave edge_num_, the blocks and the edge words of the entries alone. -/
structure Kept (s : VertexEdges) (p : Progress) : Prop where
  edgeNum : p.state.edgeNum = s.edgeNum
  vbm : p.state.vbm = s.vbm
  stampAt : p.state.stampAt = s.stampAt
  edgesAt : p.state.edgesAt = s.edgesAt

theorem Kept.edge {p : Progress} (h : Kept s p) (i : Nat) :
    (p.state.entry slot i).edge = (s.entry slot i).edge := by
  have hmap : ∀ u : VertexEdges, (u.entry slot i).edge = (u.edgesAt slot).getD i 0 := by
    intro u
    exact (List.getD_map (u.tmpVb slot).entries default VersionEntry.edge).symm
  rw [hmap, hmap, h.edgesAt]

theorem Kept.setItem {p : Progress} (h : Kept s p) (l : Loc) (x : Item) (edgeNum : Int)
    (records : List Item) : Kept s ⟨p.state.setItem l x, edgeNum, records⟩ :=
  ⟨edgeNum_setItem.trans h.edgeNum, vbm_setItem.trans h.vbm,
    (stampAt_setItem l x).trans h.stampAt, (edgesAt_of_tmpVb tmpVb_setItem).trans h.edgesAt⟩

theorem edgesAt_changeLast (link : VersionLink) (addr : Nat) :
    (s.changeLast link addr).edgesAt = s.edgesAt :=
  edgesAt_modify (f := fun x => { x with link := ⟨x.link.block ^^^ 2 ^ 31, x.link.index, addr⟩ })
    rfl rfl fun _ => rfl

theorem Kept.changeLast {p : Progress} (h : Kept s p) (link : VersionLink) (addr : Nat) :
    Kept s { p with state := p.state.changeLast link addr } :=
  ⟨h.edgeNum, h.vbm, (stampAt_changeLast link).trans h.stampAt,
    (edgesAt_changeLast link addr).trans h.edgesAt⟩

theorem kept_fresh {epoch i : Nat} {p q : Progress} (h : Kept s p)
    (hq : publishFresh .fineGrain slot epoch p i = some q) :
    Kept s q ∧ q.edgeNum = p.edgeNum + 1 := by
  obtain ⟨l, -, rfl⟩ := Option.map_eq_some_iff.mp hq
  refine ⟨?_, rfl⟩
  simp only
  split_ifs
  all_goals first
    | exact (h.changeLast _ 0).setItem ..
    | exact h.setItem ..

theorem kept_fine {epoch i : Nat} {p q : Progress} (h : Kept s p)
    (hq : publishFine slot epoch p i = some q) : Kept s q ∧
      q.edgeNum = p.edgeNum + if isDelete (s.entry slot i).edge then -1 else 1 := by
  obtain ⟨l, -, rfl⟩ := Option.map_eq_some_iff.mp hq
  refine ⟨h.setItem .., ?_⟩
  rw [← h.edge]
  show (if isDelete (p.state.entry slot i).edge then p.edgeNum - 1 else p.edgeNum + 1) = _
  split_ifs <;> ring

/-- A loop that changes the counter by `g` in every round. -/
theorem foldlM_kept {f : Progress → Nat → Option Progress} {g : Nat → Int} {is : List Nat}
    (hstep : ∀ i ∈ is, ∀ p q, Kept s p → f p i = some q → Kept s q ∧ q.edgeNum = p.edgeNum + g i)
    {p q : Progress} (hp : Kept s p) (hq : is.foldlM f p = some q) :
    Kept s q ∧ q.edgeNum = p.edgeNum + (is.map g).sum := by
  induction is generalizing p with
  | nil =>
    obtain rfl : p = q := by simpa using hq
    exact ⟨hp, by simp⟩
  | cons i is ih =>
    rw [List.foldlM_cons] at hq
    obtain ⟨p', hp', hq⟩ := Option.bind_eq_some_iff.mp hq
    obtain ⟨hkept, hnum⟩ := hstep i List.mem_cons_self p p' hp hp'
    obtain ⟨hkept', hnum'⟩ := ih (fun j hj => hstep j (List.mem_cons_of_mem _ hj)) hkept hq
    refine ⟨hkept', ?_⟩
    rw [hnum', hnum, List.map_cons, List.sum_cons]
    ring

theorem sum_filter_add {g : Nat → Int} {p : Nat → Bool} (is : List Nat) :
    ((is.filter fun i => !p i).map g).sum + ((is.filter p).map g).sum = (is.map g).sum := by
  induction is with
  | nil => rfl
  | cons i is ih =>
    cases hp : p i <;> simp only [List.filter_cons, hp, Bool.not_false, Bool.not_true, if_true,
      if_false, List.map_cons, List.sum_cons, ← ih, Bool.false_eq_true] <;> ring

/-- Every entry counts once, whichever loop treats it. -/
theorem publishAll_degree {p : Progress} (h : publishAll .fineGrain S slot vb s = some p) :
    Kept s p ∧ p.edgeNum = edgesDelta (s.edgesAt slot) := by
  unfold publishAll at h
  simp only [if_true, Option.bind_eq_bind, Option.bind_eq_some_iff] at h
  set order := transformOrder S (s.tmpVb slot).entries with horder
  set fresh := order.takeWhile fun i => decide ((s.entry slot i).lastEpoch = 0) with hfresh
  set rest := order.dropWhile fun i => decide ((s.entry slot i).lastEpoch = 0) with hrest
  obtain ⟨p₁, hp₁, p₂, hp₂, hp⟩ := h
  let g : Nat → Int := fun i => if isDelete (s.entry slot i).edge then -1 else 1
  have h₀ : Kept s ⟨s, 0, []⟩ := ⟨rfl, rfl, rfl, rfl⟩
  obtain ⟨h₁, hn₁⟩ : Kept s p₁ ∧ p₁.edgeNum = 0 +
      ((fresh.filter fun i => !isDelete (s.entry slot i).edge).map g).sum := by
    apply foldlM_kept _ h₀ hp₁
    intro i hi p q hp hq
    have hins : isDelete (s.entry slot i).edge = false := by
      simpa using (List.mem_filter.mp hi).2
    simpa [g, hins] using kept_fresh hp hq
  obtain ⟨h₂, hn₂⟩ : Kept s p₂ ∧ p₂.edgeNum = p₁.edgeNum + (rest.map g).sum :=
    foldlM_kept (fun i _ p q hp hq => kept_fine hp hq) h₁ hp₂
  obtain ⟨h₃, hn₃⟩ : Kept s p ∧ p.edgeNum = p₂.edgeNum +
      ((fresh.filter fun i => isDelete (s.entry slot i).edge).map g).sum :=
    foldlM_kept (fun i _ p q hp hq => kept_fine hp hq) h₂ hp
  refine ⟨h₃, ?_⟩
  have hsplit := sum_filter_add (g := g) (p := fun i => isDelete (s.entry slot i).edge) fresh
  have hall : (fresh.map g).sum + (rest.map g).sum = (order.map g).sum := by
    rw [← List.sum_append, ← List.map_append, hfresh, hrest, List.takeWhile_append_dropWhile]
  have hperm : (order.map g).sum = edgesDelta (s.edgesAt slot) := by
    have hrange : order.Perm (List.range (s.tmpVb slot).entries.length) := S.perm _ _
    rw [(hrange.map g).sum_eq, edgesDelta]
    congr 1
    apply List.ext_getElem
    · simp [edgesAt]
    · intro i hi _
      have hlt : i < (s.tmpVb slot).entries.length := by simpa using hi
      simp [g, edgesAt, entry, hlt]
  omega

/-- Transform moves the entries of its slot into a block that counts them. -/
structure Moves (s : VertexEdges) (slot : Nat) (t : VertexEdges) : Prop where
  stampAt : t.stampAt = s.stampAt
  edgesAt : t.edgesAt = update s.edgesAt slot []
  vbm : (s.edgesAt slot = [] ∧ t.vbm = s.vbm ∧ t.edgeNum = s.edgeNum) ∨
    (∃ vb : VersionBlock, t.vbm.vbs = vb :: s.vbm.vbs ∧ vb.timestamp = s.stampAt slot ∧
      vb.lastEpoch = s.vbm.endEpoch ∧ vb.edgeNum = edgesDelta (s.edgesAt slot) ∧
      t.vbm.endEpoch = s.stampAt slot ∧ t.edgeNum = s.edgeNum + vb.edgeNum)

theorem transform_moves {n : Nat} (h : s.transform .fineGrain S slot vb = some (n, t)) :
    Moves s slot t := by
  unfold transform at h
  by_cases hnil : (s.tmpVb slot).entries = []
  · rw [if_pos hnil] at h
    obtain ⟨-, rfl⟩ := Prod.mk.inj (Option.some.inj h)
    have hedges : s.edgesAt slot = [] := by simp [edgesAt, hnil]
    exact ⟨rfl, (update_eq_self_iff.mpr hedges.symm).symm, Or.inl ⟨hedges, rfl, rfl⟩⟩
  · rw [if_neg hnil] at h
    obtain ⟨p, hp, h⟩ := Option.map_eq_some_iff.mp h
    obtain ⟨-, rfl⟩ := Prod.mk.inj h
    obtain ⟨hkept, hnum⟩ := publishAll_degree hp
    have htmp : (pushBlock .fineGrain slot (s.tmpVb slot).timestamp vb p).tmpVb =
        update p.state.tmpVb slot (p.state.tmpVb slot).clear := rfl
    refine ⟨(stampAt_update htmp rfl).trans hkept.stampAt, ?_, Or.inr
      ⟨⟨vb, s.stampAt slot, s.vbm.endEpoch, p.edgeNum, p.records⟩, ?_, rfl, rfl, hnum, rfl, ?_⟩⟩
    · rw [← hkept.edgesAt]
      funext k
      by_cases hk : k = slot
      · subst hk
        simp [edgesAt, htmp, TmpVersionBlock.clear]
      · simp [edgesAt, htmp, hk]
    · rw [← hkept.vbm]
      rfl
    · rw [← hkept.edgeNum]
      rfl

end Transform

section Count

/-- What the entries of a slot add to the degree at an epoch. -/
def pendingUpTo (s : VertexEdges) (epoch k : Nat) : Int :=
  if s.stampAt k ≤ epoch then edgesDelta (s.edgesAt k) else 0

/-- Blocks and buffered entries up to an epoch account for the balance of the log up to it. -/
structure Counted (s : VertexEdges) (balance : Nat → Int) : Prop where
  chain : VersionBlockManager.Descending s.vbm.endEpoch s.vbm.vbs
  edgeNum : s.edgeNum = (s.vbm.vbs.map VersionBlock.edgeNum).sum
  upTo : ∀ e, VersionBlockManager.degreeUpTo e s.vbm.vbs +
    ∑ k ∈ Finset.range 16, s.pendingUpTo e k = balance e

theorem Counted.getDegree {balance : Nat → Int} (h : Counted s balance)
    (hempty : ∀ k < 16, s.edgesAt k = []) (e : Nat) : s.getDegree e = some (balance e) := by
  have hpending : ∑ k ∈ Finset.range 16, s.pendingUpTo e k = 0 := by
    apply Finset.sum_eq_zero
    intro k hk
    rw [pendingUpTo, hempty k (Finset.mem_range.mp hk)]
    simp [edgesDelta]
  have hup := h.upTo e
  rw [hpending, add_zero] at hup
  unfold VertexEdges.getDegree VersionBlockManager.getDegreeVersioned
  rw [VersionBlockManager.degreeLoop_eq h.chain, Option.map_some, hup, h.edgeNum]
  congr 1
  ring

/-- The sum over the slots when one of them changes. -/
theorem sum_slots {f g : Nat → Int} {slot : Nat} (hslot : slot < 16)
    (hne : ∀ k, k ≠ slot → g k = f k) :
    ∑ k ∈ Finset.range 16, g k = ∑ k ∈ Finset.range 16, f k + (g slot - f slot) := by
  have hmem : slot ∈ Finset.range 16 := Finset.mem_range.mpr hslot
  rw [← Finset.add_sum_erase _ g hmem, ← Finset.add_sum_erase _ f hmem,
    Finset.sum_congr rfl fun k hk => hne k (Finset.ne_of_mem_erase hk)]
  ring

/-- A write may use its slot if it belongs to its epoch, or holds no entries. -/
def SlotFree (s : VertexEdges) (epoch : Nat) : Prop :=
  s.stampAt (epoch % 16) = epoch ∨ (s.tmpVb (epoch % 16)).entries = []

theorem entries_openTvb {b : Build} {epoch : Nat} (hfree : SlotFree s epoch) (k : Nat) :
    ((s.openTvb b epoch).2.tmpVb k).entries = (s.tmpVb k).entries := by
  unfold VertexEdges.openTvb
  by_cases hts : (s.tmpVb (epoch % 16)).timestamp = epoch
  · rw [if_pos hts]
  · rw [if_neg hts]
    by_cases hk : k = epoch % 16
    · subst hk
      simp [hfree.resolve_left hts]
    · simp [hk]

theorem Counted.write {balance balance' : Nat → Int} (h : Counted s balance) {edge : Nat}
    (hr : Buffers s w edge r) (hfree : SlotFree s w.epoch)
    (hbal : ∀ e, balance' e = balance e + if r.accepted ∧ w.epoch ≤ e then
      edgesDelta [edge] else 0) : Counted r.state balance' := by
  refine ⟨by rw [hr.endEpoch, hr.vbs]; exact h.chain, by rw [hr.edgeNum, hr.vbs]; exact h.edgeNum,
    fun e => ?_⟩
  rw [hr.vbs, hbal, ← h.upTo e]
  rcases hr.entries with ⟨hacc, hstamp, hedges⟩ | ⟨hstamp, hedges⟩
  · simp [hacc, pendingUpTo, hstamp, hedges]
  · have hslot : w.epoch % 16 < 16 := Nat.mod_lt _ (by decide)
    have hne : ∀ k, k ≠ w.epoch % 16 → r.state.pendingUpTo e k = s.pendingUpTo e k := by
      intro k hk
      simp [pendingUpTo, hstamp, hedges, hk]
    rw [sum_slots hslot hne]
    have hkeep : (if s.stampAt (w.epoch % 16) = w.epoch then s.edgesAt (w.epoch % 16) else []) =
        s.edgesAt (w.epoch % 16) := by
      split_ifs with hs
      · rfl
      · have hnil : (s.tmpVb (w.epoch % 16)).entries = [] := hfree.resolve_left hs
        simp [edgesAt, hnil]
    have hnew : r.state.pendingUpTo e (w.epoch % 16) =
        if w.epoch ≤ e then edgesDelta (s.edgesAt (w.epoch % 16)) +
          edgesDelta (if r.accepted then [edge] else []) else 0 := by
      rw [pendingUpTo, hstamp, hedges, update_self, update_self, hkeep, edgesDelta_append]
    have hold : s.pendingUpTo e (w.epoch % 16) =
        if w.epoch ≤ e then edgesDelta (s.edgesAt (w.epoch % 16)) else 0 := by
      rcases hfree with hs | hnil
      · rw [pendingUpTo, hs]
      · simp [pendingUpTo, edgesAt, hnil, edgesDelta]
    rw [hnew, hold]
    cases r.accepted <;> by_cases he : w.epoch ≤ e <;> simp [he, edgesDelta, add_assoc]

theorem Counted.transform {balance : Nat → Int} (h : Counted s balance) {slot : Nat}
    (hslot : slot < 16) (ht : Moves s slot t) (hle : s.vbm.endEpoch ≤ s.stampAt slot) :
    Counted t balance := by
  have hne : ∀ e k, k ≠ slot → t.pendingUpTo e k = s.pendingUpTo e k := by
    intro e k hk
    simp [pendingUpTo, ht.stampAt, ht.edgesAt, hk]
  have hzero : ∀ e, t.pendingUpTo e slot = 0 := by
    intro e
    simp [pendingUpTo, ht.edgesAt, edgesDelta]
  rcases ht.vbm with ⟨hnil, hvbm, hnum⟩ | ⟨vb, hvbs, hts, hlast, hdelta, hend, hnum⟩
  · refine ⟨by rw [hvbm]; exact h.chain, by rw [hvbm, hnum]; exact h.edgeNum, fun e => ?_⟩
    have hold : s.pendingUpTo e slot = 0 := by
      simp [pendingUpTo, hnil, edgesDelta]
    rw [hvbm, sum_slots hslot (hne e), hzero, hold, sub_zero, add_zero]
    exact h.upTo e
  · refine ⟨?_, ?_, fun e => ?_⟩
    · rw [hend, hvbs]
      exact ⟨hts, hlast ▸ hle, hlast ▸ h.chain⟩
    · rw [hnum, hvbs, h.edgeNum]
      simp [add_comm]
    · -- the block takes over what its slot stood for
      rw [sum_slots hslot (hne e), hzero, ← h.upTo e, hvbs]
      simp only [VersionBlockManager.degreeUpTo, List.map_cons, List.sum_cons, pendingUpTo, hts,
        hdelta]
      ring

end Count

end VertexEdges

open VertexEdges

/-- An accepted operation: an insertion adds its destination, a deletion removes it. -/
structure Deed where
  epoch : Nat
  entry : Entry Nat
  deriving DecidableEq

/-- A vertex with its accepted operations, oldest first. -/
structure Ledger where
  state : VertexEdges
  log : List Deed

namespace Ledger

variable {S : StdSort} {h h' : Ledger}

def record (h : Ledger) (delete : Bool) (w : Write) (r : WriteResult) : Ledger :=
  ⟨r.state, if r.accepted then h.log ++ [⟨w.epoch, ⟨w.dst, delete⟩⟩] else h.log⟩

def step (S : StdSort) (h : Ledger) : Op → Option Ledger
  | .insert env w => (h.state.insertEdgeBlock .fineGrain S env w).map (h.record false w)
  | .delete env w => (h.state.deleteEdgeBlock .fineGrain S env w).map (h.record true w)
  | .transform epoch vb =>
    if (h.state.tmpVb (epoch % 16)).timestamp = epoch then
      (h.state.transform .fineGrain S (epoch % 16) vb).map fun r => ⟨r.2, h.log⟩
    else none

/-- The ring of 16 slots and the order of publication, as AllVBManager keeps them: a write finds
the slot of its epoch free or its own, and epochs are published in ascending order. -/
def InTurn (h : Ledger) : Op → Prop
  | .insert _ w => SlotFree h.state w.epoch
  | .delete _ w => SlotFree h.state w.epoch
  | .transform epoch _ => h.state.vbm.endEpoch ≤ epoch

instance (h : Ledger) (op : Op) : Decidable (InTurn h op) :=
  match op with
  | .insert _ _ => inferInstanceAs (Decidable (_ ∨ _))
  | .delete _ _ => inferInstanceAs (Decidable (_ ∨ _))
  | .transform _ _ => inferInstanceAs (Decidable (_ ≤ _))

/-- The operations of epochs up to `e`. -/
def upTo (log : List Deed) (e : Nat) : List (Entry Nat) :=
  (log.filter fun x => x.epoch ≤ e).map Deed.entry

theorem upTo_append (log : List Deed) (x : Deed) (e : Nat) :
    upTo (log ++ [x]) e = upTo log e ++ if x.epoch ≤ e then [x.entry] else [] := by
  by_cases he : x.epoch ≤ e <;> simp [upTo, he]

structure Inv (h : Ledger) : Prop where
  counted : Counted h.state fun e => Entry.balance (upTo h.log e)
  epoch_pos : ∀ x ∈ h.log, 0 < x.epoch

theorem inv_record {delete : Bool} {w : Write} {r : WriteResult} {edge : Nat} (hinv : Inv h)
    (hr : Buffers h.state w edge r) (hfree : SlotFree h.state w.epoch)
    (hedge : edgesDelta [edge] = Entry.delta (⟨w.dst, delete⟩ : Entry Nat)) :
    Inv (h.record delete w r) := by
  refine ⟨hinv.counted.write hr hfree fun e => ?_, fun x hx => ?_⟩
  · unfold record
    cases r.accepted with
    | false => simp
    | true =>
      simp only [if_true, upTo_append, true_and]
      by_cases he : w.epoch ≤ e
      · simp [he, Entry.balance, hedge]
      · simp [he]
  · unfold record at hx
    split_ifs at hx
    · rcases List.mem_append.mp hx with hx | hx
      · exact hinv.epoch_pos x hx
      · obtain rfl := List.mem_singleton.mp hx
        exact w.epoch_pos
    · exact hinv.epoch_pos x hx

theorem step_inv (hinv : Inv h) {op : Op} (hok : InTurn h op) (hstep : step S h op = some h') :
    Inv h' := by
  cases op with
  | insert env w =>
    obtain ⟨r, hr, rfl⟩ := Option.map_eq_some_iff.mp hstep
    apply inv_record hinv (insert_buffers hr) hok
    simp [edgesDelta, Entry.delta, isDelete_of_lt w.dst_lt]
  | delete env w =>
    obtain ⟨r, hr, rfl⟩ := Option.map_eq_some_iff.mp hstep
    apply inv_record hinv (delete_buffers hr) hok
    simp [edgesDelta, Entry.delta]
  | transform epoch vb =>
    simp only [step] at hstep
    split_ifs at hstep with hts
    obtain ⟨⟨n, t⟩, ht, rfl⟩ := Option.map_eq_some_iff.mp hstep
    have hts : h.state.stampAt (epoch % 16) = epoch := hts
    exact ⟨hinv.counted.transform (Nat.mod_lt _ (by decide)) (transform_moves ht)
      (hts.symm ▸ hok), hinv.epoch_pos⟩

/-- A destination is live at an epoch if its last operation up to the epoch is an insertion, or
build. -/
def liveAt (edges : List Nat) (log : List Deed) (e d : Nat) : Bool :=
  match (log.filter fun x => x.epoch ≤ e ∧ x.entry.key = d).getLast? with
  | some x => !x.entry.removed
  | none => d ∈ edges

def liveCount (edges : List Nat) (log : List Deed) (e : Nat) : Nat :=
  ((edges ++ log.map fun x => x.entry.key).toFinset.filter fun d => liveAt edges log e d).card

theorem mem_live_upTo (edges : List Nat) (log : List Deed) (e d : Nat) :
    d ∈ Entry.live edges.toFinset (upTo log e) ↔ liveAt edges log e d = true := by
  have hlast : ((upTo log e).filter fun x => x.key = d).getLast? =
      ((log.filter fun x => x.epoch ≤ e ∧ x.entry.key = d).getLast?).map Deed.entry := by
    rw [upTo, List.filter_map, List.filter_filter, List.getLast?_map]
    congr 3
    funext x
    simp [and_comm]
  rw [Entry.mem_live, hlast, liveAt]
  cases (log.filter fun x => x.epoch ≤ e ∧ x.entry.key = d).getLast? <;> simp

theorem liveCount_eq (edges : List Nat) (log : List Deed) (e : Nat) :
    liveCount edges log e = (Entry.live edges.toFinset (upTo log e)).card := by
  unfold liveCount
  congr 1
  ext d
  rw [Finset.mem_filter, mem_live_upTo, and_iff_right_iff_imp]
  intro hlive
  unfold liveAt at hlive
  rw [List.mem_toFinset, List.mem_append, List.mem_map]
  cases hl : (log.filter fun x => x.epoch ≤ e ∧ x.entry.key = d).getLast? with
  | none =>
    left
    rw [hl] at hlive
    exact of_decide_eq_true hlive
  | some x =>
    right
    have hx := List.mem_filter.mp (List.mem_of_getLast? hl)
    simp only [decide_eq_true_eq] at hx
    exact ⟨x, hx.1, hx.2.2⟩

/-- With all epochs published, get_degree counts the live destinations of every epoch exactly if the
vertex was built empty and up to every epoch as many insertions overwrite a live destination as
deletions hit a deleted one. -/
theorem degree_iff {edges properties : List Nat} {malloc tmp : Nat → EdgeWithIndex} {es : List Op}
    (hrun : exec (step S) ⟨.build edges properties malloc tmp, []⟩ es = some h)
    (hok : Along (step S) InTurn ⟨.build edges properties malloc tmp, []⟩ es)
    (hpub : ∀ k < 16, (h.state.tmpVb k).entries = []) :
    (∀ e, h.state.getDegree e = some (liveCount edges h.log e : Int)) ↔
      edges = [] ∧ ∀ e, Entry.readded ∅ (upTo h.log e) = Entry.reremoved ∅ (upTo h.log e) := by
  have hinit : Inv ⟨.build edges properties malloc tmp, []⟩ := by
    refine ⟨⟨rfl, rfl, fun e => ?_⟩, by simp⟩
    simp [VertexEdges.build, VersionBlockManager.empty, VersionBlockManager.degreeUpTo,
      pendingUpTo, edgesAt, edgesDelta, upTo, Entry.balance]
  have hinv : Inv h := invariant_of_step (fun _ _ _ hi ho hs => step_inv hi ho hs) hinit hok hrun
  have hempty : ∀ k < 16, h.state.edgesAt k = [] := by
    intro k hk
    simp [edgesAt, hpub k hk]
  have hmiss : ∀ e, h.state.getDegree e = some (liveCount edges h.log e : Int) ↔
      Entry.readded edges.toFinset (upTo h.log e) =
        edges.toFinset.card + Entry.reremoved edges.toFinset (upTo h.log e) := by
    intro e
    have hcard := Entry.card_live edges.toFinset (upTo h.log e)
    rw [hinv.counted.getDegree hempty, liveCount_eq, Option.some.injEq]
    omega
  constructor
  · intro hall
    -- epoch 0 knows the built edges only
    have hzero : upTo h.log 0 = [] := by
      unfold upTo
      rw [List.map_eq_nil_iff, List.filter_eq_nil_iff]
      intro x hx
      have := hinv.epoch_pos x hx
      simp only [decide_eq_true_eq]
      omega
    have hcard := (hmiss 0).mp (hall 0)
    rw [hzero, Entry.readded, Entry.reremoved, add_zero, eq_comm, Finset.card_eq_zero,
      List.toFinset_eq_empty_iff] at hcard
    subst hcard
    refine ⟨rfl, fun e => ?_⟩
    simpa using (hmiss e).mp (hall e)
  · rintro ⟨rfl, hall⟩ e
    rw [hmiss]
    simpa using hall e

/-- A vertex built empty, and the memory that its examples run on. -/
private def emptyLedger : Ledger := ⟨.build [] [] (fun _ => ⟨0, 0, 0⟩) fun _ => ⟨0, 0, 0⟩, []⟩

private def opOn (dst epoch intra : Nat) (h : dst < 2 ^ 63 ∧ 0 < epoch ∧ epoch < 2 ^ 31) : Write :=
  ⟨dst, 5, epoch, ⟨true, 0, intra, 0⟩, h.1, h.2.1, h.2.2⟩

private def insertThenDelete : List Op :=
  [.insert History.freshEnv (opOn 7 1 1 (by decide)), .insert History.freshEnv (opOn 8 1 2 (by decide)),
    .transform 1 100, .delete History.freshEnv (opOn 7 2 1 (by decide)), .transform 2 200]

/-- Edges 7 and 8 are inserted in epoch 1 and edge 7 is deleted in epoch 2. -/
theorem degree_iff_insertThenDelete : ∃ h, exec (step .stable) emptyLedger insertThenDelete = some h ∧
    ∀ e, h.state.getDegree e = some (liveCount [] h.log e : Int) := by
  obtain ⟨h, hrun, hlog, hpub⟩ : ∃ h, exec (step .stable) emptyLedger insertThenDelete = some h ∧
      h.log = [⟨1, ⟨7, false⟩⟩, ⟨1, ⟨8, false⟩⟩, ⟨2, ⟨7, true⟩⟩] ∧
      ∀ k < 16, (h.state.tmpVb k).entries = [] := by
    apply exists_exec
    decide +kernel
  have hok : Along (step .stable) InTurn emptyLedger insertThenDelete := by decide +kernel
  refine ⟨h, hrun, (degree_iff hrun hok hpub).mpr ⟨rfl, fun e => ?_⟩⟩
  rw [hlog]
  -- the log up to epoch 0, up to epoch 1 and whole
  rcases e with _ | _ | e
  · decide
  · decide
  · have hall : upTo [⟨1, ⟨7, false⟩⟩, ⟨1, ⟨8, false⟩⟩, ⟨2, ⟨7, true⟩⟩] (e + 1 + 1) =
        [⟨7, false⟩, ⟨8, false⟩, ⟨7, true⟩] := by
      simp [upTo]
    rw [hall]
    decide

/-- Edge 7 is inserted in epoch 1 and overwritten in epoch 2: get_degree(2) is 2. -/
theorem overwrite_counted : ¬∀ (S : StdSort) (edges properties : List Nat)
    (malloc tmp : Nat → EdgeWithIndex) (es : List Op) (h : Ledger),
      exec (step S) ⟨.build edges properties malloc tmp, []⟩ es = some h →
      Along (step S) InTurn ⟨.build edges properties malloc tmp, []⟩ es →
      (∀ k < 16, (h.state.tmpVb k).entries = []) →
      ∀ e, h.state.getDegree e = some (liveCount edges h.log e : Int) := by
  intro hall
  let es : List Op := [.insert History.freshEnv (opOn 7 1 1 (by decide)), .transform 1 100,
    .insert History.freshEnv (opOn 7 2 1 (by decide)), .transform 2 200]
  obtain ⟨h, hrun, hpub, hne⟩ : ∃ h, exec (step .stable) emptyLedger es = some h ∧
      (∀ k < 16, (h.state.tmpVb k).entries = []) ∧
      h.state.getDegree 2 ≠ some (liveCount [] h.log 2 : Int) := by
    apply exists_exec
    decide +kernel
  have hok : Along (step .stable) InTurn emptyLedger es := by decide +kernel
  exact hne (hall .stable [] [] _ _ es h hrun hok hpub 2)

end Ledger

end AVBGraph
