import AVBGraph.Snapshot.Coarse
import AVBGraph.Vertex.Degree
import AVBGraph.Vertex.Traversal

namespace AVBGraph

open Framework Function

namespace VertexEdges

/-- has_primary_only_state. -/
def hasPrimaryOnlyState (b : Build) (s : VertexEdges) : Bool :=
  s.tmpEv = 0 && s.vbm.endEpoch = 0 && match b with
    | .fineGrain => (List.range 16).all fun k => !s.vbm.activeTvbMask k
    | .coarse => true

/-- for_each_primary_edge: the edges handed to the callback, in order. -/
def forEachPrimaryEdge (s : VertexEdges) : List EdgeWithIndex :=
  ((List.range s.edgesAndVersions).map s.start).filter fun x => !isDelete x.e

end VertexEdges

namespace Primary

/-- A call on one vertex, accepted or refused; Transform may be called on any slot. -/
inductive Call
  | insert (env : Env) (w : Write)
  | delete (env : Env) (w : Write)
  | transform (slot vb : Nat)

def step (b : Build) (S : StdSort) (s : VertexEdges) : Call → Option VertexEdges
  | .insert env w => (s.insertEdgeBlock b S env w).map WriteResult.state
  | .delete env w => (s.deleteEdgeBlock b S env w).map WriteResult.state
  | .transform slot vb => (s.transform b S slot vb).map Prod.snd

end Primary

namespace VertexEdges

variable {b : Build} {S : StdSort} {env : Env} {s t : VertexEdges} {w : Write} {slot vb : Nat}

section Bounds

/-- Buffer and primary adjacency lie within their allocations. -/
structure Bounds (s : VertexEdges) : Prop where
  tmpEv_le : s.tmpEv ≤ tmpNum
  le_capacity : s.edgesAndVersions ≤ s.capacity
  num_eq : s.num = s.edgesAndVersions + s.tmpEv

/-- Writing an item, even one that is not in use, touches no other edge half. -/
theorem Bounds.itemE_setItem (h : Bounds s) {l k : Loc} {x : Item} (hk : k ∈ s.locs) :
    (s.setItem l x).itemE k = if k = l then x.1 else s.itemE k := by
  have h1 := h.tmpEv_le
  have h2 := h.le_capacity
  rw [mem_locs] at hk
  cases l with
  | tmp i =>
    cases k with
    | tmp j =>
      have hne : j ≠ i + tmpNum := by simp only at hk; omega
      by_cases hij : j = i <;> simp [setItem, setItemE, setItemP, itemE, hij, hne]
      subst hij
      rw [Function.update_of_ne hne, Function.update_self]
    | start j => simp [setItem, setItemE, setItemP, itemE]
  | start i =>
    cases k with
    | tmp j => simp [setItem, setItemE, setItemP, itemE]
    | start j =>
      have hne : j ≠ i + s.capacity := by simp only at hk; omega
      by_cases hij : j = i <;> simp [setItem, setItemE, setItemP, itemE, hij, hne]
      subst hij
      rw [Function.update_of_ne hne, Function.update_self]

variable {P : EdgeWithIndex → Prop}

/-- The compaction keeps what holds of every edge half. -/
theorem compact_live (h : Bounds s) (oldest : Nat) (hP : ∀ i < s.edgesAndVersions, P (s.start i)) :
    (compact oldest s).y ≤ s.edgesAndVersions ∧
      (∀ i < (compact oldest s).y, P ((compact oldest s).start i)) ∧
      (compact oldest s).num + s.edgesAndVersions = s.num + (compact oldest s).y := by
  have hcap := h.le_capacity
  have hn := h.num_eq
  have hround : ∀ n ≤ s.edgesAndVersions,
      let c := (List.range n).foldl (compactStep oldest s.capacity) ⟨0, s.start, s.m, s.num⟩
      c.y ≤ n ∧ (∀ i < c.y, P (c.start i)) ∧ c.num + n = s.num + c.y ∧
        ∀ i, n ≤ i → i < s.edgesAndVersions → c.start i = s.start i := by
    intro n hle
    induction n with
    | zero => exact ⟨le_rfl, by simp, rfl, fun _ _ _ => rfl⟩
    | succ n ih =>
      obtain ⟨hy, hkept, hnum, hrest⟩ := ih (by omega)
      rw [List.range_succ, List.foldl_append]
      generalize (List.range n).foldl (compactStep oldest s.capacity) ⟨0, s.start, s.m, s.num⟩ = c
        at *
      have hcn := hrest n le_rfl (by omega)
      simp only [List.foldl_cons, List.foldl_nil, compactStep]
      split_ifs with hd
      · refine ⟨by simp only; omega, hkept, by simp only; omega, fun i hi hin => ?_⟩
        exact hrest i (by omega) hin
      · have hne : n ≠ c.y + s.capacity := by omega
        refine ⟨by simp only; omega, fun i hi => ?_, by simp only; omega, fun i hi hin => ?_⟩
        · simp only at hi ⊢
          by_cases hiy : i = c.y
          · subst hiy
            rw [update_self, update_of_ne hne, hcn]
            exact hP n (by omega)
          · rw [update_of_ne hiy, update_of_ne (by omega)]
            exact hkept i (by omega)
        · simp only
          rw [update_of_ne (by omega), update_of_ne (by omega)]
          exact hrest i (by omega) hin
  obtain ⟨hy, hkept, hnum, -⟩ := hround _ le_rfl
  exact ⟨hy, hkept, hnum⟩

/-- One round of the merge places an edge half at `p`, behind all that is still to be read. -/
theorem Filling.live_place (f : Filling) {p q capacity n : Nat} {e a : EdgeWithIndex}
    (hn : n ≤ capacity) (hp : p < n) (hq : q ≤ p) (he : P e) (hstart : ∀ i < q, P (f.start i))
    (hout : ∀ i, p + 1 ≤ i → i < n → P (f.out i)) :
    (∀ i < q, P (((f.write (p + capacity) a).write p e).start i)) ∧
      ∀ i, p ≤ i → i < n → P (((f.write (p + capacity) a).write p e).out i) := by
  constructor
  · intro i hi
    rw [Filling.start_write _ _ fun _ => by omega, Filling.start_write _ _ fun _ => by omega]
    exact hstart i hi
  · intro i hi hin
    rw [Filling.out_write, Filling.out_write]
    by_cases hip : i = p
    · subst hip
      rw [update_self]
      exact he
    · rw [update_of_ne hip, update_of_ne (by omega)]
      exact hout i (by omega) hin

/-- The backward merge places edge halves of its two sources only. -/
theorem fill_live (tmpItem : Nat → EdgeWithIndex) (indices : List Nat) (old : Nat)
    {capacity n : Nat} (hn : n ≤ capacity) (htmp : ∀ k, P (tmpItem (indices.getD k 0))) (x y : Nat) (f : Filling)
    (hxy : x + y ≤ n) (hstart : ∀ i < y, P (f.start i))
    (hout : ∀ i, x + y ≤ i → i < n → P (f.out i)) :
    let r := fill tmpItem indices old capacity x y f
    r.2 ≤ y ∧ (∀ i < r.2, P (r.1.start i)) ∧ (∀ i, r.2 ≤ i → i < n → P (r.1.out i)) ∧
      r.1.fresh.isSome = f.fresh.isSome := by
  fun_induction fill tmpItem indices old capacity x y f with
  | case1 y f => exact ⟨le_rfl, hstart, fun i hi => hout i (by omega), rfl⟩
  | case2 x f t f' ih =>
    obtain ⟨hs, ho⟩ := f.live_place (a := tmpItem (t + tmpNum)) hn (by omega) (Nat.zero_le x)
      (htmp x) (by simp) fun i hi => hout i (by omega)
    simpa [f'] using ih (by omega) hs fun i hi => ho i (by omega)
  | case3 x y f t nw hlt f' ih =>
    obtain ⟨hs, ho⟩ := f.live_place (a := tmpItem (t + tmpNum)) hn (show nw < n by omega)
      (show y + 1 ≤ nw by omega) (htmp x) hstart fun i hi => hout i (by omega)
    simpa [f'] using ih (by omega) hs fun i hi => ho i (by omega)
  | case4 x y f t nw hlt g f' ih =>
    have hy : P (g.start y) := by
      rw [Filling.start_write _ _ fun _ => by omega]
      exact hstart y (by omega)
    obtain ⟨hs, ho⟩ := f.live_place (a := f.start (y + old)) hn (show nw < n by omega)
      (show y ≤ nw by omega) hy (fun i hi => hstart i (by omega)) fun i hi => hout i (by omega)
    obtain ⟨hle, hr⟩ := ih (by omega) hs fun i hi => ho i (by omega)
    exact ⟨hle.trans (Nat.le_succ y), by simpa [f', g] using hr⟩

theorem copyRest_live (old : Nat) {capacity y i : Nat} {f : Filling} (hi : i < capacity)
    (hs : i < y → P (f.start i)) (ho : y ≤ i → P (f.out i)) : P (copyRest old capacity y f i) := by
  have hval : copyRest old capacity y f i = if i < y then f.start i else f.out i := by
    obtain ⟨start, _ | fresh⟩ := f
    · simp [copyRest, Filling.out]
    · simp [copyRest, Filling.out, hi.not_ge]
  rw [hval]
  split_ifs with hiy
  · exact hs hiy
  · exact ho (not_lt.mp hiy)

/-- A merge of a full buffer moves edge halves and makes up none. -/
theorem merge_live (S : StdSort) (env : Env) (h : Bounds s) (ht : s.tmpEv = tmpNum)
    (hP : ∀ l ∈ s.locs, P (s.itemE l)) :
    Bounds (mergeTmpevWithEb S env s) ∧
      ∀ l ∈ (mergeTmpevWithEb S env s).locs, P ((mergeTmpevWithEb S env s).itemE l) := by
  have hn := h.num_eq
  have hstart : ∀ i < s.edgesAndVersions, P (s.start i) :=
    fun i hi => hP (.start i) (mem_locs.mpr hi)
  have htmp : ∀ k, P (s.tmpItem ((bufferOrder S s).getD k 0)) := by
    intro k
    apply hP (.tmp _) (mem_locs.mpr _)
    show (bufferOrder S s).getD k 0 < s.tmpEv
    rw [List.getD_eq_getElem?_getD, ht]
    cases hk : (bufferOrder S s)[k]? with
    | none => exact Nat.zero_lt_succ _
    | some i => exact S.mem.mp (List.mem_of_getElem? hk)
  obtain ⟨hy, hkept, hnum⟩ := compact_live h env.oldest hstart
  have hroom : s.num ≤ newCapacity s ∧ s.capacity ≤ newCapacity s := by
    have := h.le_capacity
    unfold newCapacity
    split_ifs with h1 h2
    · omega
    · have := le_growCapacity s.num s.num s.capacity (by omega) (by omega)
      omega
    · omega
  have hfill := fill_live s.tmpItem (bufferOrder S s) s.capacity
    (show tmpNum + (compact env.oldest s).y ≤ newCapacity s by omega) htmp tmpNum
    (compact env.oldest s).y
    ⟨(compact env.oldest s).start, if s.capacity < s.num then some env.malloc else none⟩ le_rfl
    hkept fun i hi hin => absurd hin (by omega)
  obtain ⟨hle, hs, ho, -⟩ := hfill
  refine ⟨⟨Nat.zero_le _, ?_, ?_⟩, ?_⟩
  · show (compact env.oldest s).y + tmpNum ≤ newCapacity s
    omega
  · show (compact env.oldest s).num = (compact env.oldest s).y + tmpNum + 0
    omega
  · intro l hl
    cases l with
    | tmp i => exact absurd (mem_locs.mp hl) (Nat.not_lt_zero i)
    | start i =>
      have hi : i < (compact env.oldest s).y + tmpNum := mem_locs.mp hl
      show P (copyRest s.capacity (newCapacity s) _ _ i)
      exact copyRest_live _ (by omega) (hs i) fun hiy => ho i hiy (by omega)

theorem prepare_live (S : StdSort) (env : Env) (h : Bounds s) (hP : ∀ l ∈ s.locs, P (s.itemE l)) :
    Bounds (s.prepare S env) ∧ (s.prepare S env).tmpEv < tmpNum ∧
      ∀ l ∈ (s.prepare S env).locs, P ((s.prepare S env).itemE l) := by
  unfold prepare
  split_ifs with hfull
  · obtain ⟨hb, hl⟩ := merge_live S env h hfull hP
    exact ⟨hb, Nat.zero_lt_succ _, hl⟩
  · exact ⟨h, lt_of_le_of_ne h.tmpEv_le hfull, hP⟩

/-- Writing an item keeps what holds of every edge half, if the new half is of that kind. -/
theorem setItem_live (h : Bounds s) (hP : ∀ l ∈ s.locs, P (s.itemE l)) {l : Loc} {x : Item}
    (hx : l ∈ s.locs → P x.1) :
    Bounds (s.setItem l x) ∧ ∀ k ∈ (s.setItem l x).locs, P ((s.setItem l x).itemE k) := by
  constructor
  · exact ⟨by simpa using h.tmpEv_le, by simpa using h.le_capacity, by simpa using h.num_eq⟩
  · intro k hk
    rw [locs_setItem] at hk
    rw [h.itemE_setItem hk]
    split_ifs with hkl
    · exact hx (hkl ▸ hk)
    · exact hP k hk

end Bounds

section Coarse

/-- What the tail of a coarse write can do: nothing, or a new entry or a folded one in the slot of
its epoch and a new edge half of the same epoch. -/
theorem writeCoarse_cases (l : Loc) (offset : Nat) (delete : Bool) :
    (s.writeCoarse l offset delete w).2 = s ∨ ∃ u x p, SameItems s u ∧
      (∀ k, k ≠ w.epoch % 16 → u.edgesAt k = s.edgesAt k) ∧
      x.getCoarseC = (s.itemE l).getCoarseC ∧
      ((s.writeCoarse l offset delete w).2 = u.setItemE l x ∨
        (s.writeCoarse l offset delete w).2 = u.setItem l (x, p)) := by
  obtain ⟨-, hr⟩ | ⟨-, -, -, hr⟩ | ⟨-, -, -, vb, -, hr⟩ | ⟨-, -, block, index, link, hr⟩ :=
    s.writeCoarse_tail l offset delete w
  · exact Or.inl (by rw [← hr])
  · exact Or.inl (by rw [← hr])
  · rw [← hr]
    refine Or.inr ⟨_, _, default, SameItems.setTmpVb s (update s.tmpVb (w.epoch % 16) vb),
      fun k hk => ?_, ?_, Or.inl rfl⟩
    · simp [edgesAt, hk]
    · rfl
  · rw [← hr]
    refine Or.inr ⟨_, _, _, SameItems.added s w block index link offset l, fun k hk => ?_, ?_,
      Or.inr rfl⟩
    · rw [edgesAt_linkNext, edgesAt_insertVersion, update_of_ne hk]
    · exact clearTmp_setTmp _

/-- No reader can tell the entries of a vertex apart by their versions. -/
structure Plain (s : VertexEdges) : Prop extends Bounds s where
  vbs : s.vbm.vbs = []
  edge : ∀ l ∈ s.locs, (s.itemE l).getCoarseC = 0

theorem Plain.of_sameItems (h : Plain s) (hst : SameItems s t) : Plain t where
  tmpEv_le := hst.tmpEv ▸ h.tmpEv_le
  le_capacity := by rw [hst.edgesAndVersions, hst.capacity]; exact h.le_capacity
  num_eq := by rw [hst.num, hst.edgesAndVersions, hst.tmpEv]; exact h.num_eq
  vbs := by rw [hst.vbm]; exact h.vbs
  edge := by
    intro l hl
    rw [hst.itemE]
    exact h.edge l (hst.locs ▸ hl)

theorem Plain.setItem (h : Plain s) {l : Loc} {x : Item} (hx : l ∈ s.locs → x.1.getCoarseC = 0) :
    Plain (s.setItem l x) := by
  obtain ⟨hb, hl⟩ := setItem_live (P := fun x => x.getCoarseC = 0) h.toBounds h.edge hx
  exact { hb with vbs := by rw [vbm_setItem, h.vbs], edge := hl }

theorem Plain.setItemE (h : Plain s) {l : Loc} {x : EdgeWithIndex}
    (hx : l ∈ s.locs → x.getCoarseC = 0) : Plain (s.setItemE l x) := by
  have hitem : ∀ k, (s.setItemE l x).itemE k = if k = l then x else s.itemE k := by
    intro k
    cases l <;> cases k <;> simp [VertexEdges.setItemE, itemE, update_apply]
  have hlocs : (s.setItemE l x).locs = s.locs := by cases l <;> rfl
  refine ⟨⟨?_, ?_, ?_⟩, ?_, ?_⟩
  · cases l <;> exact h.tmpEv_le
  · cases l <;> exact h.le_capacity
  · cases l <;> exact h.num_eq
  · cases l <;> exact h.vbs
  · intro k hk
    rw [hlocs] at hk
    rw [hitem]
    split_ifs with hkl
    · exact hx (hkl ▸ hk)
    · exact h.edge k hk

theorem Plain.append (h : Plain s) (hlt : s.tmpEv < tmpNum) {x : Item} (hx : x.1.getCoarseC = 0) :
    Plain (s.append x) := by
  have hnum := h.num_eq
  refine ⟨⟨hlt, h.le_capacity, ?_⟩, h.vbs, ?_⟩
  · show s.num + 1 = s.edgesAndVersions + (s.tmpEv + 1)
    omega
  · intro k hk
    rcases mem_locs_append.mp hk with rfl | hk
    · exact (congrArg (fun y : Item => y.1.getCoarseC) (itemAt_append_new hlt)).trans hx
    · exact (congrArg (fun y : Item => y.1.getCoarseC) (itemAt_append hlt hk)).trans (h.edge k hk)

theorem Plain.findOrAppend (h : Plain s) (hlt : s.tmpEv < tmpNum) {f : Found}
    (hf : s.findOrAppend w = some f) : Plain f.state := by
  unfold VertexEdges.findOrAppend at hf
  split_ifs at hf
  · obtain ⟨⟨l, offset⟩, -, rfl⟩ := Option.map_eq_some_iff.mp hf
    exact h.setItemE fun hl => h.edge l hl
  · obtain rfl := Option.some.inj hf
    exact h.append hlt rfl

theorem Plain.writeCoarse (h : Plain s) (l : Loc) (offset : Nat) (delete : Bool) :
    Plain (s.writeCoarse l offset delete w).2 := by
  rcases writeCoarse_cases (s := s) (w := w) l offset delete with hs | ⟨u, x, p, hsame, -, hx, hs⟩
  · rw [hs]
    exact h
  · have hx : l ∈ u.locs → x.getCoarseC = 0 := by
      intro hl
      rw [hsame.locs] at hl
      exact hx.trans (h.edge l hl)
    rcases hs with hs | hs
    · rw [hs]
      exact (h.of_sameItems hsame).setItemE hx
    · rw [hs]
      exact (h.of_sameItems hsame).setItem hx

theorem Plain.prepare (h : Plain s) (S : StdSort) (env : Env) :
    Plain (s.prepare S env) ∧ (s.prepare S env).tmpEv < tmpNum := by
  obtain ⟨hb, hlt, hedge⟩ := prepare_live (P := fun x => x.getCoarseC = 0) S env h.toBounds h.edge
  exact ⟨{ hb with vbs := by rw [vbm_prepare, h.vbs], edge := hedge }, hlt⟩

/-- No write gives an entry a version that a reader could miss. -/
theorem Plain.insert (h : Plain s) {r : WriteResult}
    (hr : s.insertEdgeBlock .coarse S env w = some r) : Plain r.state := by
  obtain ⟨f, hf, rfl⟩ := Option.map_eq_some_iff.mp hr
  obtain ⟨hp, hlt⟩ := h.prepare S env
  exact ((hp.findOrAppend hlt hf).of_sameItems (SameItems.openTvb _ w.epoch)).writeCoarse _ _ _

theorem Plain.delete (h : Plain s) {r : WriteResult}
    (hr : s.deleteEdgeBlock .coarse S env w = some r) : Plain r.state := by
  obtain ⟨hp, -⟩ := h.prepare S env
  unfold deleteEdgeBlock at hr
  simp only at hr
  split_ifs at hr
  · obtain ⟨⟨l, offset⟩, -, rfl⟩ := Option.map_eq_some_iff.mp hr
    exact (hp.of_sameItems (SameItems.openTvb _ w.epoch)).writeCoarse _ _ _
  · obtain rfl := Option.some.inj hr
    exact hp

end Coarse

section Stamps

theorem edgesAt_writeCoarse (l : Loc) (offset : Nat) (delete : Bool) {k : Nat}
    (hk : k ≠ w.epoch % 16) : (s.writeCoarse l offset delete w).2.edgesAt k = s.edgesAt k := by
  rcases writeCoarse_cases (s := s) (w := w) l offset delete with h | ⟨u, x, p, -, hedges, -, h⟩
  · rw [h]
  · rcases h with h | h
    · rw [h, edgesAt_of_tmpVb (tmpVb_setItemE ..), hedges k hk]
    · rw [h, edgesAt_of_tmpVb tmpVb_setItem, hedges k hk]

theorem vbm_writeCoarse (l : Loc) (offset : Nat) (delete : Bool) :
    (s.writeCoarse l offset delete w).2.vbm = s.vbm := by
  rcases writeCoarse_cases (s := s) (w := w) l offset delete with h | ⟨u, x, p, hsame, -, -, h⟩
  · rw [h]
  · rcases h with h | h
    · rw [h, ← hsame.vbm]
      cases l <;> rfl
    · rw [h, vbm_setItem, hsame.vbm]

theorem edgesAt_openTvb_coarse (epoch : Nat) {k : Nat} (hk : k ≠ epoch % 16) :
    (s.openTvb .coarse epoch).2.edgesAt k = s.edgesAt k := by
  unfold openTvb
  by_cases h : (s.tmpVb (epoch % 16)).timestamp = epoch
  · rw [if_pos h]
  · rw [if_neg h]
    simp [edgesAt, hk]

theorem tmpVb_findOrAppend {f : Found} (hf : s.findOrAppend w = some f) :
    f.state.tmpVb = s.tmpVb ∧ f.state.vbm = s.vbm := by
  unfold findOrAppend at hf
  split_ifs at hf
  · obtain ⟨⟨l, offset⟩, -, rfl⟩ := Option.map_eq_some_iff.mp hf
    cases l <;> exact ⟨rfl, rfl⟩
  · obtain rfl := Option.some.inj hf
    exact ⟨rfl, rfl⟩

/-- A write leaves the entries of the other slots in place. -/
theorem insert_edgesAt {r : WriteResult} (hr : s.insertEdgeBlock b S env w = some r) {k : Nat}
    (hk : k ≠ w.epoch % 16) : r.state.edgesAt k = s.edgesAt k := by
  cases b with
  | fineGrain =>
    rcases (insert_buffers hr).entries with ⟨-, -, h⟩ | ⟨-, h⟩
    · rw [h]
    · rw [h, update_of_ne hk]
  | coarse =>
    obtain ⟨f, hf, rfl⟩ := Option.map_eq_some_iff.mp hr
    have htmp := (tmpVb_findOrAppend hf).1.trans tmpVb_prepare
    show (VertexEdges.writeCoarse _ _ _ _ _).2.edgesAt k = _
    rw [edgesAt_writeCoarse _ _ _ hk, edgesAt_openTvb_coarse _ hk, edgesAt_of_tmpVb htmp]

/-- Transform empties its slot. -/
theorem edgesAt_transform {n : Nat} (h : s.transform b S slot vb = some (n, t)) :
    t.edgesAt = update s.edgesAt slot [] ∧
      ((s.edgesAt slot = [] ∧ t = s) ∨
        s.edgesAt slot ≠ [] ∧ t.vbm.endEpoch = s.stampAt slot) := by
  have hnil : s.edgesAt slot = [] ↔ (s.tmpVb slot).entries = [] := List.map_eq_nil_iff
  unfold transform at h
  split_ifs at h with hs
  · obtain ⟨-, rfl⟩ := Prod.mk.inj (Option.some.inj h)
    have hs := hnil.mpr hs
    exact ⟨(update_eq_self_iff.mpr hs.symm).symm, Or.inl ⟨hs, rfl⟩⟩
  · obtain ⟨p, hp, h⟩ := Option.map_eq_some_iff.mp h
    obtain ⟨-, rfl⟩ := Prod.mk.inj h
    have hedges : p.state.edgesAt = s.edgesAt := publishAll_const
      (fun _ _ _ => edgesAt_of_tmpVb tmpVb_setItem)
      (fun _ link addr => edgesAt_changeLast link addr) hp
    refine ⟨?_, Or.inr ⟨hnil.not.mpr hs, ?_⟩⟩
    · rw [← hedges]
      funext k
      show (update p.state.tmpVb slot _ k).entries.map _ = _
      by_cases hk : k = slot
      · subst hk
        simp [TmpVersionBlock.clear]
      · simp [hk, edgesAt]
    · cases b <;> rfl

/-- Entries wait in slots of positive epochs only. -/
def PositiveSlots (s : VertexEdges) : Prop := ∀ k, s.stampAt k = 0 → s.edgesAt k = []

end Stamps

section FineGrain

/-- No write has reached a TmpVersionBlock. -/
structure Untouched (s : VertexEdges) : Prop where
  tmpEv : s.tmpEv = 0
  vbs : s.vbm.vbs = []
  stampAt : ∀ k, s.stampAt k = 0
  edge : ∀ i < s.edgesAndVersions, (s.start i).creation = ⟨0, 0⟩

/-- An open TmpVersionBlock or a block of the chain. -/
def Touched (s : VertexEdges) : Prop :=
  0 < s.vbm.endEpoch ∨ ∃ k < 16, s.vbm.activeTvbMask k = true

theorem vbm_openTvb (epoch : Nat) : (s.openTvb .fineGrain epoch).2.vbm =
    if s.stampAt (epoch % 16) = epoch then s.vbm else s.vbm.markTvbActive epoch := by
  unfold openTvb
  by_cases h : (s.tmpVb (epoch % 16)).timestamp = epoch
  · rw [if_pos h]
    exact (if_pos h).symm
  · rw [if_neg h]
    exact (if_neg h).symm

/-- The blocks and the mask after a write that reached its TmpVersionBlock. -/
theorem insert_vbm {r : WriteResult} (hr : s.insertEdgeBlock .fineGrain S env w = some r) :
    r.state.vbm =
      if s.stampAt (w.epoch % 16) = w.epoch then s.vbm else s.vbm.markTvbActive w.epoch := by
  obtain ⟨f, hf, rfl⟩ := Option.map_eq_some_iff.mp hr
  obtain ⟨htmp, hvbm⟩ := tmpVb_findOrAppend hf
  show (VertexEdges.insertFine _ _ _ _ _).2.vbm = _
  rw [(insertFine_appends _ _ _).vbm, vbm_openTvb, hvbm, vbm_prepare,
    stampAt_of_tmpVb (htmp.trans tmpVb_prepare)]

theorem Touched.markActive {epoch : Nat} (hvbm : t.vbm = s.vbm.markTvbActive epoch) : Touched t :=
  Or.inr ⟨epoch % 16, Nat.mod_lt _ (by decide), by
    rw [hvbm]
    exact update_self ..⟩

/-- A write that reaches its TmpVersionBlock leaves a trace in the summary words. -/
theorem touched_of_vbm (h : Touched s ∨ Untouched s) (hvbm : t.vbm =
    if s.stampAt (w.epoch % 16) = w.epoch then s.vbm else s.vbm.markTvbActive w.epoch) :
    Touched t := by
  split_ifs at hvbm with hs
  · rcases h with h | h
    · unfold Touched
      rw [hvbm]
      exact h
    · have hpos := w.epoch_pos
      have hzero := h.stampAt (w.epoch % 16)
      omega
  · exact Touched.markActive hvbm

theorem Untouched.prepare (h : s.Untouched) (env : Env) : s.prepare S env = s := by
  unfold VertexEdges.prepare
  rw [h.tmpEv, if_neg (by decide)]

end FineGrain

end VertexEdges

namespace Primary

open VertexEdges

variable {b : Build} {S : StdSort} {s t : VertexEdges}

/-- The state of a vertex in any run: as long as the summary words are zero, no version hides
behind an entry. -/
structure Inv (b : Build) (s : VertexEdges) : Prop where
  slots : s.PositiveSlots
  plain : match b with
    | .fineGrain => s.Touched ∨ s.Untouched
    | .coarse => 0 < s.vbm.endEpoch ∨ s.Plain

theorem inv_build (b : Build) (edges properties : List Nat) (malloc tmp : Nat → EdgeWithIndex) :
    Inv b (.build edges properties malloc tmp) := by
  have hstart : ∀ i < edges.length, (build edges properties malloc tmp).start i =
      ⟨edges.getD i 0, 0, 0⟩ := by
    intro i hi
    simp [build, hi]
  refine ⟨fun _ _ => rfl, ?_⟩
  cases b with
  | fineGrain =>
    refine Or.inr ⟨rfl, rfl, fun _ => rfl, fun i hi => ?_⟩
    rw [hstart i hi]
    rfl
  | coarse =>
    refine Or.inr ⟨⟨Nat.zero_le _, le_rfl, rfl⟩, rfl, fun l hl => ?_⟩
    cases l with
    | tmp i => exact absurd (mem_locs.mp hl) (Nat.not_lt_zero i)
    | start i =>
      show ((build edges properties malloc tmp).start i).getCoarseC = 0
      rw [hstart i (mem_locs.mp hl)]
      rfl

theorem positiveSlots_of_write {w : Write} (h : s.PositiveSlots)
    (hstamp : t.stampAt = Function.update s.stampAt (w.epoch % 16) w.epoch)
    (hedges : ∀ k, k ≠ w.epoch % 16 → t.edgesAt k = s.edgesAt k) : t.PositiveSlots := by
  intro k hk
  rw [hstamp] at hk
  by_cases hslot : k = w.epoch % 16
  · subst hslot
    rw [update_self] at hk
    exact absurd hk w.epoch_pos.ne'
  · rw [update_of_ne hslot] at hk
    rw [hedges k hslot]
    exact h k hk

theorem Inv.insert (h : Inv b s) {env : Env} {w : Write} {r : WriteResult}
    (hr : s.insertEdgeBlock b S env w = some r) : Inv b r.state := by
  refine ⟨positiveSlots_of_write h.slots (insert_registers hr).stamp fun k => insert_edgesAt hr, ?_⟩
  have hplain := h.plain
  cases b with
  | fineGrain => exact Or.inl (touched_of_vbm hplain (insert_vbm hr))
  | coarse =>
    rcases hplain with hpos | hplain
    · left
      obtain ⟨f, hf, rfl⟩ := Option.map_eq_some_iff.mp hr
      show 0 < (VertexEdges.writeCoarse _ _ _ _ _).2.vbm.endEpoch
      rwa [vbm_writeCoarse, (SameItems.openTvb _ _).vbm, (tmpVb_findOrAppend hf).2, vbm_prepare]
    · exact Or.inr (hplain.insert hr)

theorem Inv.prepare (h : Inv b s) (env : Env) : Inv b (s.prepare S env) := by
  refine ⟨?_, ?_⟩
  · unfold PositiveSlots
    rw [stampAt_of_tmpVb tmpVb_prepare, edgesAt_of_tmpVb tmpVb_prepare]
    exact h.slots
  · have hplain := h.plain
    cases b with
    | fineGrain =>
      rcases hplain with htouched | huntouched
      · left
        unfold Touched
        rwa [vbm_prepare]
      · rw [huntouched.prepare]
        exact Or.inr huntouched
    | coarse =>
      rcases hplain with hpos | hplain
      · left
        rwa [vbm_prepare]
      · exact Or.inr (hplain.prepare S env).1

/-- A deletion of a known destination after the merge. -/
theorem Inv.deleteKnown (h : Inv b s) (l : Loc) (offset : Nat) (w : Write) :
    Inv b (match b with
      | .fineGrain => (s.openTvb b w.epoch).2.deleteFine l offset w
      | .coarse => (s.openTvb b w.epoch).2.writeCoarse l offset true w).2 := by
  have hplain := h.plain
  have hstamp := (stampAt_openTvb (b := b) (s := s) w.epoch).2
  cases b with
  | fineGrain =>
    have happ := deleteFine_appends (s := (s.openTvb .fineGrain w.epoch).2) (w := w) l offset
    refine ⟨positiveSlots_of_write h.slots (happ.stampAt.trans hstamp) fun k hk => ?_, ?_⟩
    · have hopen : (s.openTvb .fineGrain w.epoch).2.edgesAt k = s.edgesAt k := by
        rw [edgesAt_openTvb]
        split_ifs
        · rfl
        · rw [update_of_ne hk]
      rw [happ.edgesAt, ← hopen]
      split_ifs
      · rw [update_of_ne hk]
      · rfl
    · exact Or.inl (touched_of_vbm hplain (happ.vbm.trans (vbm_openTvb w.epoch)))
  | coarse =>
    refine ⟨positiveSlots_of_write h.slots ((stampAt_writeCoarse _ _ _).trans hstamp)
      fun k hk => ?_, ?_⟩
    · rw [edgesAt_writeCoarse _ _ _ hk, edgesAt_openTvb_coarse _ hk]
    · rcases hplain with hpos | hplain
      · left
        rwa [vbm_writeCoarse, (SameItems.openTvb _ _).vbm]
      · exact Or.inr ((hplain.of_sameItems (SameItems.openTvb s w.epoch)).writeCoarse _ _ _)

theorem Inv.delete (h : Inv b s) {env : Env} {w : Write} {r : WriteResult}
    (hr : s.deleteEdgeBlock b S env w = some r) : Inv b r.state := by
  have hprep := h.prepare (S := S) env
  unfold deleteEdgeBlock at hr
  simp only at hr
  split_ifs at hr
  · obtain ⟨⟨l, offset⟩, -, rfl⟩ := Option.map_eq_some_iff.mp hr
    have := hprep.deleteKnown l offset w
    cases b <;> exact this
  · obtain rfl := Option.some.inj hr
    exact hprep

theorem Inv.transform (h : Inv b s) {slot vb n : Nat}
    (ht : s.transform b S slot vb = some (n, t)) : Inv b t := by
  obtain ⟨hedges, ⟨hnil, rfl⟩ | ⟨hne, hend⟩⟩ := edgesAt_transform ht
  · exact h
  · have hpos : 0 < s.stampAt slot := Nat.pos_of_ne_zero fun hzero => hne (h.slots slot hzero)
    refine ⟨fun k hk => ?_, ?_⟩
    · rw [hedges]
      by_cases hslot : k = slot
      · rw [hslot, update_self]
      · rw [update_of_ne hslot]
        rw [stampAt_transform ht] at hk
        exact h.slots k hk
    · cases b with
      | fineGrain => exact Or.inl (Or.inl (hend ▸ hpos))
      | coarse => exact Or.inl (hend ▸ hpos)

theorem Inv.step (h : Inv b s) {c : Call} (hstep : step b S s c = some t) : Inv b t := by
  cases c with
  | insert env w =>
    obtain ⟨r, hr, rfl⟩ := Option.map_eq_some_iff.mp hstep
    exact h.insert hr
  | delete env w =>
    obtain ⟨r, hr, rfl⟩ := Option.map_eq_some_iff.mp hstep
    exact h.delete hr
  | transform slot vb =>
    obtain ⟨⟨n, u⟩, hu, rfl⟩ := Option.map_eq_some_iff.mp hstep
    exact h.transform hu

/-- Zero summary words leave nothing to a scan but the primary entries. -/
theorem Inv.scan (h : Inv b s) (hp : s.hasPrimaryOnlyState b = true) :
    s.tmpEv = 0 ∧ s.vbm.vbs = [] ∧ (b = .fineGrain → ∀ k < 16, s.vbm.activeTvbMask k = false) ∧
      ∀ i < s.edgesAndVersions, match b with
        | .fineGrain => (s.start i).creation = ⟨0, 0⟩
        | .coarse => (s.start i).getCoarseC = 0 := by
  have hplain := h.plain
  cases b with
  | fineGrain =>
    simp only [hasPrimaryOnlyState, Bool.and_eq_true, decide_eq_true_eq, List.all_eq_true,
      List.mem_range, Bool.not_eq_true'] at hp
    obtain ⟨⟨htmp, hend⟩, hmask⟩ := hp
    have hu : s.Untouched := by
      apply hplain.resolve_left
      rintro (hpos | ⟨k, hk, hactive⟩)
      · omega
      · rw [hmask k hk] at hactive
        exact Bool.false_ne_true hactive
    exact ⟨htmp, hu.vbs, fun _ => hmask, hu.edge⟩
  | coarse =>
    simp only [hasPrimaryOnlyState, Bool.and_eq_true, decide_eq_true_eq, and_true] at hp
    have hpl : s.Plain := hplain.resolve_left (by omega)
    exact ⟨hp.1, hpl.vbs, by simp, fun i hi => hpl.edge (.start i) (mem_locs.mpr hi)⟩

/-- In every run, has_primary_only_state lets for_each_primary_edge hand out the edges of
for_each_edge. -/
theorem forEachPrimaryEdge_eq (edges properties : List Nat) (malloc tmp : Nat → EdgeWithIndex)
    {cs : List Call} (hrun : exec (step b S) (.build edges properties malloc tmp) cs = some s)
    (hp : s.hasPrimaryOnlyState b = true) {readTs : Composite}
    (hts : b = .fineGrain → ⟨0, 0⟩ < readTs) :
    s.forEachPrimaryEdge = s.forEachEdge b readTs := by
  have hinv : Inv b s := invariant_of_step (fun _ _ _ hi _ hstep => hi.step hstep)
    (inv_build b edges properties malloc tmp) (along_true _ _ _) hrun
  obtain ⟨htmp, hvbs, hmask, hedge⟩ := hinv.scan hp
  have hchain : s.chainScan b readTs = [] := by
    cases b <;> simp [chainScan, hvbs, walk, findIndex, walkFrom]
  have htvbs : (if b = .fineGrain then s.scanTvbs readTs else []) = [] := by
    split_ifs with hb
    · apply List.flatMap_eq_nil_iff.mpr
      intro k hk
      rw [hmask hb k (List.mem_range.mp hk)]
      rfl
    · rfl
  rw [forEachEdge, forEachEdgeWithProperty, htvbs, hchain, List.append_nil, List.append_nil,
    Traversal.map_fst_items, htmp]
  apply List.filter_congr
  intro x hx
  obtain ⟨i, hi, rfl⟩ := List.mem_map.mp hx
  have hi := hedge i (List.mem_range.mp hi)
  have hvis : (s.start i).visibleAt b readTs = true := by
    cases b with
    | fineGrain =>
      show decide ((s.start i).creation < readTs) = true
      rw [hi]
      exact decide_eq_true (hts rfl)
    | coarse =>
      show decide ((s.start i).getCoarseC ≤ readTs.e) = true
      rw [hi]
      exact decide_eq_true (Nat.zero_le _)
  rw [hvis, Bool.and_true]

/-- A loaded vertex with a refused and a pending write in the AVB_COARSE build. -/
theorem forEachPrimaryEdge_eq_pending : ∃ s, exec (step .coarse .stable)
    (.build [7, 9] [3, 4] (fun _ => ⟨0, 0, 0⟩) fun _ => ⟨0, 0, 0⟩)
    [.insert History.freshEnv ⟨7, 5, 2, ⟨true, 0, 1, 0⟩, by decide, by decide, by decide⟩,
      .insert History.freshEnv ⟨7, 6, 1, ⟨true, 0, 1, 0⟩, by decide, by decide, by decide⟩] =
        some s ∧
    (s.tmpVb 2).entries.length = 1 ∧ s.forEachPrimaryEdge = s.forEachEdge .coarse ⟨0, 0⟩ := by
  obtain ⟨s, hrun, hpending, hp⟩ : ∃ s, exec (step .coarse .stable)
      (.build [7, 9] [3, 4] (fun _ => ⟨0, 0, 0⟩) fun _ => ⟨0, 0, 0⟩)
      [.insert History.freshEnv ⟨7, 5, 2, ⟨true, 0, 1, 0⟩, by decide, by decide, by decide⟩,
        .insert History.freshEnv ⟨7, 6, 1, ⟨true, 0, 1, 0⟩, by decide, by decide, by decide⟩] =
          some s ∧
      (s.tmpVb 2).entries.length = 1 ∧ s.hasPrimaryOnlyState .coarse = true := by
    apply exists_exec
    decide +kernel
  exact ⟨s, hrun, hpending, forEachPrimaryEdge_eq _ _ _ _ hrun hp (by simp)⟩

end Primary

end AVBGraph
