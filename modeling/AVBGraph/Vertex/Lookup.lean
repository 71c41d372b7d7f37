import AVBGraph.Vertex.Edges

namespace AVBGraph

namespace VertexEdges

/-- The search ends at a present key and never reads the slot past the adjacency before. -/
theorem Rep.search_eq {s : VertexEdges} (h : Rep s) {k : Nat} (hk : k < s.edgesAndVersions) :
    ∀ fuel lo hi, lo ≤ k → k < hi → hi ≤ s.edgesAndVersions + 1 → hi - lo < fuel →
      s.search (s.start k).key fuel lo hi = some k := by
  intro fuel
  induction fuel with
  | zero => intro lo hi _ _ _ hf; omega
  | succ n ih =>
    intro lo hi hlo hhi hn hf
    rw [search, if_pos (by omega)]
    set m := (lo + (hi - 1)) / 2 with hm
    have hmn : m < s.edgesAndVersions := by omega
    rcases lt_trichotomy k m with hkm | rfl | hkm
    · rw [if_pos (h.sorted k m hkm hmn)]
      exact ih lo m hlo hkm (by omega) (by omega)
    · rw [if_neg (lt_irrefl _), if_neg (lt_irrefl _)]
    · have := h.sorted m k hkm hk
      rw [if_neg (by omega), if_pos this]
      exact ih (m + 1) hi (by omega) hhi hn (by omega)

/-- get_edge_index2 finds the entries of the primary adjacency. -/
theorem Rep.getEdgeIndex2_eq {s : VertexEdges} (h : Rep s) {k : Nat} (hk : k < s.edgesAndVersions) :
    s.getEdgeIndex2 (s.start k).key = some (.start k) := by
  rw [getEdgeIndex2, h.search_eq hk _ _ _ (Nat.zero_le k) (by omega) le_rfl (by omega)]
  rfl

/-- The position that an offset designates. -/
def decodeOffset (offset : Nat) : Loc :=
  if isTmp offset then .tmp (clearTmp offset) else .start offset

/-- get_edge_index returns the item of a known destination and an offset that designates it. -/
def LookupRight (s : VertexEdges) (e : Nat) : Prop :=
  s.m e = true → ∃ l ∈ s.locs, ∃ offset, s.getEdgeIndex e = some (l, offset) ∧
    (s.itemE l).key = e ∧ decodeOffset offset = l

instance (s : VertexEdges) (e : Nat) : Decidable (LookupRight s e) :=
  decidable_of_iff (s.m e = true → (s.getEdgeIndex e).any fun r =>
      r.1 ∈ s.locs ∧ (s.itemE r.1).key = e ∧ decodeOffset r.2 = r.1) <| by
    unfold LookupRight
    refine imp_congr_right fun _ => ?_
    cases h : s.getEdgeIndex e with
    | none => simp
    | some r =>
      obtain ⟨l, offset⟩ := r
      simp only [Option.any_some, decide_eq_true_eq, Option.some.injEq, Prod.mk.injEq]
      constructor
      · rintro ⟨hl, hk, ho⟩
        exact ⟨l, hl, offset, ⟨rfl, rfl⟩, hk, ho⟩
      · rintro ⟨k, hl, o, ⟨rfl, rfl⟩, hk, ho⟩
        exact ⟨hl, hk, ho⟩

section SetItem

/-- Both halves of an item at once. -/
def setItem (s : VertexEdges) (l : Loc) (x : Item) : VertexEdges :=
  (s.setItemE l x.1).setItemP l x.2

variable {s : VertexEdges} {l k : Loc} {x : Item}

@[simp] theorem locs_setItem : (s.setItem l x).locs = s.locs := by
  cases l <;> rfl

@[simp] theorem mergeTimes_setItem : (s.setItem l x).mergeTimes = s.mergeTimes := by
  cases l <;> rfl

@[simp] theorem tmpVb_setItem : (s.setItem l x).tmpVb = s.tmpVb := by cases l <;> rfl

@[simp] theorem vbm_setItem : (s.setItem l x).vbm = s.vbm := by cases l <;> rfl

@[simp] theorem m_setItem : (s.setItem l x).m = s.m := by cases l <;> rfl

@[simp] theorem tmpEv_setItem : (s.setItem l x).tmpEv = s.tmpEv := by cases l <;> rfl

@[simp] theorem edgesAndVersions_setItem :
    (s.setItem l x).edgesAndVersions = s.edgesAndVersions := by cases l <;> rfl

@[simp] theorem capacity_setItem : (s.setItem l x).capacity = s.capacity := by cases l <;> rfl

@[simp] theorem num_setItem : (s.setItem l x).num = s.num := by cases l <;> rfl

/-- Writing an item, even one that is not in use, touches no other edge half. -/
theorem Rep.itemE_setItem (h : Rep s) (hk : k ∈ s.locs) :
    (s.setItem l x).itemE k = if k = l then x.1 else s.itemE k := by
  have h1 := h.tmpEv_le
  have h2 := h.le_capacity
  rw [mem_locs] at hk
  cases l with
  | tmp i =>
    cases k with
    | tmp j =>
      have hne : j ≠ i + tmpNum := by simp only at hk; omega
      by_cases hij : j = i <;> simp [setItem, setItemE, setItemP, itemE, hij, hne]
      subst hij
      rw [Function.update_of_ne hne, Function.update_self]
    | start j => simp [setItem, setItemE, setItemP, itemE]
  | start i =>
    cases k with
    | tmp j => simp [setItem, setItemE, setItemP, itemE]
    | start j =>
      have hne : j ≠ i + s.capacity := by simp only at hk; omega
      by_cases hij : j = i <;> simp [setItem, setItemE, setItemP, itemE, hij, hne]
      subst hij
      rw [Function.update_of_ne hne, Function.update_self]

theorem Rep.itemP_setItem (h : Rep s) (hl : l ∈ s.locs) (hk : k ∈ s.locs) :
    (s.setItem l x).itemP k = if k = l then x.2 else s.itemP k := by
  have h1 := h.tmpEv_le
  have h2 := h.le_capacity
  rw [mem_locs] at hl hk
  cases l with
  | tmp i =>
    cases k with
    | tmp j =>
      have hne : j + tmpNum ≠ i := by simp only at hl hk; omega
      by_cases hij : j = i <;> simp [setItem, setItemE, setItemP, itemP, hij, hne]
    | start j => simp [setItem, setItemE, setItemP, itemP]
  | start i =>
    cases k with
    | tmp j => simp [setItem, setItemE, setItemP, itemP]
    | start j =>
      have hne : j + s.capacity ≠ i := by simp only at hl hk; omega
      by_cases hij : j = i <;> simp [setItem, setItemE, setItemP, itemP, hij, hne]

theorem Rep.setItemE_eq (h : Rep s) (hl : l ∈ s.locs) (y : EdgeWithIndex) :
    s.setItemE l y = s.setItem l (y, s.itemP l) := by
  have h2 := h.le_capacity
  rw [mem_locs] at hl
  cases l with
  | tmp i =>
    have hne : i + tmpNum ≠ i := by simp [tmpNum]
    have : Function.update (Function.update s.tmpItem i y) (i + tmpNum) (s.tmpItem (i + tmpNum)) =
        Function.update s.tmpItem i y :=
      Function.update_eq_self_iff.mpr (Function.update_of_ne hne _ _).symm
    simp only [VertexEdges.setItem, setItemE, setItemP, itemP, this]
  | start i =>
    have hne : i + s.capacity ≠ i := by simp only at hl; omega
    have : Function.update (Function.update s.start i y) (i + s.capacity) (s.start (i + s.capacity)) =
        Function.update s.start i y :=
      Function.update_eq_self_iff.mpr (Function.update_of_ne hne _ _).symm
    simp only [VertexEdges.setItem, setItemE, setItemP, itemP, this]

theorem Rep.itemAt_setItem (h : Rep s) (hl : l ∈ s.locs) (hk : k ∈ s.locs) :
    (s.setItem l x).itemAt k = if k = l then x else s.itemAt k := by
  rw [itemAt, h.itemE_setItem hk, h.itemP_setItem hl hk]
  split_ifs <;> rfl

/-- The invariant only depends on the sizes, the key set and the live keys. -/
theorem Rep.congr {t : VertexEdges} (h : Rep s) (htmp : t.tmpEv = s.tmpEv)
    (hn : t.edgesAndVersions = s.edgesAndVersions) (hcap : t.capacity = s.capacity)
    (hnum : t.num = s.num) (hm : t.m = s.m)
    (hkey : ∀ k ∈ s.locs, (t.itemE k).key = (s.itemE k).key) : Rep t := by
  have hlocs : t.locs = s.locs := by rw [locs, locs, htmp, hn]
  have htmpKey : ∀ i < s.tmpEv, (t.tmpItem i).key = (s.tmpItem i).key :=
    fun i hi => hkey (.tmp i) (mem_locs.mpr hi)
  have hstartKey : ∀ i < s.edgesAndVersions, (t.start i).key = (s.start i).key :=
    fun i hi => hkey (.start i) (mem_locs.mpr hi)
  refine ⟨by rw [htmp]; exact h.tmpEv_le, by rw [hn, hcap]; exact h.le_capacity,
    by rw [hnum, hn, htmp]; exact h.num_eq, fun i j hij hj => ?_, fun i j hi hj heq => ?_,
    fun i j hi hj => ?_, fun d => ?_⟩
  · rw [hn] at hj
    rw [hstartKey i (by omega), hstartKey j hj]
    exact h.sorted i j hij hj
  · rw [htmp] at hi hj
    rw [htmpKey i hi, htmpKey j hj] at heq
    exact h.tmp_inj i j hi hj heq
  · rw [htmp] at hi
    rw [hn] at hj
    rw [htmpKey i hi, hstartKey j hj]
    exact h.disjoint i j hi hj
  · rw [hm, h.keys, hlocs]
    exact exists_congr fun k => and_congr_right fun hk => by rw [hkey k hk]

theorem Rep.key_setItem (h : Rep s) (hx : x.1.key = (s.itemE l).key) :
    ∀ k ∈ s.locs, ((s.setItem l x).itemE k).key = (s.itemE k).key := by
  intro k hk
  rw [h.itemE_setItem hk]
  split_ifs with hkl
  · rw [hx, hkl]
  · rfl

theorem Rep.setItem (h : Rep s) (hx : x.1.key = (s.itemE l).key) :
    Rep (s.setItem l x) :=
  h.congr tmpEv_setItem edgesAndVersions_setItem capacity_setItem num_setItem m_setItem
    (h.key_setItem hx)

theorem Rep.item_setItem (h : Rep s) (hl : l ∈ s.locs) (hx : x.1.key = (s.itemE l).key) (d : Nat) :
    (s.setItem l x).item d = if d = (s.itemE l).key then some x else s.item d := by
  have hrep := h.setItem hx
  have hkey := h.key_setItem hx
  split_ifs with hd
  · subst hd
    have := hrep.item_eq (l := l) (by rwa [locs_setItem])
    rwa [hkey l hl, h.itemAt_setItem hl hl, if_pos rfl] at this
  · cases hi : s.item d with
    | none =>
      refine item_none fun k hk heq => ?_
      rw [locs_setItem] at hk
      rw [hkey k hk] at heq
      rw [← heq, h.item_eq hk] at hi
      cases hi
    | some y =>
      obtain ⟨k, hk, rfl, rfl⟩ := exists_loc hi
      have hkl : k ≠ l := fun e => hd (by rw [e])
      have := hrep.item_eq (l := k) (by rwa [locs_setItem])
      rwa [hkey k hk, h.itemAt_setItem hl hk, if_neg hkl] at this

/-- A new item at the end of the buffer. -/
def append (s : VertexEdges) (x : Item) : VertexEdges :=
  { s with
    tmpItem := Function.update (Function.update s.tmpItem s.tmpEv x.1) (s.tmpEv + tmpNum) x.2
    tmpEv := s.tmpEv + 1
    num := s.num + 1
    m := Function.update s.m x.1.e true }

theorem mem_locs_append : k ∈ (s.append x).locs ↔ k = .tmp s.tmpEv ∨ k ∈ s.locs := by
  cases k <;> simp only [mem_locs, append, Loc.tmp.injEq, reduceCtorEq, false_or]
  omega

theorem itemAt_append (hlt : s.tmpEv < tmpNum) (hk : k ∈ s.locs) :
    (s.append x).itemAt k = s.itemAt k := by
  rw [mem_locs] at hk
  cases k with
  | tmp j =>
    simp only at hk
    simp only [itemAt, itemE, itemP, append]
    rw [Function.update_of_ne (by omega), Function.update_of_ne (by omega),
      Function.update_of_ne (by omega), Function.update_of_ne (by omega)]
  | start j => rfl

theorem itemAt_append_new (hlt : s.tmpEv < tmpNum) : (s.append x).itemAt (.tmp s.tmpEv) = x := by
  simp only [itemAt, itemE, itemP, append, Function.update_self]
  rw [Function.update_of_ne (by omega), Function.update_self]

theorem Rep.append_fresh (h : Rep s) (hnew : s.m x.1.e = false) (hk : k ∈ s.locs) : (s.itemE k).key ≠ x.1.e := by
  intro heq
  have := (h.keys x.1.e).mpr ⟨k, hk, heq⟩
  rw [hnew] at this
  cases this

variable (h : Rep s) (hlt : s.tmpEv < tmpNum) (he : x.1.e < 2 ^ 63) (hnew : s.m x.1.e = false)
include h hlt he hnew

theorem Rep.append : Rep (s.append x) := by
  have hold (k : Loc) (hk : k ∈ s.locs) : ((s.append x).itemE k).key = (s.itemE k).key := by
    have := itemAt_append (x := x) hlt hk
    exact congrArg (fun y : Item => y.1.key) this
  have hx : ((s.append x).itemE (.tmp s.tmpEv)).key = x.1.e := by
    have := congrArg (fun y : Item => y.1.key) (itemAt_append_new (x := x) hlt)
    exact this.trans (clearDelete_of_lt he)
  have hne : ∀ k ∈ s.locs, (s.itemE k).key ≠ x.1.e := fun k => h.append_fresh hnew
  have hnum := h.num_eq
  -- positions are equal as soon as their keys are
  have hinj : ∀ l k, l ∈ (s.append x).locs → k ∈ (s.append x).locs →
      ((s.append x).itemE l).key = ((s.append x).itemE k).key → l = k := by
    intro l k hl hk heq
    rcases mem_locs_append.mp hl with rfl | hl <;> rcases mem_locs_append.mp hk with rfl | hk
    · rfl
    · rw [hx, hold k hk] at heq
      exact absurd heq.symm (hne k hk)
    · rw [hx, hold l hl] at heq
      exact absurd heq (hne l hl)
    · rw [hold l hl, hold k hk] at heq
      exact h.loc_inj hl hk heq
  refine ⟨hlt, h.le_capacity, ?_, h.sorted, fun i j hi hj heq => ?_, fun i j hi hj heq => ?_,
    fun d => ?_⟩
  · simp only [VertexEdges.append]; omega
  · exact Loc.tmp.inj (hinj (.tmp i) (.tmp j) (mem_locs.mpr hi) (mem_locs.mpr hj) heq)
  · cases hinj (.tmp i) (.start j) (mem_locs.mpr hi) (mem_locs.mpr hj) heq
  · by_cases hd : d = x.1.e
    · subst hd
      simp only [VertexEdges.append, Function.update_self, true_iff]
      exact ⟨.tmp s.tmpEv, mem_locs_append.mpr (Or.inl rfl), hx⟩
    · have hm : (s.append x).m d = s.m d := Function.update_of_ne hd _ _
      rw [hm, h.keys]
      constructor
      · rintro ⟨k, hk, hkd⟩
        exact ⟨k, mem_locs_append.mpr (Or.inr hk), (hold k hk).trans hkd⟩
      · rintro ⟨k, hk, hkd⟩
        rcases mem_locs_append.mp hk with rfl | hk
        · exact absurd (hkd.symm.trans hx) hd
        · exact ⟨k, hk, (hold k hk).symm.trans hkd⟩

theorem Rep.item_append (d : Nat) :
    (s.append x).item d = if d = x.1.e then some x else s.item d := by
  have hrep := h.append hlt he hnew
  split_ifs with hd
  · have := hrep.item_eq (l := .tmp s.tmpEv) (mem_locs_append.mpr (Or.inl rfl))
    rw [itemAt_append_new hlt] at this
    have hx : ((s.append x).itemE (.tmp s.tmpEv)).key = x.1.e :=
      (congrArg (fun y : Item => y.1.key) (itemAt_append_new (x := x) hlt)).trans
        (clearDelete_of_lt he)
    rwa [hx, ← hd] at this
  · cases hi : s.item d with
    | none =>
      refine item_none fun k hk heq => ?_
      rcases mem_locs_append.mp hk with rfl | hk
      · have hx := congrArg (fun y : Item => y.1.key) (itemAt_append_new (x := x) hlt)
        exact hd (heq.symm.trans (hx.trans (clearDelete_of_lt he)))
      · have hkey := congrArg (fun y : Item => y.1.key) (itemAt_append (x := x) hlt hk)
        have hkd : (s.itemE k).key = d := hkey.symm.trans heq
        rw [← hkd, h.item_eq hk] at hi
        cases hi
    | some y =>
      obtain ⟨k, hk, rfl, rfl⟩ := exists_loc hi
      have := hrep.item_eq (l := k) (mem_locs_append.mpr (Or.inr hk))
      have hkey := congrArg (fun y : Item => y.1.key) (itemAt_append (x := x) hlt hk)
      rw [itemAt_append hlt hk] at this
      rwa [show ((s.append x).itemE k).key = (s.itemE k).key from hkey] at this

end SetItem

end VertexEdges

end AVBGraph
