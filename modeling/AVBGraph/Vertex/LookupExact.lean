import AVBGraph.Vertex.Lookup

namespace AVBGraph

/-- The offset that names a position. -/
def Loc.offset : Loc → Nat
  | .tmp i => setTmp i
  | .start k => k

namespace VertexEdges

/-- The loop of `search` with the positions that it reads; `none` is a loop that did not end. -/
def searchReads (s : VertexEdges) (e : Nat) : Nat → Nat → Nat → Option (Option Nat × List Nat)
  | 0, _, _ => none
  | fuel + 1, lo, hi =>
    if lo < hi then
      let m := (lo + (hi - 1)) / 2
      let key := (s.start m).key
      if e < key then (searchReads s e fuel lo m).map fun r => (r.1, m :: r.2)
      else if key < e then (searchReads s e fuel (m + 1) hi).map fun r => (r.1, m :: r.2)
      else some (some m, [m])
    else some (none, [])

/-- The search for `e` ends with the answer `r` and reads positions of the adjacency only. -/
def Searched (s : VertexEdges) (e : Nat) (r : Option Nat) : Prop :=
  ∃ reads, s.searchReads e (s.edgesAndVersions + 2) 0 (s.edgesAndVersions + 1) = some (r, reads) ∧
    ∀ m ∈ reads, m < s.edgesAndVersions

/-- A sorted adjacency and a buffer of other destinations. The search adds two positions in an
int. -/
structure Searchable (s : VertexEdges) : Prop where
  tmpEv_le : s.tmpEv ≤ tmpNum
  size_lt : s.edgesAndVersions < 2 ^ 30
  sorted : ∀ i j, i < j → j < s.edgesAndVersions → (s.start i).key < (s.start j).key
  tmp_inj : ∀ i j, i < s.tmpEv → j < s.tmpEv → (s.tmpItem i).key = (s.tmpItem j).key → i = j
  disjoint : ∀ i j, i < s.tmpEv → j < s.edgesAndVersions → (s.tmpItem i).key ≠ (s.start j).key

/-- Both lookups of `e` end, read live positions only and find exactly the item of `e`.
get_edge_index does not search an empty adjacency. -/
structure LookupExact (s : VertexEdges) (e : Nat) : Prop where
  searched : ∃ r, s.Searched e r
  found : ∀ l offset, s.getEdgeIndex e = some (l, offset) ↔
    l ∈ s.locs ∧ (s.itemE l).key = e ∧ offset = l.offset
  found2 : ∀ l, s.getEdgeIndex2 e = some l ↔
    ∃ k < s.edgesAndVersions, l = .start k ∧ (s.start k).key = e

section Search

variable {s : VertexEdges} {e : Nat}

theorem search_eq_of_reads {r : Option Nat × List Nat} : ∀ {fuel lo hi : Nat},
    s.searchReads e fuel lo hi = some r → s.search e fuel lo hi = r.1 := by
  intro fuel
  induction fuel generalizing r with
  | zero => intro lo hi h; cases h
  | succ n ih =>
    intro lo hi h
    rw [searchReads] at h
    rw [search]
    by_cases hlt : lo < hi
    · rw [if_pos hlt] at h ⊢
      by_cases hgt : e < (s.start ((lo + (hi - 1)) / 2)).key
      · simp only [if_pos hgt] at h ⊢
        obtain ⟨q, hq, rfl⟩ := Option.map_eq_some_iff.mp h
        exact ih (r := q) hq
      · simp only [if_neg hgt] at h ⊢
        by_cases hle : (s.start ((lo + (hi - 1)) / 2)).key < e
        · simp only [if_pos hle] at h ⊢
          obtain ⟨q, hq, rfl⟩ := Option.map_eq_some_iff.mp h
          exact ih (r := q) hq
        · simp only [if_neg hle] at h ⊢
          exact congrArg Prod.fst (Option.some.inj h)
    · rw [if_neg hlt] at h ⊢
      exact congrArg Prod.fst (Option.some.inj h)

/-- What the loop of the search between `lo` and `hi` comes to. -/
structure Outcome (s : VertexEdges) (e lo hi : Nat) (r : Option Nat) (reads : List Nat) : Prop where
  found : ∀ m, r = some m → m ∈ reads ∧ (s.start m).key = e
  bounded : ∀ m ∈ reads, m < hi
  absent : r = none → ∀ i < s.edgesAndVersions, (s.start i).key ≠ e
  below : (∃ j < s.edgesAndVersions, e ≤ (s.start j).key) → ∀ m ∈ reads, m < s.edgesAndVersions
  past : (∀ j < s.edgesAndVersions, (s.start j).key < e) → lo ≤ s.edgesAndVersions →
    hi = s.edgesAndVersions + 1 → s.edgesAndVersions ∈ reads

/-- The loop ends, if outside `lo` and `hi` no position of the adjacency has the key. -/
theorem searchReads_spec
    (hsorted : ∀ i j, i < j → j < s.edgesAndVersions → (s.start i).key < (s.start j).key) :
    ∀ fuel lo hi,
    hi ≤ s.edgesAndVersions + 1 → hi - lo < fuel →
    (∀ i < lo, i < s.edgesAndVersions → (s.start i).key < e) →
    (∀ i, hi ≤ i → i < s.edgesAndVersions → e < (s.start i).key) →
    ∃ r reads, s.searchReads e fuel lo hi = some (r, reads) ∧ s.Outcome e lo hi r reads := by
  intro fuel
  induction fuel with
  | zero => intro lo hi _ hf; omega
  | succ n ih =>
    intro lo hi hhi hf hlow hhigh
    rw [searchReads]
    by_cases hlt : lo < hi
    · rw [if_pos hlt]
      set m := (lo + (hi - 1)) / 2 with hm
      have hmh : m < hi := by omega
      -- a key of the adjacency that is not too small lies at lo or above, so m is not past it
      have hbelow : (∃ j < s.edgesAndVersions, e ≤ (s.start j).key) → m < s.edgesAndVersions := by
        intro ⟨j, hj, hje⟩
        have hlj : lo ≤ j := by
          by_contra hjl
          have := hlow j (by omega) hj
          omega
        omega
      by_cases hgt : e < (s.start m).key
      · have hhigh' : ∀ i, m ≤ i → i < s.edgesAndVersions → e < (s.start i).key := by
          intro i hmi hi'
          rcases eq_or_lt_of_le hmi with rfl | hmi
          · exact hgt
          · exact hgt.trans (hsorted m i hmi hi')
        obtain ⟨r, reads, heq, hr⟩ := ih lo m (by omega) (by omega) hlow hhigh'
        refine ⟨r, m :: reads, by simp only [if_pos hgt, heq, Option.map_some], ?_, ?_,
          hr.absent, ?_, ?_⟩
        · intro k hk
          obtain ⟨hmem, hkey⟩ := hr.found k hk
          exact ⟨List.mem_cons_of_mem _ hmem, hkey⟩
        · intro k hk
          rcases List.mem_cons.mp hk with rfl | hk
          · exact hmh
          · exact (hr.bounded k hk).trans hmh
        · intro hex
          exact List.forall_mem_cons.mpr ⟨hbelow hex, hr.below hex⟩
        · intro hall hlo hhi'
          have hmn : s.edgesAndVersions ≤ m := by
            by_contra hmn
            have := hall m (by omega)
            omega
          rw [show m = s.edgesAndVersions by omega]
          exact List.mem_cons_self
      · by_cases hle : (s.start m).key < e
        · have hlow' : ∀ i < m + 1, i < s.edgesAndVersions → (s.start i).key < e := by
            intro i hi' hin
            rcases Nat.lt_succ_iff_lt_or_eq.mp hi' with him | rfl
            · by_cases hmn : m < s.edgesAndVersions
              · exact (hsorted i m him hmn).trans hle
              · apply lt_of_not_ge
                intro hge
                exact hmn (hbelow ⟨i, hin, hge⟩)
            · exact hle
          obtain ⟨r, reads, heq, hr⟩ := ih (m + 1) hi hhi (by omega) hlow' hhigh
          refine ⟨r, m :: reads, by simp only [if_neg hgt, if_pos hle, heq, Option.map_some], ?_,
            List.forall_mem_cons.mpr ⟨hmh, hr.bounded⟩, hr.absent, ?_, ?_⟩
          · intro k hk
            obtain ⟨hmem, hkey⟩ := hr.found k hk
            exact ⟨List.mem_cons_of_mem _ hmem, hkey⟩
          · intro hex
            exact List.forall_mem_cons.mpr ⟨hbelow hex, hr.below hex⟩
          · intro hall hlo hhi'
            by_cases hmn : m = s.edgesAndVersions
            · rw [hmn]
              exact List.mem_cons_self
            · exact List.mem_cons_of_mem _ (hr.past hall (by omega) hhi')
        · refine ⟨some m, [m], by simp only [if_neg hgt, if_neg hle], ?_, ?_, ?_, ?_, ?_⟩
          · intro k hk
            rw [← Option.some.inj hk]
            exact ⟨List.mem_singleton_self m, by omega⟩
          · intro k hk
            rw [List.mem_singleton.mp hk]
            exact hmh
          · intro hk
            cases hk
          · intro hex k hk
            rw [List.mem_singleton.mp hk]
            exact hbelow hex
          · intro hall hlo hhi'
            rw [List.mem_singleton]
            by_contra hmn
            have := hall m (by omega)
            omega
    · refine ⟨none, [], by rw [if_neg hlt], by simp, by simp, ?_, by simp, ?_⟩
      · intro _ i hi' heq
        by_cases hil : i < lo
        · have := hlow i hil hi'
          omega
        · have := hhigh i (by omega) hi'
          omega
      · intro _ hlo hhi'
        omega

/-- The search as both lookups start it. -/
theorem search_outcome
    (hsorted : ∀ i j, i < j → j < s.edgesAndVersions → (s.start i).key < (s.start j).key)
    (e : Nat) : ∃ r reads,
    s.searchReads e (s.edgesAndVersions + 2) 0 (s.edgesAndVersions + 1) = some (r, reads) ∧
      s.search e (s.edgesAndVersions + 2) 0 (s.edgesAndVersions + 1) = r ∧
      s.Outcome e 0 (s.edgesAndVersions + 1) r reads := by
  have hlow : ∀ i < 0, i < s.edgesAndVersions → (s.start i).key < e := by
    intro i hi
    omega
  have hhigh : ∀ i, s.edgesAndVersions + 1 ≤ i → i < s.edgesAndVersions → e < (s.start i).key := by
    intro i hi hi'
    omega
  obtain ⟨r, reads, heq, hr⟩ := searchReads_spec hsorted (s.edgesAndVersions + 2) 0
    (s.edgesAndVersions + 1) le_rfl (by omega) hlow hhigh
  exact ⟨r, reads, heq, search_eq_of_reads heq, hr⟩

/-- The search stays inside the adjacency exactly if the key is not past its last one. -/
theorem Searchable.searched_iff (h : s.Searchable) (e : Nat) :
    (∃ r, s.Searched e r) ↔ ∃ k < s.edgesAndVersions, e ≤ (s.start k).key := by
  obtain ⟨r, reads, heq, -, hr⟩ := search_outcome h.sorted e
  constructor
  · intro ⟨r', reads', heq', hreads⟩
    rw [heq] at heq'
    obtain ⟨rfl, rfl⟩ := Prod.mk.inj (Option.some.inj heq')
    by_contra hno
    have hall : ∀ j < s.edgesAndVersions, (s.start j).key < e := by
      intro j hj
      apply lt_of_not_ge
      intro hge
      exact hno ⟨j, hj, hge⟩
    exact absurd (hreads _ (hr.past hall (Nat.zero_le _) rfl)) (lt_irrefl _)
  · intro hex
    exact ⟨r, reads, heq, hr.below hex⟩

end Search

section Answer

variable {s : VertexEdges} {e : Nat}

/-- The buffer is read from the front; it has each destination once. -/
theorem Searchable.find_tmp (h : s.Searchable) {i : Nat} :
    ((List.range s.tmpEv).find? fun i => (s.tmpItem i).key = e) = some i ↔
      i < s.tmpEv ∧ (s.tmpItem i).key = e := by
  constructor
  · intro hi
    have hkey := List.find?_some hi
    have hmem := List.mem_of_find?_eq_some hi
    exact ⟨List.mem_range.mp hmem, of_decide_eq_true hkey⟩
  · intro ⟨hi, hkey⟩
    cases hf : (List.range s.tmpEv).find? fun i => (s.tmpItem i).key = e with
    | none =>
      have := List.find?_eq_none.mp hf i (List.mem_range.mpr hi)
      rw [decide_eq_true_eq] at this
      exact absurd hkey this
    | some j =>
      have hj := List.mem_range.mp (List.mem_of_find?_eq_some hf)
      have hkeyj := List.find?_some hf
      rw [decide_eq_true_eq] at hkeyj
      exact congrArg some (h.tmp_inj j i hj hi (hkeyj.trans hkey.symm))

/-- The slot past the adjacency cannot answer for `e`. -/
def Unmistaken (s : VertexEdges) (e : Nat) : Prop :=
  (∃ k < s.edgesAndVersions, e ≤ (s.start k).key) ∨ (s.start s.edgesAndVersions).key ≠ e

/-- The search finds exactly the positions of the adjacency. -/
theorem Searchable.search_iff (h : s.Searchable) (hpast : s.Unmistaken e) (k : Nat) :
    s.search e (s.edgesAndVersions + 2) 0 (s.edgesAndVersions + 1) = some k ↔
      k < s.edgesAndVersions ∧ (s.start k).key = e := by
  obtain ⟨r, reads, -, hs, hr⟩ := search_outcome h.sorted e
  have hlive : ∀ m, r = some m → m < s.edgesAndVersions := by
    intro m hm
    obtain ⟨hmem, hkey⟩ := hr.found m hm
    rcases hpast with hex | hne
    · exact hr.below hex m hmem
    · have hlt := hr.bounded m hmem
      have : m ≠ s.edgesAndVersions := by
        intro hmn
        rw [hmn] at hkey
        exact hne hkey
      omega
  rw [hs]
  constructor
  · intro hk
    exact ⟨hlive k hk, (hr.found k hk).2⟩
  · intro ⟨hk, hkey⟩
    cases hrk : r with
    | none => exact absurd hkey (hr.absent hrk k hk)
    | some m =>
      have hm := hlive m hrk
      have hkm : (s.start m).key = (s.start k).key := (hr.found m hrk).2.trans hkey.symm
      apply congrArg some
      rcases lt_trichotomy m k with hlt | heq | hlt
      · exact absurd hkm (h.sorted m k hlt hk).ne
      · exact heq
      · exact absurd hkm (h.sorted k m hlt hm).ne'

theorem Searchable.getEdgeIndex2_iff (h : s.Searchable) (hpast : s.Unmistaken e) (l : Loc) :
    s.getEdgeIndex2 e = some l ↔ ∃ k < s.edgesAndVersions, l = .start k ∧ (s.start k).key = e := by
  rw [getEdgeIndex2, Option.map_eq_some_iff]
  constructor
  · rintro ⟨k, hk, hl⟩
    obtain ⟨hlt, hkey⟩ := (h.search_iff hpast k).mp hk
    exact ⟨k, hlt, hl.symm, hkey⟩
  · rintro ⟨k, hlt, hl, hkey⟩
    exact ⟨k, (h.search_iff hpast k).mpr ⟨hlt, hkey⟩, hl.symm⟩

theorem Searchable.getEdgeIndex_iff (h : s.Searchable) (hpast : s.Unmistaken e) (l : Loc)
    (offset : Nat) : s.getEdgeIndex e = some (l, offset) ↔
      l ∈ s.locs ∧ (s.itemE l).key = e ∧ offset = l.offset := by
  -- an adjacency without positions is not searched and would not be found in either
  have hfound : ∀ k, (if s.edgesAndVersions = 0 then none
      else s.search e (s.edgesAndVersions + 2) 0 (s.edgesAndVersions + 1)) = some k ↔
        k < s.edgesAndVersions ∧ (s.start k).key = e := by
    intro k
    by_cases hn : s.edgesAndVersions = 0
    · rw [if_pos hn]
      constructor
      · intro hk
        cases hk
      · intro ⟨hk, _⟩
        omega
    · rw [if_neg hn]
      exact h.search_iff hpast k
  rw [getEdgeIndex, mem_locs]
  generalize (if s.edgesAndVersions = 0 then none
    else s.search e (s.edgesAndVersions + 2) 0 (s.edgesAndVersions + 1)) = found at hfound
  cases found with
  | some m =>
    obtain ⟨hm, hkey⟩ := (hfound m).mp rfl
    constructor
    · intro hl
      obtain ⟨rfl, rfl⟩ := Prod.mk.inj (Option.some.inj hl)
      exact ⟨hm, hkey, rfl⟩
    · intro ⟨hl, hlkey, hoff⟩
      cases l with
      | tmp i => exact absurd (hlkey.trans hkey.symm) (h.disjoint i m hl hm)
      | start k =>
        obtain rfl : m = k := Option.some.inj ((hfound k).mpr ⟨hl, hlkey⟩)
        rw [hoff]
        rfl
  | none =>
    show (((List.range s.tmpEv).find? _).map _ = some (l, offset)) ↔ _
    rw [Option.map_eq_some_iff]
    constructor
    · intro ⟨i, hi, hl⟩
      obtain ⟨rfl, rfl⟩ := Prod.mk.inj hl
      obtain ⟨hlt, hkey⟩ := h.find_tmp.mp hi
      exact ⟨hlt, hkey, rfl⟩
    · intro ⟨hl, hlkey, hoff⟩
      cases l with
      | tmp i => exact ⟨i, h.find_tmp.mpr ⟨hl, hlkey⟩, by rw [hoff]; rfl⟩
      | start k => exact absurd ((hfound k).mpr ⟨hl, hlkey⟩) (by simp)

/-- The offset of a live position designates it. -/
theorem Searchable.decodeOffset_offset (h : s.Searchable) {l : Loc} (hl : l ∈ s.locs) :
    decodeOffset l.offset = l := by
  rw [mem_locs] at hl
  have hsize := h.size_lt
  have htmp := h.tmpEv_le
  cases l with
  | tmp i =>
    have hi : i < 2 ^ 31 := by
      have : i < tmpNum := hl.trans_le htmp
      exact this.trans (by decide)
    simp [decodeOffset, Loc.offset, clearTmp_of_lt hi]
  | start k =>
    have hk : k < 2 ^ 31 := by
      have : k < s.edgesAndVersions := hl
      omega
    simp [decodeOffset, Loc.offset, isTmp_of_lt hk]

/-- A lookup is exact if and only if its key is not past the last one of the adjacency. -/
theorem lookupExact_iff (h : s.Searchable) (e : Nat) :
    s.LookupExact e ↔ ∃ k < s.edgesAndVersions, e ≤ (s.start k).key := by
  rw [← h.searched_iff]
  constructor
  · intro hx
    exact hx.searched
  · intro hs
    have hpast : s.Unmistaken e := Or.inl ((h.searched_iff e).mp hs)
    exact ⟨hs, h.getEdgeIndex_iff hpast, h.getEdgeIndex2_iff hpast⟩

end Answer

section Past

/-- One loaded edge with the property word 7, and the destination 7 in the buffer. -/
def misled : VertexEdges :=
  (build [1] [7] (fun _ => ⟨0, 0, 0⟩) fun _ => ⟨0, 0, 0⟩).append (⟨7, 0, 0⟩, ⟨5, 0, 0⟩)

theorem searchable_misled : misled.Searchable where
  tmpEv_le := by decide
  size_lt := by decide
  sorted i j hij hj := by
    have : j < 1 := hj
    omega
  tmp_inj i j hi hj _ := by
    have hi : i < 1 := hi
    have hj : j < 1 := hj
    omega
  disjoint i j hi hj := by
    have hi : i < 1 := hi
    have hj : j < 1 := hj
    obtain rfl : i = 0 := by omega
    obtain rfl : j = 0 := by omega
    decide

/-- The loaded destination is found. -/
theorem lookupExact_misled : misled.LookupExact 1 :=
  (lookupExact_iff searchable_misled 1).mpr ⟨0, by decide, by decide⟩

/-- The lookup of the buffered destination 7 answers with the property word past the adjacency. -/
theorem misled_lookup : misled.Searchable ∧ misled.getEdgeIndex 7 = some (.start 1, 1) ∧
    ¬misled.LookupExact 7 := by
  have hfind : misled.getEdgeIndex 7 = some (.start 1, 1) := by decide
  refine ⟨searchable_misled, hfind, fun hx => ?_⟩
  have hmem := ((hx.found _ _).mp hfind).1
  rw [mem_locs] at hmem
  exact absurd hmem (by decide)

end Past

end VertexEdges

end AVBGraph
