import AVBGraph.Framework.Bounded
import AVBGraph.Vertex.HashTable
import AVBGraph.Vertex.Merge

namespace AVBGraph

open Framework

namespace VertexEdges

/-- `compactStep` with the bounds of `start` checked. -/
def compactStepChecked (oldest capacity : Nat) (c : Compaction) (i : Nat) : Option Compaction := do
  let e ← load (2 * capacity) c.start i
  if dropped oldest e then
    pure { c with m := Function.update c.m e.key false, num := c.num - 1 }
  else
    let p ← load (2 * capacity) c.start (i + capacity)
    let start ← store (2 * capacity) c.start (c.y + capacity) p
    let e ← load (2 * capacity) start i
    let start ← store (2 * capacity) start c.y e
    pure { c with start := start, y := c.y + 1 }

/-- A write to the merge target, an array of `2 * capacity` cells. -/
def Filling.writeChecked (f : Filling) (capacity i : Nat) (x : EdgeWithIndex) : Option Filling :=
  if i < 2 * capacity then some (f.write i x) else none

/-- `fill` with the bounds of `indices`, `tmp_item`, `start` and the target checked. -/
def fillChecked (tmpItem : Nat → EdgeWithIndex) (indices : List Nat) (oldCapacity capacity : Nat) :
    Nat → Nat → Filling → Option (Filling × Nat)
  | 0, y, f => some (f, y)
  | x + 1, 0, f => do
    let t ← indices[x]?
    let f ← f.writeChecked capacity (x + capacity) (← load (2 * tmpNum) tmpItem (t + tmpNum))
    let f ← f.writeChecked capacity x (← load (2 * tmpNum) tmpItem t)
    fillChecked tmpItem indices oldCapacity capacity x 0 f
  | x + 1, y + 1, f => do
    let t ← indices[x]?
    let nw := x + 1 + y
    let e ← load (2 * tmpNum) tmpItem t
    let old ← load (2 * oldCapacity) f.start y
    if old.key < e.key then
      let f ← f.writeChecked capacity (nw + capacity) (← load (2 * tmpNum) tmpItem (t + tmpNum))
      let f ← f.writeChecked capacity nw e
      fillChecked tmpItem indices oldCapacity capacity x (y + 1) f
    else
      let f ← f.writeChecked capacity (nw + capacity)
        (← load (2 * oldCapacity) f.start (y + oldCapacity))
      let f ← f.writeChecked capacity nw (← load (2 * oldCapacity) f.start y)
      fillChecked tmpItem indices oldCapacity capacity (x + 1) y f
termination_by x y => x + y

/-- `copyRest` with the bounds of the four ranges checked. -/
def copyRestChecked (oldCapacity capacity y : Nat) (f : Filling) : Option (Nat → EdgeWithIndex) :=
  if oldCapacity + y ≤ 2 * oldCapacity ∧ capacity + y ≤ 2 * capacity then
    some (copyRest oldCapacity capacity y f)
  else none

/-- `mergeTmpevWithEb` with the bounds of every array checked: `none` stands for an access
outside its array. -/
def mergeTmpevWithEbChecked (S : StdSort) (env : Env) (s : VertexEdges) : Option VertexEdges := do
  let c ← (List.range s.edgesAndVersions).foldlM (compactStepChecked env.oldest s.capacity)
    ⟨0, s.start, s.m, s.num⟩
  let fresh := if s.capacity < s.num then some env.malloc else none
  let r ← fillChecked s.tmpItem (bufferOrder S s) s.capacity (newCapacity s) tmpNum c.y
    ⟨c.start, fresh⟩
  let start ← copyRestChecked s.capacity (newCapacity s) r.2 r.1
  pure { s with
    mergeTimes := s.mergeTimes + 1
    capacity := newCapacity s
    m := c.m
    num := c.num
    edgesAndVersions := c.y + tmpNum
    start := start
    tmpEv := 0 }

theorem compactStepChecked_eq {oldest capacity i : Nat} {c : Compaction} (hi : i < capacity)
    (hy : c.y ≤ i) : compactStepChecked oldest capacity c i = some (compactStep oldest capacity c i) := by
  have h1 : i < 2 * capacity := by omega
  have h2 : i + capacity < 2 * capacity := by omega
  have h3 : c.y + capacity < 2 * capacity := by omega
  have h4 : c.y < 2 * capacity := by omega
  unfold compactStepChecked compactStep
  simp only [load_of_lt h1, load_of_lt h2, store_of_lt h3, store_of_lt h4, Option.bind_eq_bind,
    Option.bind_some, Option.pure_def]
  split_ifs <;> rfl

theorem compact_checked (oldest : Nat) {s : VertexEdges} (h : Rep s) :
    (List.range s.edgesAndVersions).foldlM (compactStepChecked oldest s.capacity)
      ⟨0, s.start, s.m, s.num⟩ = some (compact oldest s) := by
  have hcap := h.le_capacity
  refine (foldlM_range (I := fun i c => c.y ≤ i) (Nat.zero_le _) fun i c hi hy => ?_).1
  refine ⟨compactStepChecked_eq (by omega) hy, ?_⟩
  unfold compactStep
  split_ifs
  · exact Nat.le_succ_of_le hy
  · exact Nat.succ_le_succ hy

theorem Filling.writeChecked_eq {f : Filling} {capacity i : Nat} {x : EdgeWithIndex}
    (h : i < 2 * capacity) : f.writeChecked capacity i x = some (f.write i x) := if_pos h

/-- The cursors of the backward merge stay inside the arrays. -/
theorem fillChecked_eq (tmpItem : Nat → EdgeWithIndex) (indices : List Nat) (old capacity : Nat)
    (hlen : indices.length = tmpNum) (hlt : ∀ t ∈ indices, t < tmpNum) :
    ∀ (x y : Nat) (f : Filling), x ≤ tmpNum → y ≤ old → x + y ≤ capacity →
      fillChecked tmpItem indices old capacity x y f =
        some (fill tmpItem indices old capacity x y f) := by
  have hget : ∀ x, x < tmpNum → indices[x]? = some (indices.getD x 0) ∧
      indices.getD x 0 < tmpNum := by
    intro x hx
    have hx' : x < indices.length := by omega
    rw [List.getD_eq_getElem?_getD, List.getElem?_eq_getElem hx', Option.getD_some]
    exact ⟨rfl, hlt _ (List.getElem_mem hx')⟩
  intro x y f
  fun_induction fill tmpItem indices old capacity x y f with
  | case1 y f =>
    intro _ _ _
    rw [fillChecked]
  | case2 x f t f' ih =>
    intro hx hy hxy
    obtain ⟨hidx, ht⟩ := hget x (by omega)
    have h1 : indices.getD x 0 + tmpNum < 2 * tmpNum := by omega
    have h2 : indices.getD x 0 < 2 * tmpNum := by omega
    have h3 : x + capacity < 2 * capacity := by omega
    have h4 : x < 2 * capacity := by omega
    rw [fillChecked, hidx]
    simp only [Option.bind_eq_bind, Option.bind_some, load_of_lt h1, load_of_lt h2,
      Filling.writeChecked_eq h3, Filling.writeChecked_eq h4]
    exact ih (by omega) hy (by omega)
  | case3 x y f t nw hkey f' ih =>
    intro hx hy hxy
    obtain ⟨hidx, ht⟩ := hget x (by omega)
    have h1 : indices.getD x 0 + tmpNum < 2 * tmpNum := by omega
    have h2 : indices.getD x 0 < 2 * tmpNum := by omega
    have h3 : x + 1 + y + capacity < 2 * capacity := by omega
    have h4 : x + 1 + y < 2 * capacity := by omega
    have h5 : y < 2 * old := by omega
    rw [fillChecked, hidx]
    simp only [Option.bind_eq_bind, Option.bind_some, load_of_lt h1, load_of_lt h2, load_of_lt h5,
      Filling.writeChecked_eq h3, Filling.writeChecked_eq h4]
    rw [if_pos hkey]
    exact ih (by omega) hy (by omega)
  | case4 x y f t nw hkey f' f'' ih =>
    intro hx hy hxy
    obtain ⟨hidx, ht⟩ := hget x (by omega)
    have h2 : indices.getD x 0 < 2 * tmpNum := by omega
    have h3 : x + 1 + y + capacity < 2 * capacity := by omega
    have h4 : x + 1 + y < 2 * capacity := by omega
    have h5 : y < 2 * old := by omega
    have h6 : y + old < 2 * old := by omega
    rw [fillChecked, hidx]
    simp only [Option.bind_eq_bind, Option.bind_some, load_of_lt h2, load_of_lt h5, load_of_lt h6,
      Filling.writeChecked_eq h3, Filling.writeChecked_eq h4]
    rw [if_neg hkey]
    exact ih hx (by omega) (by omega)

/-- Entries left over come from `start`. -/
theorem fill_rest (tmpItem : Nat → EdgeWithIndex) (indices : List Nat) (old capacity : Nat) :
    ∀ (x y : Nat) (f : Filling), (fill tmpItem indices old capacity x y f).2 ≤ y := by
  intro x y f
  fun_induction fill tmpItem indices old capacity x y f with
  | case1 y f => exact le_rfl
  | case2 x f t f' ih => exact ih
  | case3 x y f t nw hkey f' ih => exact ih
  | case4 x y f t nw hkey f' f'' ih => exact ih.trans (Nat.le_succ _)

/-- No access of a merge leaves its array. -/
theorem mergeChecked_eq (S : StdSort) (env : Env) {s : VertexEdges} (h : Rep s)
    (ht : s.tmpEv = tmpNum) :
    mergeTmpevWithEbChecked S env s = some (mergeTmpevWithEb S env s) := by
  have hn := h.num_eq
  have hcap := h.le_capacity
  obtain ⟨hnum, hle, -⟩ := merge_filled S env h ht
  have hy : (compact env.oldest s).y ≤ s.edgesAndVersions := (compacted h _ le_rfl).y_le
  have hroom : (compact env.oldest s).y + tmpNum ≤ newCapacity s := hle
  have hmono : s.capacity ≤ newCapacity s := by
    unfold newCapacity
    split_ifs with h1 h2
    · omega
    · have := le_growCapacity s.num s.num s.capacity (by omega) (by omega)
      omega
    · omega
  have hfill := fillChecked_eq s.tmpItem (bufferOrder S s) s.capacity (newCapacity s)
    (S.length _ _) (fun t hmem => S.mem.mp hmem) tmpNum
    (compact env.oldest s).y ⟨(compact env.oldest s).start,
      if s.capacity < s.num then some env.malloc else none⟩ le_rfl (by omega) (by omega)
  have hrest := fill_rest s.tmpItem (bufferOrder S s) s.capacity (newCapacity s) tmpNum
    (compact env.oldest s).y ⟨(compact env.oldest s).start,
      if s.capacity < s.num then some env.malloc else none⟩
  unfold mergeTmpevWithEbChecked
  simp only [compact_checked env.oldest h, Option.bind_eq_bind, Option.bind_some, hfill,
    Option.pure_def]
  rw [copyRestChecked, if_pos ⟨by omega, by omega⟩]
  rfl

/-- A merge of a full buffer keeps the representation: the adjacency is ascending, its pairs are
those of before without the old deletions and those of the buffer, and the hash set has exactly
its destinations. No access leaves its array and no pending write is lost. -/
theorem merge_keeps_adjacency (S : StdSort) (env : Env) {s : VertexEdges} (h : Rep s)
    (ht : s.tmpEv = tmpNum) : ∃ t, mergeTmpevWithEbChecked S env s = some t ∧
      (∀ i j, i < j → j < t.edgesAndVersions → (t.start i).key < (t.start j).key) ∧
      (slice t.start t.capacity t.edgesAndVersions).Perm
        ((slice s.start s.capacity s.edgesAndVersions).filter
            (fun x => !(isDelete x.1.e && decide (x.1.block < env.oldest))) ++
          slice s.tmpItem tmpNum tmpNum) ∧
      t.edgesAndVersions = t.num ∧ t.num ≤ t.capacity ∧
      (∀ d, t.m d = true ↔ ∃ i < t.edgesAndVersions, (t.start i).key = d) ∧
      t.tmpEv = 0 ∧
      ∀ x ∈ slice s.start s.capacity s.edgesAndVersions, isTmp x.1.block = true →
        x ∈ slice t.start t.capacity t.edgesAndVersions := by
  obtain ⟨hnum, hle, hperm, -, -⟩ := merge_filled S env h ht
  have hrep := (merged S env h ht).rep
  have hfilter : ((slice s.start s.capacity s.edgesAndVersions).filter
      fun x => !dropped env.oldest x.1) = (slice s.start s.capacity s.edgesAndVersions).filter
        fun x => !(isDelete x.1.e && decide (x.1.block < env.oldest)) :=
    List.filter_congr fun x _ => by simp [dropped]
  refine ⟨_, mergeChecked_eq S env h ht, hrep.sorted, ?_, hnum.symm, hnum ▸ hle, fun d => ?_, rfl,
    fun x hx htmp => ?_⟩
  · rw [← hfilter]
    exact hperm
  · rw [hrep.keys]
    constructor
    · rintro ⟨l, hl, hd⟩
      cases l with
      | tmp i => exact absurd (mem_locs.mp hl) (Nat.not_lt_zero i)
      | start i => exact ⟨i, mem_locs.mp hl, hd⟩
    · rintro ⟨i, hi, hd⟩
      exact ⟨.start i, mem_locs.mpr hi, hd⟩
  · -- a pending block word is above every watermark
    have hge : env.oldest ≤ x.1.block := by
      have hlt := env.oldest_lt
      simp only [isTmp, decide_eq_true_eq] at htmp
      omega
    refine hperm.mem_iff.mpr (List.mem_append_left _ (List.mem_filter.mpr ⟨hx, ?_⟩))
    simp [dropped, not_lt.mpr hge]

/-- The destinations that the compaction removes from the hash set, in order. -/
def droppedKeys (oldest : Nat) (s : VertexEdges) : List Nat :=
  ((List.range s.edgesAndVersions).filter fun i => dropped oldest (s.start i)).map fun i =>
    (s.start i).key

/-- The removals of the compaction, run on the hash set itself. -/
theorem compact_hashTable (oldest : Nat) {s : VertexEdges} (h : Rep s) {t : HashTable2}
    (ht : t.Models s.m) : ∃ t', (droppedKeys oldest s).foldlM HashTable2.removeDestHashTableVal t =
      some t' ∧ t'.Models (compact oldest s).m := by
  have hkeys : ∀ key ∈ droppedKeys oldest s, key ≠ flagEmptySlot := by
    intro key hkey
    obtain ⟨i, -, rfl⟩ := List.mem_map.mp hkey
    have := clearDelete_lt (s.start i).e
    apply ne_of_lt
    show clearDelete (s.start i).e < 2 ^ 64 - 1
    omega
  obtain ⟨t', ht', hm⟩ := ht.removeAll hkeys
  have hc : Compacted oldest s.capacity s s.edgesAndVersions (compact oldest s) :=
    compacted h _ le_rfl
  have hsame : (fun d => s.m d && decide (d ∉ droppedKeys oldest s)) = (compact oldest s).m := by
    funext d
    rw [Bool.eq_iff_iff, hc.m_iff d]
    simp [droppedKeys]
  exact ⟨t', ht', hsame ▸ hm⟩

/-- A vertex with one deleted edge and a full buffer. -/
private def fullBuffer : VertexEdges where
  edgeNum := 0
  tmpEv := tmpNum
  mergeTimes := 0
  edgesAndVersions := 1
  num := 65
  capacity := 1
  m := fun d => d < tmpNum ∨ d = 100
  vbm := .empty
  start := fun i => if i = 0 then ⟨setDelete 100, 1, 0⟩ else ⟨0, 0, 0⟩
  tmpItem := fun i => ⟨i, 0, 0⟩
  tmpVb := fun _ => ⟨0, []⟩

private theorem fullBuffer_rep : Rep fullBuffer where
  tmpEv_le := le_rfl
  le_capacity := le_rfl
  num_eq := rfl
  sorted i j hij hj := by
    have : j < 1 := hj
    omega
  tmp_inj i j hi hj heq := by
    have hi' : i < 64 := hi
    have hj' : j < 64 := hj
    simp only [fullBuffer, EdgeWithIndex.key, clearDelete] at heq
    omega
  disjoint i j hi hj := by
    have hi' : i < 64 := hi
    obtain rfl : j = 0 := Nat.lt_one_iff.mp hj
    simp only [fullBuffer, EdgeWithIndex.key, clearDelete, setDelete, if_pos]
    omega
  keys d := by
    simp only [fullBuffer, decide_eq_true_eq]
    constructor
    · rintro (hd | rfl)
      · have hd' : d < 64 := hd
        exact ⟨.tmp d, mem_locs.mpr hd, clearDelete_of_lt (show d < 2 ^ 63 by omega)⟩
      · exact ⟨.start 0, mem_locs.mpr Nat.one_pos, rfl⟩
    · rintro ⟨l, hl, rfl⟩
      cases l with
      | tmp i =>
        have hi : i < 64 := mem_locs.mp hl
        left
        change clearDelete i < 64
        rw [clearDelete_of_lt (by omega)]
        exact hi
      | start i =>
        obtain rfl : i = 0 := Nat.lt_one_iff.mp (mem_locs.mp hl)
        exact Or.inr rfl

/-- Merging that buffer drops the deleted edge for a watermark above its epoch. -/
theorem merge_keeps_adjacency_fullBuffer : ∃ t, mergeTmpevWithEbChecked .stable
      ⟨fun _ => ⟨0, 0, 0⟩, 2, by decide⟩ fullBuffer = some t ∧ t.edgesAndVersions = t.num := by
  obtain ⟨t, ht, -, -, hnum, -⟩ := merge_keeps_adjacency .stable
    ⟨fun _ => ⟨0, 0, 0⟩, 2, by decide⟩ fullBuffer_rep rfl
  exact ⟨t, ht, hnum⟩

end VertexEdges

end AVBGraph
