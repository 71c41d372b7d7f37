import AVBGraph.Framework.ListFilter
import AVBGraph.Vertex.VersionChain

namespace AVBGraph

open Framework

/-- TMPNUM, the size of the insertion buffer. -/
def tmpNum : Nat := 64

/-- One vertex. `start` and `tmpItem` are the memory behind the two pointers: edge halves
from 0 on, property halves from `capacity` and TMPNUM on. `m` is the key set of the hash
table. -/
structure VertexEdges where
  edgeNum : Int
  tmpEv : Nat
  mergeTimes : Nat
  edgesAndVersions : Nat
  num : Nat
  capacity : Nat
  m : Nat → Bool
  vbm : VersionBlockManager
  start : Nat → EdgeWithIndex
  tmpItem : Nat → EdgeWithIndex
  tmpVb : Nat → TmpVersionBlock

/-- A pair item_e, item_p by its position. -/
inductive Loc
  | tmp (i : Nat)
  | start (i : Nat)
  deriving DecidableEq

namespace VertexEdges

def itemE (s : VertexEdges) : Loc → EdgeWithIndex
  | .tmp i => s.tmpItem i
  | .start i => s.start i

def itemP (s : VertexEdges) : Loc → EdgeWithIndex
  | .tmp i => s.tmpItem (i + tmpNum)
  | .start i => s.start (i + s.capacity)

def setItemE (s : VertexEdges) (l : Loc) (x : EdgeWithIndex) : VertexEdges :=
  match l with
  | .tmp i => { s with tmpItem := Function.update s.tmpItem i x }
  | .start i => { s with start := Function.update s.start i x }

def setItemP (s : VertexEdges) (l : Loc) (x : EdgeWithIndex) : VertexEdges :=
  match l with
  | .tmp i => { s with tmpItem := Function.update s.tmpItem (i + tmpNum) x }
  | .start i => { s with start := Function.update s.start (i + s.capacity) x }

/-- build with the given edges and properties; `malloc` and `tmp` are the contents of the
two fresh allocations. -/
def build (edges properties : List Nat) (malloc tmp : Nat → EdgeWithIndex) : VertexEdges where
  edgeNum := 0
  tmpEv := 0
  mergeTimes := 0
  edgesAndVersions := edges.length
  num := edges.length
  capacity := edges.length
  m := fun d => d ∈ edges
  vbm := .empty
  start := fun i =>
    if h : i < edges.length then ⟨edges[i], 0, 0⟩
    else if i - edges.length < edges.length then ⟨properties.getD (i - edges.length) 0, 0, 0⟩
    else malloc i
  tmpItem := tmp
  tmpVb := fun _ => ⟨0, []⟩

/-- The binary search of get_edge_index2. It starts with r = edges_and_versions, so it may
read one slot past the adjacency; `lo` and `hi` are l and r + 1. -/
def search (s : VertexEdges) (e : Nat) : Nat → Nat → Nat → Option Nat
  | 0, _, _ => none
  | fuel + 1, lo, hi =>
    if lo < hi then
      let m := (lo + (hi - 1)) / 2
      let key := (s.start m).key
      if e < key then search s e fuel lo m
      else if key < e then search s e fuel (m + 1) hi
      else some m
    else none

def getEdgeIndex2 (s : VertexEdges) (e : Nat) : Option Loc :=
  (search s e (s.edgesAndVersions + 2) 0 (s.edgesAndVersions + 1)).map .start

/-- The item and the offset that a write records. -/
def getEdgeIndex (s : VertexEdges) (e : Nat) : Option (Loc × Nat) :=
  let found :=
    if s.edgesAndVersions = 0 then none
    else search s e (s.edgesAndVersions + 2) 0 (s.edgesAndVersions + 1)
  match found with
  | some m => some (.start m, m)
  | none =>
    ((List.range s.tmpEv).find? fun i => (s.tmpItem i).key = e).map fun i => (.tmp i, setTmp i)

/-- The items in scan order: the buffer, then the primary adjacency. -/
def locs (s : VertexEdges) : List Loc :=
  (List.range s.tmpEv).map .tmp ++ (List.range s.edgesAndVersions).map .start

def itemAt (s : VertexEdges) (l : Loc) : Item := (s.itemE l, s.itemP l)

def items (s : VertexEdges) : List Item := s.locs.map s.itemAt

/-- The item of a destination. -/
def item (s : VertexEdges) (d : Nat) : Option Item := s.items.find? fun x => x.1.key = d

/-- The representation invariant of buffer, primary adjacency and hash set. -/
structure Rep (s : VertexEdges) : Prop where
  tmpEv_le : s.tmpEv ≤ tmpNum
  le_capacity : s.edgesAndVersions ≤ s.capacity
  num_eq : s.num = s.edgesAndVersions + s.tmpEv
  sorted : ∀ i j, i < j → j < s.edgesAndVersions → (s.start i).key < (s.start j).key
  tmp_inj : ∀ i j, i < s.tmpEv → j < s.tmpEv → (s.tmpItem i).key = (s.tmpItem j).key → i = j
  disjoint : ∀ i j, i < s.tmpEv → j < s.edgesAndVersions → (s.tmpItem i).key ≠ (s.start j).key
  keys : ∀ d, s.m d = true ↔ ∃ l ∈ s.locs, (s.itemE l).key = d

theorem mem_locs {s : VertexEdges} {l : Loc} : l ∈ s.locs ↔
    match l with
    | .tmp i => i < s.tmpEv
    | .start i => i < s.edgesAndVersions := by
  cases l <;> simp [locs]

/-- A destination has at most one live position. -/
theorem Rep.loc_inj {s : VertexEdges} (h : Rep s) {l k : Loc} (hl : l ∈ s.locs) (hk : k ∈ s.locs)
    (heq : (s.itemE l).key = (s.itemE k).key) : l = k := by
  rw [mem_locs] at hl hk
  cases l with
  | tmp i =>
    cases k with
    | tmp j => exact congrArg _ (h.tmp_inj i j hl hk heq)
    | start j => exact absurd heq (h.disjoint i j hl hk)
  | start i =>
    cases k with
    | tmp j => exact absurd heq.symm (h.disjoint j i hk hl)
    | start j =>
      rcases lt_trichotomy i j with hij | rfl | hij
      · exact absurd heq (h.sorted i j hij hk).ne
      · rfl
      · exact absurd heq (h.sorted j i hij hl).ne'

theorem Rep.item_eq {s : VertexEdges} (h : Rep s) {l : Loc} (hl : l ∈ s.locs) :
    s.item (s.itemE l).key = some (s.itemAt l) := by
  have hmem : s.itemAt l ∈ s.items := List.mem_map_of_mem hl
  cases hf : s.item (s.itemE l).key with
  | none =>
    have := List.find?_eq_none.mp hf _ hmem
    simp [itemAt] at this
  | some x =>
    have hx := List.find?_some hf
    obtain ⟨k, hk, rfl⟩ := List.mem_map.mp (List.mem_of_find?_eq_some hf)
    have hkl : k = l := h.loc_inj hk hl (of_decide_eq_true hx)
    rw [hkl]

theorem exists_loc {s : VertexEdges} {d : Nat} {x : Item} (hx : s.item d = some x) :
    ∃ l ∈ s.locs, s.itemAt l = x ∧ (s.itemE l).key = d := by
  have hd := List.find?_some hx
  obtain ⟨l, hl, rfl⟩ := List.mem_map.mp (List.mem_of_find?_eq_some hx)
  exact ⟨l, hl, rfl, of_decide_eq_true hd⟩

theorem item_none {s : VertexEdges} {d : Nat} (h : ∀ l ∈ s.locs, (s.itemE l).key ≠ d) :
    s.item d = none := by
  cases hx : s.item d with
  | none => rfl
  | some x =>
    obtain ⟨l, hl, -, hd⟩ := exists_loc hx
    exact absurd hd (h l hl)

theorem Rep.m_iff {s : VertexEdges} (h : Rep s) (d : Nat) : s.m d = true ↔ (s.item d).isSome := by
  rw [h.keys]
  constructor
  · rintro ⟨l, hl, rfl⟩
    rw [h.item_eq hl]
    rfl
  · intro hs
    obtain ⟨x, hx⟩ := Option.isSome_iff_exists.mp hs
    obtain ⟨l, hl, -, hd⟩ := exists_loc hx
    exact ⟨l, hl, hd⟩

theorem locs_nodup (s : VertexEdges) : s.locs.Nodup := by
  refine List.Nodup.append ?_ ?_ ?_
  · exact List.nodup_range.map fun _ _ h => Loc.tmp.inj h
  · exact List.nodup_range.map fun _ _ h => Loc.start.inj h
  · simp [List.disjoint_left]

theorem Rep.pairwise_items {s : VertexEdges} (h : Rep s) :
    s.items.Pairwise fun x y => x.1.key ≠ y.1.key := by
  rw [items, List.pairwise_map]
  exact s.locs_nodup.pairwise_of_forall_ne fun l hl k hk hlk heq => hlk (h.loc_inj hl hk heq)

/-- The items of one destination among all items. -/
theorem Rep.filter_items {s : VertexEdges} (h : Rep s) (d : Nat) :
    s.items.filter (fun x => x.1.key = d) = (s.item d).toList := by
  refine filter_eq_find? (h.pairwise_items.imp ?_)
  intro x y hne hx hy
  exact hne ((of_decide_eq_true hx).trans (of_decide_eq_true hy).symm)

end VertexEdges

end AVBGraph
