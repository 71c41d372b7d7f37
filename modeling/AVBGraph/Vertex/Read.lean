import AVBGraph.Vertex.Edges

namespace AVBGraph

open Framework

/-- The backward scan of one TmpVersionBlock, newest entry first. -/
def scanTvb (readTs : Composite) (timestamp : Nat) : List VersionEntry → List Item
  | [] => []
  | x :: xs =>
    if isDelete x.edge then scanTvb readTs timestamp xs
    else if readTs ≤ ⟨timestamp, x.newIntraC⟩ then
      if x.old < readTs then
        (⟨x.edge, x.lastEpoch, x.oldIntraC⟩, ⟨x.weight, 0, x.newIntraC⟩) ::
          scanTvb readTs timestamp xs
      else scanTvb readTs timestamp xs
    else []

namespace VertexEdges

/-- An entry of the buffer or of the primary adjacency that a scan emits. -/
def visible (b : Build) (readTs : Composite) (x : Item) : Bool :=
  !isDelete x.1.e && x.1.visibleAt b readTs

/-- The scan of the active TmpVersionBlocks in slot order. -/
def scanTvbs (s : VertexEdges) (readTs : Composite) : List Item :=
  (List.range 16).flatMap fun slot =>
    if s.vbm.activeTvbMask slot then
      scanTvb readTs (s.tmpVb slot).timestamp (s.tmpVb slot).entries.reverse
    else []

/-- The blocks that a reader walks after the scan of the items. -/
def chainScan (b : Build) (s : VertexEdges) (readTs : Composite) : List Item :=
  match b with
  | .fineGrain => if readTs.e ≤ s.vbm.endEpoch then walk .fineGrain readTs s.vbm.vbs else []
  | .coarse => if readTs.e < s.vbm.endEpoch then walk .coarse readTs s.vbm.vbs else []

/-- for_each_edge_with_property: the pairs handed to the callback, in order. -/
def forEachEdgeWithProperty (b : Build) (s : VertexEdges) (readTs : Composite) : List Item :=
  s.items.filter (visible b readTs) ++
    (if b = .fineGrain then s.scanTvbs readTs else []) ++ s.chainScan b readTs

/-- for_each_edge: the same scan, the callback takes the edge halves only. -/
def forEachEdge (b : Build) (s : VertexEdges) (readTs : Composite) : List EdgeWithIndex :=
  (s.forEachEdgeWithProperty b readTs).map Prod.fst

end VertexEdges

end AVBGraph
