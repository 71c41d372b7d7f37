import AVBGraph.Vertex.Insert

namespace AVBGraph

open Framework

namespace VertexEdges

/-- The item that a buffered entry is about. An unfound item leaves the pointers unset. -/
def locate (s : VertexEdges) (x : VersionEntry) : Option Loc :=
  if x.mergeTimes ≠ s.mergeTimes then s.getEdgeIndex2 x.key
  else some (decodeOffset x.offset)

def entry (s : VertexEdges) (slot i : Nat) : VersionEntry :=
  (s.tmpVb slot).entries.getD i default

/-- The comparator of Transform. -/
def createdBefore (x y : VersionEntry) : Bool :=
  if x.lastEpoch ≠ y.lastEpoch then x.lastEpoch < y.lastEpoch else x.oldIntraC < y.oldIntraC

def transformOrder (S : StdSort) (entries : List VersionEntry) : List Nat :=
  S.sort entries.length fun i j => createdBefore (entries.getD i default) (entries.getD j default)

/-- A vertex in the middle of Transform, with edge_num_ and the records of the new block. -/
structure Progress where
  state : VertexEdges
  edgeNum : Int
  records : List Item

def changeLast (s : VertexEdges) (link : VersionLink) (vb : Nat) : VertexEdges :=
  let next := (s.tmpVb (link.block % 16)).changeLastIndex link.index vb
  { s with tmpVb := Function.update s.tmpVb (link.block % 16) next }

/-- First loop: the version that an insertion created. -/
def publishFresh (b : Build) (slot epoch : Nat) (t : Progress) (i : Nat) : Option Progress :=
  let x := t.state.entry slot i
  (t.state.locate x).map fun l =>
    let s := t.state
    let e := s.itemE l
    let p := s.itemP l
    let s :=
      if x.link.hasNextVB then
        let p := if b = .coarse then p.setLink (epoch * 2 ^ 32 + (2 ^ 32 - 1)) else p
        (s.changeLast x.link 0).setItem l (e, { p with e := x.weight })
      else
        let index := if b = .fineGrain then x.newIntraC else 2 ^ 32 - 1
        s.setItem l (⟨e.e, epoch, index⟩, ⟨x.weight, 0, 0⟩)
    { t with state := s, edgeNum := t.edgeNum + 1 }

/-- Second and third loop in the FINEGRAIN build: the record of the replaced version, then
the new version in the item. -/
def publishFine (slot epoch : Nat) (t : Progress) (i : Nat) : Option Progress :=
  let x := t.state.entry slot i
  (t.state.locate x).map fun l =>
    let s := t.state
    let e := s.itemE l
    let p := s.itemP l
    let weight := if isDelete x.edge then 0 else x.weight
    { state := s.setItem l (⟨e.e, epoch, x.newIntraC⟩, ⟨weight, t.records.length, 0⟩)
      edgeNum := if isDelete x.edge then t.edgeNum - 1 else t.edgeNum + 1
      records := t.records ++
        [(⟨x.key, x.lastEpoch, x.oldIntraC⟩, ⟨p.e, x.link.index, x.newIntraC⟩)] }

/-- Second loop in the AVB_COARSE build; `third` is the third loop, which never looks for a
pending successor. -/
def publishCoarse (third : Bool) (slot epoch vb : Nat) (t : Progress) (i : Nat) :
    Option Progress :=
  let x := t.state.entry slot i
  (t.state.locate x).map fun l =>
    let s := t.state
    let e := s.itemE l
    let p := s.itemP l
    let s :=
      if x.link.hasNextVB ∧ third = false then
        (s.changeLast x.link vb).setItem l (⟨e.e, epoch, t.records.length⟩, p)
      else s.setItem l (⟨e.e, p.block, p.index⟩, (EdgeWithIndex.mk x.weight 0 0).setLink vb)
    { state := s
      edgeNum := if isDelete x.edge then t.edgeNum - 1 else t.edgeNum + 1
      records := t.records ++
        [(⟨x.key, clearTmp e.block, e.index⟩, (EdgeWithIndex.mk p.e 0 0).setLink x.link.link)] }

/-- PushVB and the tail of Transform. -/
def pushBlock (b : Build) (slot epoch vb : Nat) (t : Progress) : VertexEdges :=
  let s := t.state
  let (edgeNum, vbm) := s.vbm.pushVB b s.edgeNum ⟨vb, epoch, 0, t.edgeNum, t.records⟩
  { s with
    edgeNum := edgeNum
    vbm := if b = .fineGrain then vbm.markTvbInactive epoch else vbm
    tmpVb := Function.update s.tmpVb slot (s.tmpVb slot).clear }

/-- The three loops of Transform: first inserts, then records of replaced versions, then
records of deletions without a predecessor. -/
def publishAll (b : Build) (S : StdSort) (slot vb : Nat) (s : VertexEdges) : Option Progress :=
  let entries := (s.tmpVb slot).entries
  let epoch := (s.tmpVb slot).timestamp
  let order := transformOrder S entries
  let fresh := order.takeWhile fun i => (s.entry slot i).lastEpoch = 0
  let rest := order.dropWhile fun i => (s.entry slot i).lastEpoch = 0
  let inserts := fresh.filter fun i => !isDelete (s.entry slot i).edge
  let deletes := fresh.filter fun i => isDelete (s.entry slot i).edge
  let second := if b = .fineGrain then publishFine slot epoch else publishCoarse false slot epoch vb
  let third := if b = .fineGrain then publishFine slot epoch else publishCoarse true slot epoch vb
  do
    let t ← inserts.foldlM (publishFresh b slot epoch) ⟨s, 0, []⟩
    let t ← rest.foldlM second t
    deletes.foldlM third t

/-- Transform of the TmpVersionBlock in a slot into the version block at address `vb`; the
result carries the number of records. -/
def transform (b : Build) (S : StdSort) (slot vb : Nat) (s : VertexEdges) :
    Option (Nat × VertexEdges) :=
  if (s.tmpVb slot).entries = [] then some (0, s)
  else (publishAll b S slot vb s).map fun t =>
    (t.records.length, pushBlock b slot (s.tmpVb slot).timestamp vb t)

end VertexEdges

end AVBGraph
