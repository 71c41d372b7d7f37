import AVBGraph.Vertex.Lookup
import AVBGraph.Vertex.Merge

namespace AVBGraph

open Framework

/-- The arguments of a write: the flag bits of the destination and of the epoch are free, and
epochs start at 1. -/
structure Write where
  dst : Nat
  weight : Nat
  epoch : Nat
  txn : Transaction
  dst_lt : dst < 2 ^ 63
  epoch_pos : 0 < epoch
  epoch_lt : epoch < 2 ^ 31
  deriving DecidableEq

namespace Write

theorem pos_of_epoch {epoch : Nat} (h : 0 < epoch ∧ epoch < 2 ^ 31) : 0 < epoch := h.1

theorem lt_of_epoch {epoch : Nat} (h : 0 < epoch ∧ epoch < 2 ^ 31) : epoch < 2 ^ 31 := h.2

theorem one_lt : 1 < 2 ^ 63 := by decide

theorem three_lt : 3 < 2 ^ 63 := by decide

theorem seven_lt : 7 < 2 ^ 63 := by decide

theorem eight_lt : 8 < 2 ^ 63 := by decide

theorem epoch_one : 0 < 1 ∧ 1 < 2 ^ 31 := by decide

theorem epoch_two : 0 < 2 ∧ 2 < 2 ^ 31 := by decide

theorem epoch_three : 0 < 3 ∧ 3 < 2 ^ 31 := by decide

theorem three_pos : 0 < 3 := epoch_three.1

theorem one_lt_epoch : 1 < 2 ^ 31 := epoch_one.2

theorem two_lt_epoch : 2 < 2 ^ 31 := epoch_two.2

theorem three_lt_epoch : 3 < 2 ^ 31 := epoch_three.2

end Write

/-- The outcome of a write; `registered` tells that write_lock_pushback was called. -/
structure WriteResult where
  accepted : Bool
  registered : Bool
  state : VertexEdges

/-- FIRST_VERSION replaces an unknown predecessor index. -/
def predecessor (index : Nat) : Nat := if index = 2 ^ 32 - 1 then 0 else index

/-- The conflict test of a write against the newest version. -/
def conflicts (txn : Transaction) (lastEpoch epoch : Nat) : Bool :=
  (!txn.writeOnly && txn.readEpoch < lastEpoch) || epoch < lastEpoch

namespace VertexEdges

/-- A write first merges a full buffer. -/
def prepare (S : StdSort) (env : Env) (s : VertexEdges) : VertexEdges :=
  if s.tmpEv = tmpNum then mergeTmpevWithEb S env s else s

structure Found where
  state : VertexEdges
  loc : Loc
  offset : Nat
  wasDeleted : Bool

/-- The item of the destination, appended to the buffer when the hash set does not know it.
`none` is a lookup that fails and leaves its pointers unset. -/
def findOrAppend (s : VertexEdges) (w : Write) : Option Found :=
  if s.m w.dst then
    (s.getEdgeIndex w.dst).map fun (l, offset) =>
      let x := s.itemE l
      ⟨s.setItemE l { x with e := clearDelete x.e }, l, offset, isDelete x.e⟩
  else
    let p := s.tmpItem (s.tmpEv + tmpNum)
    let x : Item := (⟨w.dst, 0, 0⟩, { p with e := w.weight })
    some ⟨s.append x, .tmp s.tmpEv, setTmp s.tmpEv, false⟩

/-- The TmpVersionBlock of the epoch, reset when the slot belongs to another one. -/
def openTvb (b : Build) (s : VertexEdges) (epoch : Nat) : Bool × VertexEdges :=
  if (s.tmpVb (epoch % 16)).timestamp = epoch then (false, s)
  else (true,
    { s with
      tmpVb := Function.update s.tmpVb (epoch % 16) ⟨epoch, []⟩
      vbm := if b = .fineGrain then s.vbm.markTvbActive epoch else s.vbm })

/-- InsertVersion into the slot of the epoch. -/
def insertVersion (s : VertexEdges) (w : Write) (edge : Nat) (block index link : Nat)
    (offset lastEpoch oldIntra newIntra : Nat) : Nat × VertexEdges :=
  let (idx, vb) := (s.tmpVb (w.epoch % 16)).insertVersion edge w.weight block index link w.txn
    offset s.mergeTimes lastEpoch oldIntra newIntra
  (idx, { s with tmpVb := Function.update s.tmpVb (w.epoch % 16) vb })

/-- ChangeNextIndex on the entry of the pending predecessor, if there is one. -/
def linkNext (s : VertexEdges) (isTmp : Bool) (lastEpoch lastIndex epoch idx : Nat) : VertexEdges :=
  if isTmp ∧ lastEpoch ≠ 0 then
    let vb := (s.tmpVb (lastEpoch % 16)).changeNextIndex lastIndex epoch idx
    { s with tmpVb := Function.update s.tmpVb (lastEpoch % 16) vb }
  else s

/-- The FINEGRAIN tail of both writes: the entry with its link, then the new version in the
item. A delete marks the entry and the item. -/
def addVersion (s : VertexEdges) (l : Loc) (offset : Nat) (delete : Bool)
    (lastEpoch lastIndex oldIntra : Nat) (w : Write) : VertexEdges :=
  let x := s.itemE l
  let p := s.itemP l
  let edge := if delete then setDelete w.dst else w.dst
  let r := s.insertVersion w edge lastEpoch lastIndex (lastEpoch * 2 ^ 32 + lastIndex) offset
    lastEpoch oldIntra w.txn.intra
  let t := r.2.linkNext (isTmp x.block) lastEpoch lastIndex w.epoch r.1
  t.setItem l (⟨if delete then setDelete x.e else x.e, setTmp w.epoch, w.txn.intra⟩,
    ⟨p.e, if delete then 0 else r.1, 0⟩)

/-- The rest of insert_edge_block in the FINEGRAIN build. -/
def insertFine (s : VertexEdges) (l : Loc) (offset : Nat) (wasDeleted : Bool) (w : Write) :
    Bool × VertexEdges :=
  let x := s.itemE l
  let lastEpoch := if wasDeleted then 0 else x.getCoarseC
  let lastIndex := if wasDeleted then 0 else predecessor (s.itemP l).block
  let oldIntra := if wasDeleted then 0 else x.index
  if conflicts w.txn lastEpoch w.epoch then (false, s)
  else (true, s.addVersion l offset false lastEpoch lastIndex oldIntra w)

/-- The rest of delete_edge_block in the FINEGRAIN build. -/
def deleteFine (s : VertexEdges) (l : Loc) (offset : Nat) (w : Write) : Bool × VertexEdges :=
  let x := s.itemE l
  let lastEpoch := x.getCoarseC
  let lastIndex := predecessor (s.itemP l).block
  if conflicts w.txn lastEpoch w.epoch then (false, s)
  else (true, s.addVersion l offset true lastEpoch lastIndex x.index w)

/-- The rest of both writes in the AVB_COARSE build; a delete marks the item. -/
def writeCoarse (s : VertexEdges) (l : Loc) (offset : Nat) (delete : Bool) (w : Write) :
    Bool × VertexEdges :=
  let x := s.itemE l
  let p := s.itemP l
  let e := if delete then setDelete x.e else x.e
  let lastEpoch := if isTmp x.block then p.block else x.block
  let lastIndex := if isTmp x.block then p.index else x.index
  if conflicts w.txn lastEpoch w.epoch then (false, s)
  else if lastEpoch = w.epoch then
    match (s.tmpVb (w.epoch % 16)).changeVersion w.weight lastIndex w.txn s.mergeTimes offset with
    | none => (false, s)
    | some vb =>
      let s := { s with tmpVb := Function.update s.tmpVb (w.epoch % 16) vb }
      (true, s.setItemE l { x with e := e })
  else
    -- the pointer argument of a pending predecessor is a comma expression with value epoch
    let (idx, s) :=
      if isTmp x.block then s.insertVersion w w.dst (2 ^ 31) 0 w.epoch offset lastEpoch 0 0
      else s.insertVersion w w.dst 0 0 p.link offset lastEpoch 0 0
    let s := s.linkNext (isTmp x.block) lastEpoch lastIndex w.epoch idx
    (true, s.setItem l (⟨e, setTmp x.block, x.index⟩, ⟨p.e, w.epoch, idx⟩))

def insertEdgeBlock (b : Build) (S : StdSort) (env : Env) (s : VertexEdges) (w : Write) :
    Option WriteResult :=
  ((s.prepare S env).findOrAppend w).map fun f =>
    let (registered, s) := f.state.openTvb b w.epoch
    let (accepted, s) :=
      match b with
      | .fineGrain => s.insertFine f.loc f.offset f.wasDeleted w
      | .coarse => s.writeCoarse f.loc f.offset false w
    ⟨accepted, registered, s⟩

def deleteEdgeBlock (b : Build) (S : StdSort) (env : Env) (s : VertexEdges) (w : Write) :
    Option WriteResult :=
  let s := s.prepare S env
  if s.m w.dst then
    (s.getEdgeIndex w.dst).map fun (l, offset) =>
      let (registered, s) := s.openTvb b w.epoch
      let (accepted, s) :=
        match b with
        | .fineGrain => s.deleteFine l offset w
        | .coarse => s.writeCoarse l offset true w
      ⟨accepted, registered, s⟩
  else some ⟨false, false, s⟩

end VertexEdges

end AVBGraph
