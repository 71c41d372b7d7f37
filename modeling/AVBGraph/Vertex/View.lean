import AVBGraph.Vertex.Transform
import AVBGraph.Vertex.Read

namespace AVBGraph

open Framework

/-- The newest version of a destination, as the item shows it. -/
structure Head where
  deleted : Bool
  time : Composite
  pending : Bool
  weight : Nat
  index : Nat
  deriving DecidableEq

def headOf (x : Item) : Head :=
  ⟨isDelete x.1.e, x.1.creation, isTmp x.1.block, x.2.e, x.2.block⟩

/-- A buffered entry without the position of its item. -/
structure Change where
  edge : Nat
  weight : Nat
  old : Composite
  intra : Nat
  next : Nat
  index : Nat
  deriving DecidableEq, Inhabited

def Change.key (c : Change) : Nat := clearDelete c.edge

def VersionEntry.change (x : VersionEntry) : Change :=
  ⟨x.edge, x.weight, x.old, x.newIntraC, clearTmp x.link.block, x.link.index⟩

/-- A vertex of the FINEGRAIN build by destinations: where an item is stored and how a
buffered entry finds it do not show. -/
structure View where
  edgeNum : Int
  head : Nat → Option Head
  stamp : Nat → Nat
  changes : Nat → List Change
  vbm : VersionBlockManager

def VertexEdges.view (s : VertexEdges) : View where
  edgeNum := s.edgeNum
  head d := (s.item d).map headOf
  stamp slot := (s.tmpVb slot).timestamp
  changes slot := (s.tmpVb slot).entries.map VersionEntry.change
  vbm := s.vbm

namespace View

def openTvb (v : View) (epoch : Nat) : View :=
  if v.stamp (epoch % 16) = epoch then v
  else
    { v with
      stamp := Function.update v.stamp (epoch % 16) epoch
      changes := Function.update v.changes (epoch % 16) []
      vbm := v.vbm.markTvbActive epoch }

def push (v : View) (slot : Nat) (c : Change) : View :=
  { v with changes := Function.update v.changes slot (v.changes slot ++ [c]) }

def linkNext (v : View) (pending : Bool) (lastEpoch lastIndex epoch idx : Nat) : View :=
  if pending ∧ lastEpoch ≠ 0 then
    let cs := (v.changes (lastEpoch % 16)).modify lastIndex fun c =>
      { c with next := c.next ||| epoch, index := idx }
    { v with changes := Function.update v.changes (lastEpoch % 16) cs }
  else v

/-- The version that a write replaces; a deleted one counts as none. -/
def lastTime (h : Option Head) : Composite :=
  h.elim ⟨0, 0⟩ fun h => if h.deleted then ⟨0, 0⟩ else h.time

def lastIndex (unset : Nat) (h : Option Head) : Nat :=
  h.elim unset fun h => if h.deleted then 0 else predecessor h.index

def isPending (h : Option Head) : Bool := h.elim false Head.pending

/-- The tail of both writes. -/
def addVersion (v : View) (delete pending : Bool) (last : Composite) (lastIndex weight : Nat)
    (w : Write) : View :=
  let idx := (v.changes (w.epoch % 16)).length
  let edge := if delete then setDelete w.dst else w.dst
  let v := v.push (w.epoch % 16) ⟨edge, w.weight, last, w.txn.intra, last.e, lastIndex⟩
  let v := v.linkNext pending last.e lastIndex w.epoch idx
  let new : Head := ⟨delete, ⟨w.epoch, w.txn.intra⟩, true, weight, if delete then 0 else idx⟩
  { v with head := Function.update v.head w.dst (some new) }

/-- An insertion that replaces `h`, after the TVB is open; `unset` stands for the index in the
property half of a fresh item. -/
def insertHead (v : View) (h : Option Head) (unset : Nat) (w : Write) : Bool × View :=
  if conflicts w.txn (lastTime h).e w.epoch then
    (false, { v with head := Function.update v.head w.dst (h.map fun h => { h with deleted := false }) })
  else (true, v.addVersion false (isPending h) (lastTime h) (lastIndex unset h)
    (h.elim w.weight Head.weight) w)

def insertFine (v : View) (unset : Nat) (w : Write) : Bool × View :=
  v.insertHead (v.head w.dst) unset w

/-- A deletion that replaces `h`, after the TVB is open. -/
def deleteFine (v : View) (h : Head) (w : Write) : Bool × View :=
  if conflicts w.txn h.time.e w.epoch then (false, v)
  else (true, v.addVersion true h.pending h.time (predecessor h.index) h.weight w)

/-- Heads, edge_num_ and records in the middle of Transform. -/
structure Publication where
  head : Nat → Option Head
  edgeNum : Int
  records : List Item

/-- First loop on the head of a change. -/
def freshHead (epoch : Nat) (c : Change) (h : Head) : Head :=
  if c.next ≠ 0 then { h with weight := c.weight }
  else ⟨h.deleted, ⟨epoch, c.intra⟩, false, c.weight, 0⟩

def publishFresh (epoch : Nat) (p : Publication) (c : Change) : Publication :=
  { p with
    head := Function.update p.head c.key ((p.head c.key).map (freshHead epoch c))
    edgeNum := p.edgeNum + 1 }

/-- Second and third loop on the head of a change. -/
def replacedHead (epoch idx : Nat) (c : Change) (h : Head) : Head :=
  ⟨h.deleted, ⟨epoch, c.intra⟩, false, if isDelete c.edge then 0 else c.weight, idx⟩

def recordOf (c : Change) (weight : Nat) : Item :=
  (⟨c.key, c.old.e, c.old.i⟩, ⟨weight, c.index, c.intra⟩)

def publishFine (epoch : Nat) (p : Publication) (c : Change) : Publication where
  head := Function.update p.head c.key
    ((p.head c.key).map (replacedHead epoch p.records.length c))
  edgeNum := if isDelete c.edge then p.edgeNum - 1 else p.edgeNum + 1
  records := p.records ++ [recordOf c ((p.head c.key).elim 0 Head.weight)]

def sorted (S : StdSort) (cs : List Change) : List Change :=
  (S.sort cs.length fun i j => (cs.getD i default).old < (cs.getD j default).old).map
    fun i => cs.getD i default

/-- The changes in the order in which Transform treats them: inserts, replaced versions,
deletions without a predecessor. -/
def inserts (S : StdSort) (cs : List Change) : List Change :=
  ((sorted S cs).takeWhile fun c => c.old.e = 0).filter fun c => !isDelete c.edge

def replaced (S : StdSort) (cs : List Change) : List Change :=
  ((sorted S cs).dropWhile fun c => c.old.e = 0) ++
    ((sorted S cs).takeWhile fun c => c.old.e = 0).filter fun c => isDelete c.edge

def publishAll (S : StdSort) (slot : Nat) (v : View) : Publication :=
  (replaced S (v.changes slot)).foldl (publishFine (v.stamp slot))
    ((inserts S (v.changes slot)).foldl (publishFresh (v.stamp slot)) ⟨v.head, 0, []⟩)

def transform (S : StdSort) (slot vb : Nat) (v : View) : View :=
  if v.changes slot = [] then v
  else
    let p := publishAll S slot v
    let r := v.vbm.pushVB .fineGrain v.edgeNum ⟨vb, v.stamp slot, 0, p.edgeNum, p.records⟩
    { v with
      edgeNum := r.1
      head := p.head
      changes := Function.update v.changes slot []
      vbm := r.2.markTvbInactive (v.stamp slot) }

end View

end AVBGraph
