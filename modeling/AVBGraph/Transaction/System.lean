import AVBGraph.Framework.Run
import AVBGraph.Vertex.Transform

namespace AVBGraph

open Framework

/-- WRITE_THREAD, and the length of VBData::vb_vector. -/
def writeThread : Nat := 64
def vbVectorLength : Nat := 65

theorem vbVectorLength_pos : 0 < vbVectorLength := by decide

/-- The arguments of Transaction::insertedge and deletedge. -/
structure Call where
  delete : Bool
  src : Nat
  dst : Nat
  weight : Nat
  dst_lt : dst < 2 ^ 63

theorem Call.ext_iff {c d : Call} :
    c.delete = d.delete ∧ c.src = d.src ∧ c.dst = d.dst ∧ c.weight = d.weight ↔ c = d := by
  cases c
  cases d
  simp

instance : DecidableEq Call := fun _ _ => decidable_of_iff _ Call.ext_iff

/-- Where the thread of a transaction stands: between two calls, in the lock call of a write,
inside a write with its lock, or in commit with the locks that are still to be released. -/
inductive Pc
  | ready
  | waiting (c : Call)
  | inside (c : Call)
  | committing (rest : List Nat)
  deriving DecidableEq

/-- The write that the thread is inside of. -/
def Pc.write : Pc → Option Call
  | .inside c => some c
  | .ready | .waiting _ | .committing _ => none

theorem Pc.mem_write {pc : Pc} {c : Call} : c ∈ pc.write ↔ pc = .inside c := by
  cases pc <;> simp [Pc.write]

/-- A registered Transaction and its thread. `intra` is intra_c_, 0 until it is drawn. -/
structure Txn where
  writeOnly : Bool
  readEpoch : Nat
  epoch : Nat
  addr : Nat
  threadid : Nat
  intra : Nat
  ebVec : List Nat
  pc : Pc
  epoch_pos : 0 < epoch
  epoch_lt : epoch < 2 ^ 31
  threadid_lt : threadid < vbVectorLength

/-- The VBData of one epoch. A TmpVersionBlock is named by its vertex and its slot; `todo`
holds those that a running commitVersionBlock has not transformed yet. -/
structure VBData where
  intraCounter : Nat
  vbVector : Nat → List (Nat × Nat)
  todo : Option (List (Nat × Nat))

namespace VBData

def empty : VBData := ⟨0, fun _ => [], none⟩

def pushback (d : VBData) (vb : Nat × Nat) (threadid : Nat) : VBData :=
  { d with vbVector := Function.update d.vbVector threadid (d.vbVector threadid ++ [vb]) }

/-- `this_vb_vector_`, the lists that commitVersionBlock collects. -/
def thisVbVector (d : VBData) : List (Nat × Nat) := (List.range writeThread).flatMap d.vbVector

end VBData

/-- An accepted write, with the creation time of the item that it found. -/
structure Accepted where
  txn : Nat
  src : Nat
  dst : Nat
  replaced : Option Composite
  time : Composite
  deriving DecidableEq

/-- A call of Transform by commitVersionBlock of an epoch; `timestamp` is the one that the new
VersionBlock copies. -/
structure HandOver where
  epoch : Nat
  src : Nat
  slot : Nat
  timestamp : Nat
  deriving DecidableEq

/-- The vertices with their write locks, the transactions and the VBData of every epoch.
`accepted` and `handed` record what happened. -/
structure System where
  vertices : Nat → VertexEdges
  holder : Nat → Option Nat
  txns : Nat → Option Txn
  vbData : Nat → VBData
  accepted : List Accepted
  handed : List HandOver

inductive Event
  | register (t : Nat) (x : Txn)
  | call (t : Nat) (c : Call)
  | lock (t : Nat)
  | run (t : Nat) (env : Env)
  | commit (t : Nat)
  | unlock (t : Nat)
  | collect (epoch : Nat)
  | handOver (epoch i vb : Nat)

namespace Txn

/-- get_intra_c with the counter of the epoch. -/
def getIntraC (x : Txn) (d : VBData) : Nat := if x.intra = 0 then d.intraCounter + 1 else x.intra

def drawIntra (x : Txn) (d : VBData) : VBData :=
  if x.intra = 0 then { d with intraCounter := d.intraCounter + 1 } else d

/-- The write that a call makes. -/
def write (x : Txn) (d : VBData) (c : Call) : Write where
  dst := c.dst
  weight := c.weight
  epoch := x.epoch
  txn := ⟨x.writeOnly, x.readEpoch, x.getIntraC d, x.addr⟩
  dst_lt := c.dst_lt
  epoch_pos := x.epoch_pos
  epoch_lt := x.epoch_lt

end Txn

namespace System

/-- Vertices without transactions. -/
def start (vertices : Nat → VertexEdges) : System :=
  ⟨vertices, fun _ => none, fun _ => none, fun _ => .empty, [], []⟩

/-- insert_edge_block or delete_edge_block of the source vertex. -/
def runCall (b : Build) (S : StdSort) (env : Env) (s : System) (x : Txn) (c : Call) :
    Option WriteResult :=
  let w := x.write (s.vbData x.epoch) c
  if c.delete then (s.vertices c.src).deleteEdgeBlock b S env w
  else (s.vertices c.src).insertEdgeBlock b S env w

/-- The creation time of the item that a write finds. -/
def found (S : StdSort) (env : Env) (s : System) (c : Call) : Option Composite :=
  (((s.vertices c.src).prepare S env).item c.dst).map fun y => y.1.creation

/-- The end of a write. In the FINEGRAIN build an accepted one draws the timestamp, keeps the
lock and goes to EB_vec_; every other write releases the lock. -/
def finish (b : Build) (S : StdSort) (env : Env) (s : System) (t : Nat) (x : Txn) (c : Call)
    (r : WriteResult) : System :=
  let d := s.vbData x.epoch
  let reg := if r.registered then d.pushback (c.src, x.epoch % 16) x.threadid else d
  let vertices := Function.update s.vertices c.src r.state
  if r.accepted then
    match b with
    | .fineGrain =>
      let intra := x.getIntraC d
      let y := { x with intra := intra, ebVec := x.ebVec ++ [c.src], pc := .ready }
      { s with
        vertices := vertices
        txns := Function.update s.txns t (some y)
        vbData := Function.update s.vbData x.epoch (x.drawIntra reg)
        accepted := s.accepted ++ [⟨t, c.src, c.dst, s.found S env c, ⟨x.epoch, intra⟩⟩] }
    | .coarse =>
      { s with
        vertices := vertices
        holder := Function.update s.holder c.src none
        txns := Function.update s.txns t (some { x with pc := .ready })
        vbData := Function.update s.vbData x.epoch reg
        accepted := s.accepted ++ [⟨t, c.src, c.dst, s.found S env c, ⟨x.epoch, 0⟩⟩] }
  else
    { s with
      vertices := vertices
      holder := Function.update s.holder c.src none
      txns := Function.update s.txns t (some { x with pc := .ready })
      vbData := Function.update s.vbData x.epoch reg }

/-- One step of a thread, or of VBData::commitVersionBlock, which is called once for every
epoch and runs its loop in any order. -/
def step (b : Build) (S : StdSort) (s : System) : Event → Option System
  | .register t x =>
    if s.txns t = none then
      let x := { x with intra := 0, ebVec := [], pc := .ready }
      some { s with txns := Function.update s.txns t (some x) }
    else none
  | .call t c => do
    let x ← s.txns t
    if x.pc = .ready then
      some { s with txns := Function.update s.txns t (some { x with pc := .waiting c }) }
    else none
  | .lock t => do
    let x ← s.txns t
    match x.pc with
    | .waiting c =>
      if s.holder c.src = none then
        some { s with
          holder := Function.update s.holder c.src (some t)
          txns := Function.update s.txns t (some { x with pc := .inside c }) }
      else none
    | _ => none
  | .run t env => do
    let x ← s.txns t
    match x.pc with
    | .inside c => (s.runCall b S env x c).map (s.finish b S env t x c)
    | _ => none
  | .commit t => do
    let x ← s.txns t
    if x.pc = .ready then
      match b with
      | .fineGrain =>
        let d := s.vbData x.epoch
        let y := { x with intra := x.getIntraC d, pc := .committing x.ebVec }
        some { s with
          txns := Function.update s.txns t (some y)
          vbData := Function.update s.vbData x.epoch (x.drawIntra d) }
      | .coarse =>
        some { s with txns := Function.update s.txns t (some { x with pc := .committing x.ebVec }) }
    else none
  | .unlock t => do
    let x ← s.txns t
    match x.pc with
    | .committing (v :: rest) =>
      some { s with
        holder := Function.update s.holder v none
        txns := Function.update s.txns t (some { x with pc := .committing rest }) }
    | _ => none
  | .collect epoch =>
    let d := s.vbData epoch
    if d.todo = none then
      let d := { d with todo := some d.thisVbVector }
      some { s with vbData := Function.update s.vbData epoch d }
    else none
  | .handOver epoch i vb => do
    let d := s.vbData epoch
    let todo ← d.todo
    let (v, slot) ← todo[i]?
    if s.holder v = none then
      let r ← (s.vertices v).transform b S slot vb
      some { s with
        vertices := Function.update s.vertices v r.2
        vbData := Function.update s.vbData epoch { d with todo := some (todo.eraseIdx i) }
        handed := s.handed ++ [⟨epoch, v, slot, ((s.vertices v).tmpVb slot).timestamp⟩] }
    else none

end System

end AVBGraph
