import AVBGraph.Framework.Run
import Mathlib.Data.List.Range
import Mathlib.Order.Lattice.Nat
import Mathlib.Tactic

namespace AVBGraph.Registration

open Framework

/-- The part of registerTransaction that follows the load of the VBData. -/
inductive Creation
  | sample
  | sampled (c : Nat)
  | cas
  | check
  | alloc
  | load
  | bump (c : Nat)
  | release
  | finish
  | done (readEpoch : Nat)
  deriving DecidableEq

/-- registerTransaction and deregisterTransaction of one thread, one shared access a step.
`cur` is the epoch of the transaction, `vb` the epoch of its VBData. -/
inductive Writer
  | idle
  | test1
  | loadedCur (nw : Nat)
  | passed (cur : Nat)
  | stored (cur : Nat)
  | loadVb (cur : Nat)
  | registered (cur : Nat) (vb : Option Nat) (pc : Creation)
  deriving DecidableEq

/-- commitVersionBlock(cur) of one thread; `vb` is the local `vbdata`. -/
inductive Publisher
  | idle
  | waiting (cur : Nat)
  | first (cur : Nat)
  | test (cur : Nat) (vb : Option Nat)
  | transform (cur : Nat) (vb : Option Nat)
  | push (cur : Nat) (vb : Option Nat)
  | loadRead (cur : Nat)
  | storeRead (cur : Nat) (r : Nat)
  | advance (cur : Nat)
  | next (cur : Nat)
  | unlock
  deriving DecidableEq

/-- AllVBManager. A VBData is named by its epoch, an unwritten ring slot is `none`;
`transformed` and `enqueued` record the calls of VBData::commitVersionBlock and `vb_que_`. -/
structure State where
  cur : Nat
  readEpoch : Nat
  readEpochCur : Nat
  isCreate : Nat
  activeTxns : Nat → Option Nat
  activeTransactions : Nat → Option Nat
  writers : Nat → Writer
  mtx : Option Nat
  publishers : Nat → Publisher
  transformed : List Nat
  enqueued : List Nat

/-- The constructor leaves `is_create` and the ring slots other than 1 as the memory was. -/
def init (isCreate : Nat) : State where
  cur := 1
  readEpoch := 0
  readEpochCur := 1
  isCreate := isCreate
  activeTxns := Function.update (fun _ => none) 1 (some 1)
  activeTransactions := fun _ => none
  writers := fun _ => .idle
  mtx := none
  publishers := fun _ => .idle
  transformed := []
  enqueued := []

/-- `cur - read_epoch_ < 16` on unsigned words: a stale `cur` below `read_epoch_` wraps. -/
def hasRoom (cur readEpoch : Nat) : Bool := readEpoch ≤ cur ∧ cur - readEpoch < 16

def setWriter (s : State) (w : Nat) (pc : Writer) : State :=
  { s with writers := Function.update s.writers w pc }

def stepCreation (s : State) (w cur : Nat) (vb : Option Nat) (create : Bool) : Creation → State
  | .sample => setWriter s w (.registered cur vb (.sampled s.cur))
  | .sampled c =>
    setWriter s w (.registered cur vb (if hasRoom c s.readEpoch && create then .cas else .finish))
  | .cas =>
    if s.isCreate = 0 then setWriter { s with isCreate := 1 } w (.registered cur vb .check)
    else setWriter s w (.registered cur vb .finish)
  | .check => setWriter s w (.registered cur vb (if cur = s.cur then .alloc else .release))
  | .alloc =>
    let nextId := (cur % 16 + 1) % 16
    setWriter { s with activeTxns := Function.update s.activeTxns nextId (some (cur + 1)) } w
      (.registered cur vb .load)
  | .load => setWriter s w (.registered cur vb (.bump s.cur))
  | .bump c => setWriter { s with cur := c + 1 } w (.registered cur vb .release)
  | .release => setWriter { s with isCreate := 0 } w (.registered cur vb .finish)
  | .finish => setWriter s w (.registered cur vb (.done s.readEpoch))
  | .done _ =>
    setWriter { s with activeTransactions := Function.update s.activeTransactions w none } w .idle

/-- `create` is the outcome of the random branch that may open the next epoch. -/
def stepWriter (s : State) (w : Nat) (create : Bool) : State :=
  match s.writers w with
  | .idle | .test1 => setWriter s w (.loadedCur s.cur)
  | .loadedCur nw => setWriter s w (if hasRoom nw s.readEpoch then .passed nw else .test1)
  | .passed cur =>
    setWriter { s with activeTransactions := Function.update s.activeTransactions w (some cur) } w
      (.stored cur)
  | .stored cur => setWriter s w (if cur = s.cur then .loadVb cur else .test1)
  | .loadVb cur => setWriter s w (.registered cur (s.activeTxns (cur % 16)) .sample)
  | .registered cur vb pc => stepCreation s w cur vb create pc

def setPublisher (s : State) (p : Nat) (pc : Publisher) : State :=
  { s with publishers := Function.update s.publishers p pc }

/-- `none` is a blocked lock or the use of an unwritten ring slot. -/
def stepPublisher (s : State) (p : Nat) : Option State :=
  match s.publishers p with
  | .idle => none
  | .waiting cur =>
    if s.mtx = none then some (setPublisher { s with mtx := some p } p (.first cur)) else none
  | .first cur => some (setPublisher s p (.test cur (s.activeTxns s.readEpochCur)))
  | .test cur vb =>
    some (setPublisher s p (if s.readEpoch + 1 < cur then .transform cur vb else .unlock))
  | .transform cur vb => vb.map fun e =>
    setPublisher { s with transformed := s.transformed ++ [e] } p (.push cur vb)
  | .push cur vb => vb.map fun e =>
    setPublisher { s with enqueued := s.enqueued ++ [e] } p (.loadRead cur)
  | .loadRead cur => some (setPublisher s p (.storeRead cur s.readEpoch))
  | .storeRead cur r => some (setPublisher { s with readEpoch := r + 1 } p (.advance cur))
  | .advance cur =>
    let next := if s.readEpochCur = 15 then 0 else s.readEpochCur + 1
    some (setPublisher { s with readEpochCur := next } p (.next cur))
  | .next cur => some (setPublisher s p (.test cur (s.activeTxns s.readEpochCur)))
  | .unlock => some (setPublisher { s with mtx := none } p .idle)

inductive Event
  | writer (w : Nat) (create : Bool)
  | call (p cur : Nat)
  | publisher (p : Nat)
  deriving DecidableEq

def step (maxThreads : Nat) (s : State) : Event → Option State
  | .writer w create => if w < maxThreads then some (stepWriter s w create) else none
  | .call p cur =>
    if s.publishers p = .idle then some (setPublisher s p (.waiting cur)) else none
  | .publisher p => stepPublisher s p

/-- The epoch of a writer from the successful re-check to deregisterTransaction. -/
def Writer.epoch : Writer → Option Nat
  | .loadVb cur | .registered cur _ _ => some cur
  | _ => none

/-- The argument does not exceed `cur_` or the epoch of a registered writer. -/
def ArgOk (maxThreads : Nat) (s : State) (cur : Nat) : Prop :=
  cur ≤ s.cur ∧ ∀ w < maxThreads, ∀ c ∈ (s.writers w).epoch, cur ≤ c

instance (n : Nat) (s : State) (cur : Nat) : Decidable (ArgOk n s cur) := by
  unfold ArgOk
  infer_instance

def CallOk (maxThreads : Nat) (s : State) : Event → Prop
  | .call _ cur => ArgOk maxThreads s cur
  | _ => True

instance (n : Nat) (s : State) (e : Event) : Decidable (CallOk n s e) := by
  cases e <;> unfold CallOk <;> infer_instance

end AVBGraph.Registration
