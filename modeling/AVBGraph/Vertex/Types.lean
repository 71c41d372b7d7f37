import Mathlib.Data.List.Sort
import Mathlib.Order.Lattice.Nat
import Mathlib.Tactic

namespace AVBGraph

/-- The two build modes: FINEGRAIN is the default, AVB_COARSE switches it off. -/
inductive Build
  | fineGrain
  | coarse
  deriving DecidableEq

def intraMax : Nat := 2 ^ 32 - 1

/-- DELETION_MASK is bit 63 of an edge word. -/
def isDelete (e : Nat) : Bool := e / 2 ^ 63 % 2 = 1
def clearDelete (e : Nat) : Nat := e % 2 ^ 63
def setDelete (e : Nat) : Nat := e % 2 ^ 63 + 2 ^ 63

/-- TMPVB_MASK is bit 31 of a block word. -/
def isTmp (b : Nat) : Bool := b / 2 ^ 31 % 2 = 1
def clearTmp (b : Nat) : Nat := b % 2 ^ 31
def setTmp (b : Nat) : Nat := b % 2 ^ 31 + 2 ^ 31

@[simp] theorem isDelete_of_lt {e : Nat} (h : e < 2 ^ 63) : isDelete e = false := by
  rw [isDelete, Nat.div_eq_of_lt h]
  rfl

@[simp] theorem clearDelete_of_lt {e : Nat} (h : e < 2 ^ 63) : clearDelete e = e :=
  Nat.mod_eq_of_lt h

@[simp] theorem clearDelete_setDelete (e : Nat) : clearDelete (setDelete e) = clearDelete e := by
  simp [clearDelete, setDelete]

@[simp] theorem clearDelete_clearDelete (e : Nat) : clearDelete (clearDelete e) = clearDelete e := by
  simp [clearDelete]

@[simp] theorem isDelete_clearDelete (e : Nat) : isDelete (clearDelete e) = false :=
  isDelete_of_lt (Nat.mod_lt e (by decide))

@[simp] theorem isDelete_setDelete (e : Nat) : isDelete (setDelete e) = true := by
  have h : (e % 2 ^ 63 + 2 ^ 63) / 2 ^ 63 = 1 := by omega
  rw [isDelete, setDelete, h]
  rfl

theorem clearDelete_lt (e : Nat) : clearDelete e < 2 ^ 63 := Nat.mod_lt e (by decide)

@[simp] theorem isTmp_of_lt {b : Nat} (h : b < 2 ^ 31) : isTmp b = false := by
  rw [isTmp, Nat.div_eq_of_lt h]
  rfl

@[simp] theorem clearTmp_of_lt {b : Nat} (h : b < 2 ^ 31) : clearTmp b = b := Nat.mod_eq_of_lt h

@[simp] theorem clearTmp_setTmp (b : Nat) : clearTmp (setTmp b) = clearTmp b := by
  simp [clearTmp, setTmp]

@[simp] theorem isTmp_setTmp (b : Nat) : isTmp (setTmp b) = true := by
  have h : (b % 2 ^ 31 + 2 ^ 31) / 2 ^ 31 = 1 := by omega
  rw [isTmp, setTmp, h]
  rfl

/-- A composite timestamp, a coarse epoch and an intra-epoch time. -/
@[ext] structure Composite where
  e : Nat
  i : Nat
  deriving DecidableEq, Inhabited

namespace Composite

instance : LT Composite := ⟨fun a b => a.e < b.e ∨ (a.e = b.e ∧ a.i < b.i)⟩
instance : LE Composite := ⟨fun a b => a < b ∨ (a.e = b.e ∧ a.i = b.i)⟩

theorem lt_def {a b : Composite} : a < b ↔ a.e < b.e ∨ (a.e = b.e ∧ a.i < b.i) := Iff.rfl

theorem le_def {a b : Composite} : a ≤ b ↔ a < b ∨ (a.e = b.e ∧ a.i = b.i) := Iff.rfl

instance (a b : Composite) : Decidable (a < b) := decidable_of_iff _ lt_def.symm
instance (a b : Composite) : Decidable (a ≤ b) := decidable_of_iff _ le_def.symm

instance : LinearOrder Composite where
  le_refl a := by simp [le_def]
  le_trans a b c := by simp only [le_def, lt_def]; omega
  lt_iff_le_not_ge a b := by simp only [le_def, lt_def]; omega
  le_antisymm a b hab hba := by
    simp only [le_def, lt_def] at hab hba
    ext <;> omega
  le_total a b := by simp only [le_def, lt_def]; omega
  toDecidableLE := inferInstance
  toDecidableLT := inferInstance

end Composite

/-- One half of an adjacency item: `e` holds an edge or a property word, and
`block`, `index` overlay the 64-bit `link`. -/
@[ext] structure EdgeWithIndex where
  e : Nat
  block : Nat
  index : Nat
  deriving DecidableEq, Inhabited

namespace EdgeWithIndex

def link (x : EdgeWithIndex) : Nat := x.index * 2 ^ 32 + x.block
def setLink (x : EdgeWithIndex) (p : Nat) : EdgeWithIndex := ⟨x.e, p % 2 ^ 32, p / 2 ^ 32⟩
def clear (x : EdgeWithIndex) : EdgeWithIndex := ⟨x.e, 0, 0⟩

/-- The destination that the entry stands for, without the DELETION bit. -/
def key (x : EdgeWithIndex) : Nat := clearDelete x.e

def getCoarseC (x : EdgeWithIndex) : Nat := clearTmp x.block

/-- The creation time that the entry carries. -/
def creation (x : EdgeWithIndex) : Composite := ⟨x.getCoarseC, x.index⟩

def isVisibleAt (x : EdgeWithIndex) (snap : Nat) : Bool := x.getCoarseC ≤ snap
def isVisibleAtComposite (x : EdgeWithIndex) (query : Composite) : Bool := x.creation < query

/-- The two-sided test of version records, `c < query ≤ inv`. -/
def isVisibleAtCompositeInv (x : EdgeWithIndex) (query inv : Composite) : Bool :=
  x.creation < query ∧ query ≤ inv

/-- `edge_visible_at`: the test of a primary or buffered entry in either build. -/
def visibleAt (b : Build) (x : EdgeWithIndex) (readTs : Composite) : Bool :=
  match b with
  | .fineGrain => x.isVisibleAtComposite readTs
  | .coarse => x.isVisibleAt readTs.e

end EdgeWithIndex

/-- An adjacency item: the edge half and the property half. -/
abbrev Item := EdgeWithIndex × EdgeWithIndex

/-- What a write reads of its transaction; `intra` is the value of get_intra_c. -/
structure Transaction where
  writeOnly : Bool
  readEpoch : Nat
  intra : Nat
  addr : Nat
  deriving DecidableEq

structure VersionLink where
  block : Nat
  index : Nat
  link : Nat
  deriving DecidableEq, Inhabited

def VersionLink.hasNextVB (l : VersionLink) : Bool := clearTmp l.block ≠ 0

structure VersionEntry where
  offset : Nat
  mergeTimes : Nat
  lastEpoch : Nat
  oldIntraC : Nat
  newIntraC : Nat
  txn : Nat
  edge : Nat
  weight : Nat
  link : VersionLink
  deriving DecidableEq, Inhabited

namespace VersionEntry

def key (x : VersionEntry) : Nat := clearDelete x.edge

/-- The creation time of the version that the entry replaced. -/
def old (x : VersionEntry) : Composite := ⟨x.lastEpoch, x.oldIntraC⟩

/-- READ_WRITE_TXN is bit 63 of the transaction word. -/
def hasReadWriteTxn (x : VersionEntry) : Bool := x.txn / 2 ^ 63 % 2 = 1

end VersionEntry

def txnWord (txn : Transaction) : Nat :=
  txn.addr % 2 ^ 63 + if txn.writeOnly then 0 else 2 ^ 63

/-- A temporary version block; its growing array is the list of the entries in use. -/
structure TmpVersionBlock where
  timestamp : Nat
  entries : List VersionEntry
  deriving DecidableEq, Inhabited

namespace TmpVersionBlock

def clear (t : TmpVersionBlock) : TmpVersionBlock := { t with entries := [] }

/-- Appends an entry and returns its index. -/
def insertVersion (t : TmpVersionBlock) (edge weight : Nat) (lastEpoch lastIndex vb : Nat)
    (txn : Transaction) (offset mt : Nat) (le : Nat) (oldIntra newIntra : Nat) :
    Nat × TmpVersionBlock :=
  (t.entries.length, { t with entries := t.entries ++
    [⟨offset, mt, le, oldIntra, newIntra, txnWord txn, edge, weight,
      ⟨lastEpoch, lastIndex, vb⟩⟩] })

/-- Folds a repeated write of one epoch into its entry. -/
def changeVersion (t : TmpVersionBlock) (weight : Nat) (index : Nat) (txn : Transaction)
    (mt offset : Nat) : Option TmpVersionBlock :=
  if txn.writeOnly then
    some { t with entries := t.entries.modify index fun x =>
      let x := { x with offset := offset, mergeTimes := mt }
      if x.hasReadWriteTxn ∨ x.txn % 2 ^ 63 ≤ txn.addr % 2 ^ 63 then
        { x with weight := weight, txn := txnWord txn }
      else x }
  else none

def changeNextIndex (t : TmpVersionBlock) (index : Nat) (nextEpoch : Nat) (nextIndex : Nat) :
    TmpVersionBlock :=
  { t with entries := t.entries.modify index fun x =>
    { x with link := ⟨x.link.block ||| nextEpoch, nextIndex, x.link.link⟩ } }

def changeLastIndex (t : TmpVersionBlock) (index vb : Nat) : TmpVersionBlock :=
  { t with entries := t.entries.modify index fun x =>
    { x with link := ⟨x.link.block ^^^ 2 ^ 31, x.link.index, vb⟩ } }

end TmpVersionBlock

/-- A published version block. Record j pairs `start_[j]` with `start_[j + version_num_]`;
an empty list is a null `start_`. `addr` is the address of the block. -/
structure VersionBlock where
  addr : Nat
  timestamp : Nat
  lastEpoch : Nat
  edgeNum : Int
  records : List Item
  deriving DecidableEq

end AVBGraph
