import AVBGraph.Framework.Growing
import AVBGraph.Vertex.Types

namespace AVBGraph

open Framework Function

/-- The memory of a TmpVersionBlock: `tmp_entry_` points to `tmpEntry`, the empty list is null. -/
structure TmpEntries where
  timestamp : Nat
  tmpNum : Nat
  versionNum : Nat
  tmpEntry : List VersionEntry

namespace TmpEntries

/-- The default constructor clears the edge and the link of an entry and leaves the rest. -/
def newEntry (memory : Nat → VersionEntry) (i : Nat) : VersionEntry :=
  { memory i with edge := 0, link := ⟨0, 0, 0⟩ }

/-- memcpy of `n` entries, which fails outside of either array. -/
def memcpy (n : Nat) (dst src : List VersionEntry) : Option (List VersionEntry) :=
  if n ≤ src.length ∧ n ≤ dst.length then some (src.take n ++ dst.drop n) else none

/-- A change of `tmp_entry_[index]`, which fails outside of the array. -/
def modify (t : TmpEntries) (index : Nat) (f : VersionEntry → VersionEntry) : Option TmpEntries :=
  if index < t.tmpEntry.length then some { t with tmpEntry := t.tmpEntry.modify index f } else none

/-- The beginning of InsertVersion: a full array is replaced, with what the allocation finds in
memory behind the copied entries. -/
def grow (memory : Nat → VersionEntry) (t : TmpEntries) : Option TmpEntries :=
  if t.versionNum > t.tmpNum then
    if t.tmpNum ≠ 0 then
      let tmpNum := t.tmpNum * 2 % 2 ^ 32
      let newTmp := (List.range tmpNum).map (newEntry memory)
      (memcpy (tmpNum / 2) newTmp t.tmpEntry).map fun tmpEntry =>
        { t with tmpNum := tmpNum, tmpEntry := tmpEntry }
    else some { t with tmpNum := 8, tmpEntry := (List.range 8).map (newEntry memory) }
  else some t

/-- `version_num_ - 1` on unsigned words. -/
def lastIndex (t : TmpEntries) : Nat := (t.versionNum + 2 ^ 32 - 1) % 2 ^ 32

/-- TmpVersionBlock::InsertVersion. -/
def insertVersion (memory : Nat → VersionEntry) (t : TmpEntries) (edge weight : Nat)
    (lastEpoch lastIndex vb : Nat) (txn : Transaction) (offset mt le oldIntra newIntra : Nat) :
    Option (Nat × TmpEntries) :=
  (grow memory { t with versionNum := (t.versionNum + 1) % 2 ^ 32 }).bind fun t =>
    (t.modify t.lastIndex fun _ => ⟨offset, mt, le, oldIntra, newIntra, txnWord txn, edge, weight,
      ⟨lastEpoch, lastIndex, vb⟩⟩).map fun t' => (t.lastIndex, t')

/-- TmpVersionBlock::ChangeVersion. -/
def changeVersion (t : TmpEntries) (weight index : Nat) (txn : Transaction) (mt offset : Nat) :
    Option TmpEntries :=
  if txn.writeOnly then
    t.modify index fun x =>
      let x := { x with offset := offset, mergeTimes := mt }
      if x.hasReadWriteTxn ∨ x.txn % 2 ^ 63 ≤ txn.addr % 2 ^ 63 then
        { x with weight := weight, txn := txnWord txn }
      else x
  else none

/-- TmpVersionBlock::ChangeNextIndex. -/
def changeNextIndex (t : TmpEntries) (index nextEpoch nextIndex : Nat) : Option TmpEntries :=
  t.modify index fun x => { x with link := ⟨x.link.block ||| nextEpoch, nextIndex, x.link.link⟩ }

/-- TmpVersionBlock::ChangeLastIndex. -/
def changeLastIndex (t : TmpEntries) (index vb : Nat) : Option TmpEntries :=
  t.modify index fun x => { x with link := ⟨x.link.block ^^^ 2 ^ 31, x.link.index, vb⟩ }

/-- The calls on a TmpVersionBlock. A write that finds the block of another epoch takes it over and
sets `version_num_` back, Transform ends with Clear. -/
inductive Call
  | insertVersion (memory : Nat → VersionEntry) (edge weight lastEpoch lastIndex vb : Nat)
      (txn : Transaction) (offset mt le oldIntra newIntra : Nat)
  | changeVersion (weight index : Nat) (txn : Transaction) (mt offset : Nat)
  | changeNextIndex (index nextEpoch nextIndex : Nat)
  | changeLastIndex (index vb : Nat)
  | takeOver (epoch : Nat)
  | clear

/-- A call on the memory, with the indices that InsertVersion has returned. -/
def step (s : TmpEntries × List Nat) : Call → Option (TmpEntries × List Nat)
  | .insertVersion memory edge weight lastEpoch lastIndex vb txn offset mt le oldIntra newIntra =>
    (s.1.insertVersion memory edge weight lastEpoch lastIndex vb txn offset mt le oldIntra
      newIntra).map fun r => (r.2, s.2 ++ [r.1])
  | .changeVersion weight index txn mt offset =>
    (s.1.changeVersion weight index txn mt offset).map fun t => (t, s.2)
  | .changeNextIndex index nextEpoch nextIndex =>
    (s.1.changeNextIndex index nextEpoch nextIndex).map fun t => (t, s.2)
  | .changeLastIndex index vb => (s.1.changeLastIndex index vb).map fun t => (t, s.2)
  | .takeOver epoch => some ({ s.1 with timestamp := epoch, versionNum := 0 }, s.2)
  | .clear => some ({ s.1 with tmpNum := 0, versionNum := 0, tmpEntry := [] }, s.2)

/-- The same call on the list of entries, which has room for `2 ^ 31` of them. -/
def blockStep (s : TmpVersionBlock × List Nat) : Call → Option (TmpVersionBlock × List Nat)
  | .insertVersion _ edge weight lastEpoch lastIndex vb txn offset mt le oldIntra newIntra =>
    if s.1.entries.length < 2 ^ 31 then
      let r := s.1.insertVersion edge weight lastEpoch lastIndex vb txn offset mt le oldIntra
        newIntra
      some (r.2, s.2 ++ [r.1])
    else none
  | .changeVersion weight index txn mt offset =>
    (s.1.changeVersion weight index txn mt offset).map fun t => (t, s.2)
  | .changeNextIndex index nextEpoch nextIndex =>
    some (s.1.changeNextIndex index nextEpoch nextIndex, s.2)
  | .changeLastIndex index vb => some (s.1.changeLastIndex index vb, s.2)
  | .takeOver epoch => some (⟨epoch, []⟩, s.2)
  | .clear => some (s.1.clear, s.2)

/-- Indices are those of entries in use, and only write-only transactions write again. -/
def Valid (s : TmpVersionBlock × List Nat) : Call → Prop
  | .changeVersion _ index txn _ _ => index < s.1.entries.length ∧ txn.writeOnly = true
  | .changeNextIndex index _ _ => index < s.1.entries.length
  | .changeLastIndex index _ => index < s.1.entries.length
  | _ => True

instance (s : TmpVersionBlock × List Nat) : (c : Call) → Decidable (Valid s c)
  | .insertVersion .. => .isTrue trivial
  | .changeVersion _ _ _ _ _ => inferInstanceAs (Decidable (_ ∧ _))
  | .changeNextIndex _ _ _ => inferInstanceAs (Decidable (_ < _))
  | .changeLastIndex _ _ => inferInstanceAs (Decidable (_ < _))
  | .takeOver _ => .isTrue trivial
  | .clear => .isTrue trivial

/-- The entries that a call copies to a larger array. -/
def copied (s : TmpEntries × List Nat) : Call → Nat
  | .insertVersion .. =>
    if (s.1.versionNum + 1) % 2 ^ 32 > s.1.tmpNum then s.1.tmpNum * 2 % 2 ^ 32 / 2 else 0
  | _ => 0

def runCopied : TmpEntries × List Nat → List Call → Nat
  | _, [] => 0
  | s, c :: cs => copied s c + (step s c).elim 0 fun s => runCopied s cs

def isInsert : Call → Bool
  | .insertVersion .. => true
  | _ => false

def array (t : TmpEntries) : Growing VersionEntry := ⟨t.tmpNum, t.versionNum, t.tmpEntry⟩

def ofArray (timestamp : Nat) (g : Growing VersionEntry) : TmpEntries :=
  ⟨timestamp, g.capacity, g.used, g.cells⟩

/-- The memory holds the block, and the calls have returned the same indices. -/
structure Holds (s : TmpEntries × List Nat) (u : TmpVersionBlock × List Nat) : Prop where
  memory : Growing.Holds 32 3 s.1.array u.1.entries
  timestamp : s.1.timestamp = u.1.timestamp
  returned : s.2 = u.2

def edit : Call → Growing.Edit VersionEntry
  | .insertVersion memory edge weight lastEpoch lastIndex vb txn offset mt le oldIntra newIntra =>
    .push ⟨offset, mt, le, oldIntra, newIntra, txnWord txn, edge, weight,
      ⟨lastEpoch, lastIndex, vb⟩⟩ (newEntry memory)
  | .changeVersion weight index txn mt offset => .modify index fun x =>
      let x := { x with offset := offset, mergeTimes := mt }
      if x.hasReadWriteTxn ∨ x.txn % 2 ^ 63 ≤ txn.addr % 2 ^ 63 then
        { x with weight := weight, txn := txnWord txn }
      else x
  | .changeNextIndex index nextEpoch nextIndex => .modify index fun x =>
      { x with link := ⟨x.link.block ||| nextEpoch, nextIndex, x.link.link⟩ }
  | .changeLastIndex index vb => .modify index fun x =>
      { x with link := ⟨x.link.block ^^^ 2 ^ 31, x.link.index, vb⟩ }
  | .takeOver _ => .rewind
  | .clear => .release

/-- The timestamp after a call. -/
def stamp (timestamp : Nat) : Call → Nat
  | .takeOver epoch => epoch
  | _ => timestamp

/-- What a call on `n` entries in use returns. -/
def indices (n : Nat) : Call → List Nat
  | .insertVersion .. => [n]
  | _ => []

section Simulation

variable {s : TmpEntries × List Nat} {u : TmpVersionBlock × List Nat} {c : Call}

theorem modify_eq (t : TmpEntries) (index : Nat) (f : VersionEntry → VersionEntry) :
    t.modify index f = (t.array.modify index f).map (ofArray t.timestamp) := by
  unfold modify Growing.modify array ofArray
  split <;> rfl

theorem grow_eq (memory : Nat → VersionEntry) (t : TmpEntries) :
    t.grow memory =
      (t.array.makeRoom 32 8 (newEntry memory)).map (ofArray t.timestamp) := by
  unfold grow Growing.makeRoom Growing.grow
  split
  · split
    · simp [array, ofArray, memcpy, Growing.copyFront, Growing.alloc, *]
    · simp [array, ofArray, Growing.alloc, *]
  · simp [array, ofArray, *]

theorem lastIndex_of_succ {t : TmpEntries} {n : Nat} (hn : n + 1 < 2 ^ 32)
    (ht : t.versionNum = n + 1) : t.lastIndex = n := by
  rw [lastIndex, ht]
  omega

theorem insertVersion_eq (memory : Nat → VersionEntry) (t : TmpEntries)
    (edge weight lastEpoch lastIndex vb : Nat) (txn : Transaction)
    (offset mt le oldIntra newIntra : Nat) (ht : t.versionNum + 1 < 2 ^ 32) :
    t.insertVersion memory edge weight lastEpoch lastIndex vb txn offset mt le oldIntra newIntra =
      (t.array.push 32 8 ⟨offset, mt, le, oldIntra, newIntra, txnWord txn, edge, weight,
        ⟨lastEpoch, lastIndex, vb⟩⟩ (newEntry memory)).map fun g =>
          (t.versionNum, ofArray t.timestamp g) := by
  have hpush := Growing.push_eq (g := t.array) ht 8
    ⟨offset, mt, le, oldIntra, newIntra, txnWord txn, edge, weight, ⟨lastEpoch, lastIndex, vb⟩⟩
    (newEntry memory)
  have hgrow := grow_eq memory { t with versionNum := t.versionNum + 1 }
  rw [hpush, insertVersion, Nat.mod_eq_of_lt ht, hgrow]
  change ((Growing.makeRoom 32 8 (newEntry memory)
      ⟨t.tmpNum, t.versionNum + 1, t.tmpEntry⟩).map (ofArray t.timestamp)).bind _ =
    ((Growing.makeRoom 32 8 (newEntry memory)
      ⟨t.tmpNum, t.versionNum + 1, t.tmpEntry⟩).bind _).map _
  cases ho : Growing.makeRoom 32 8 (newEntry memory) ⟨t.tmpNum, t.versionNum + 1, t.tmpEntry⟩ with
  | none => rfl
  | some g =>
    have hg : (ofArray t.timestamp g).lastIndex = t.versionNum :=
      lastIndex_of_succ ht (Growing.used_makeRoom ho)
    rw [Option.map_some, Option.bind_some, Option.bind_some, hg, modify_eq, Option.map_map]
    rfl

theorem step_eq (hv : Valid u c) (hs : s.1.versionNum + 1 < 2 ^ 32) :
    step s c = (s.1.array.step 32 8 (edit c)).map fun g =>
      (ofArray (stamp s.1.timestamp c) g, s.2 ++ indices s.1.versionNum c) := by
  cases c with
  | insertVersion memory edge weight lastEpoch lastIndex vb txn offset mt le oldIntra newIntra =>
    rw [step, insertVersion_eq _ _ _ _ _ _ _ _ _ _ _ _ _ hs, Option.map_map]
    rfl
  | changeVersion weight index txn mt offset =>
    simp [step, changeVersion, hv.2, modify_eq, edit, Growing.step, stamp, indices, comp_def]
  | changeNextIndex index nextEpoch nextIndex =>
    simp [step, changeNextIndex, modify_eq, edit, Growing.step, stamp, indices, comp_def]
  | changeLastIndex index vb =>
    simp [step, changeLastIndex, modify_eq, edit, Growing.step, stamp, indices, comp_def]
  | takeOver epoch => simp [step, edit, Growing.step, stamp, indices, array, ofArray]
  | clear => simp [step, edit, Growing.step, stamp, indices, ofArray, Growing.empty]

theorem blockStep_eq (hv : Valid u c) :
    blockStep u c = (Growing.listStep (2 ^ 31) u.1.entries (edit c)).map fun xs =>
      (⟨stamp u.1.timestamp c, xs⟩, u.2 ++ indices u.1.entries.length c) := by
  cases c with
  | insertVersion memory edge weight lastEpoch lastIndex vb txn offset mt le oldIntra newIntra =>
    by_cases hlt : u.1.entries.length < 2 ^ 31
    · simp only [blockStep, edit, Growing.listStep, if_pos hlt]
      rfl
    · simp only [blockStep, edit, Growing.listStep, if_neg hlt]
      rfl
  | changeVersion weight index txn mt offset =>
    simp [blockStep, TmpVersionBlock.changeVersion, hv.2, edit, Growing.listStep, stamp, indices]
  | changeNextIndex index nextEpoch nextIndex =>
    simp [blockStep, TmpVersionBlock.changeNextIndex, edit, Growing.listStep, stamp, indices]
  | changeLastIndex index vb =>
    simp [blockStep, TmpVersionBlock.changeLastIndex, edit, Growing.listStep, stamp, indices]
  | takeOver epoch => simp [blockStep, edit, Growing.listStep, stamp, indices]
  | clear => simp [blockStep, TmpVersionBlock.clear, edit, Growing.listStep, stamp, indices]

theorem inUse_edit (hv : Valid u c) : Growing.InUse u.1.entries (edit c) := by
  cases c with
  | insertVersion => trivial
  | changeVersion weight index txn mt offset => exact hv.1
  | changeNextIndex index nextEpoch nextIndex => exact hv
  | changeLastIndex index vb => exact hv
  | takeOver => trivial
  | clear => trivial

theorem Holds.versionNum_lt (h : Holds s u) : s.1.versionNum + 1 < 2 ^ 32 := by
  have hle : s.1.versionNum ≤ 2 ^ 31 := h.memory.used_le.trans h.memory.capacity_le
  omega

theorem Holds.step (h : Holds s u) (hv : Valid u c) :
    Option.Rel Holds (step s c) (blockStep u c) := by
  have hrel : Option.Rel (Growing.Holds 32 3) (s.1.array.step 32 8 (edit c))
      (Growing.listStep (2 ^ 31) u.1.entries (edit c)) :=
    h.memory.step (by decide) (by decide) (inUse_edit hv)
  have hnum : s.1.versionNum = u.1.entries.length := h.memory.used_eq
  rw [step_eq hv h.versionNum_lt, blockStep_eq hv]
  revert hrel
  generalize s.1.array.step 32 8 (edit c) = a
  generalize Growing.listStep (2 ^ 31) u.1.entries (edit c) = b
  rintro (hab | -)
  · exact .some ⟨hab, by rw [← h.timestamp]; rfl, by rw [h.returned, hnum]⟩
  · exact .none

variable {cs : List Call}

theorem along_edit (hok : Along blockStep Valid u cs) :
    Along (Growing.listStep (2 ^ 31)) Growing.InUse u.1.entries (cs.map edit) := by
  induction cs generalizing u with
  | nil => trivial
  | cons c cs ih =>
    refine ⟨inUse_edit hok.1, fun xs hxs => ?_⟩
    have hstep : blockStep u c =
        some (⟨stamp u.1.timestamp c, xs⟩, u.2 ++ indices u.1.entries.length c) := by
      rw [blockStep_eq hok.1, Option.mem_def.mp hxs, Option.map_some]
    exact ih (hok.2 _ hstep)

theorem runCopied_eq (h : Holds s u) (hok : Along blockStep Valid u cs) :
    runCopied s cs = Growing.runCopied 32 8 s.1.array (cs.map edit) := by
  induction cs generalizing s u with
  | nil => rfl
  | cons c cs ih =>
    have hcopied : copied s c = Growing.copied 32 s.1.array (edit c) := by cases c <;> rfl
    have hrel := h.step hok.1
    have hrest := hok.2
    rw [runCopied, List.map_cons, Growing.runCopied, hcopied]
    rw [step_eq hok.1 h.versionNum_lt] at hrel ⊢
    cases hstep : s.1.array.step 32 8 (edit c) with
    | none => rfl
    | some g =>
      rw [hstep, Option.map_some] at hrel
      revert hrel hrest
      generalize blockStep u c = o
      rintro hrest (hnext | -)
      exact congrArg _ (ih hnext (hrest _ rfl))

end Simulation

/-- A TmpVersionBlock as its constructor leaves it, before any call has returned. -/
def start : TmpEntries × List Nat := (⟨0, 0, 0, []⟩, [])

/-- In every run of calls on entries in use, the growing array holds the entries of the block,
returns the indices of their list and is never left. It goes on as long as the list does, so until a
block with `2 ^ 31` entries gets one more. Two entries are copied at most for each one inserted. -/
theorem tmpEntries_spec {cs : List Call} (hok : Along blockStep Valid (⟨0, []⟩, []) cs) :
    Option.Rel Holds (exec step start cs) (exec blockStep (⟨0, []⟩, []) cs) ∧
      runCopied start cs ≤ 2 * cs.countP isInsert := by
  have hstart : Holds start (⟨0, []⟩, []) := ⟨Growing.holds_empty, rfl, rfl⟩
  refine ⟨exec_rel (fun _ _ _ h hv => h.step hv) hstart hok, ?_⟩
  have hcount : cs.countP isInsert = (cs.map edit).countP Growing.isPush := by
    rw [List.countP_map]
    exact List.countP_congr fun c _ => by cases c <;> rfl
  rw [runCopied_eq hstart hok, hcount]
  exact (Growing.exec_spec (by decide : 1 < 32) (by decide : 3 < 32) (along_edit hok)).2

section Run

/-- Nine entries, the last one linked to the first. -/
def nineEntries : List Call :=
  List.replicate 9 (.insertVersion (fun _ => default) 7 5 0 0 0 ⟨true, 0, 1, 16⟩ 0 0 0 0 1) ++
    [.changeNextIndex 8 2 0]

theorem tmpEntries_spec_nine : ∃ s u, exec step start nineEntries = some s ∧
    exec blockStep (⟨0, []⟩, []) nineEntries = some u ∧ Holds s u ∧ s.2 = List.range 9 ∧
      s.1.tmpNum = 16 ∧ runCopied start nineEntries = 8 := by
  have hrel := (@tmpEntries_spec nineEntries (by decide +kernel)).1
  have hrun : ∃ s, exec step start nineEntries = some s ∧ s.2 = List.range 9 ∧ s.1.tmpNum = 16 := by
    refine exists_exec ?_
    decide +kernel
  obtain ⟨s, hs, hreturned, hnum⟩ := hrun
  rw [hs] at hrel
  cases hu : exec blockStep (⟨0, []⟩, []) nineEntries with
  | none =>
    rw [hu] at hrel
    cases hrel
  | some u =>
    rw [hu] at hrel
    cases hrel with
    | some hholds => exact ⟨s, u, hs, rfl, hholds, hreturned, hnum, by decide +kernel⟩

end Run

end TmpEntries

end AVBGraph
