import AVBGraph.Vertex.Types

namespace AVBGraph

/-- VersionBlockManager. `vbs` is the chain from `vb_end` along `last_vb_`; a chain that
ends is a null pointer. -/
structure VersionBlockManager where
  endEpoch : Nat
  vbs : List VersionBlock
  activeTvbMask : Nat → Bool
  vbIndex : List (Nat × VersionBlock)

namespace VersionBlockManager

def empty : VersionBlockManager := ⟨0, [], fun _ => false, []⟩

def markTvbActive (m : VersionBlockManager) (epoch : Nat) : VersionBlockManager :=
  { m with activeTvbMask := Function.update m.activeTvbMask (epoch % 16) true }

def markTvbInactive (m : VersionBlockManager) (epoch : Nat) : VersionBlockManager :=
  { m with activeTvbMask := Function.update m.activeTvbMask (epoch % 16) false }

/-- Pushes a block and returns the adjusted edge counter of the caller. -/
def pushVB (b : Build) (edgeNum : Int) (nw : VersionBlock) (m : VersionBlockManager) :
    Int × VersionBlockManager :=
  let nw := { nw with lastEpoch := m.endEpoch }
  (edgeNum + nw.edgeNum,
    { m with
      vbs := nw :: m.vbs
      endEpoch := nw.timestamp
      vbIndex := if b = .fineGrain then m.vbIndex ++ [(nw.timestamp, nw)] else m.vbIndex })

/-- The loop of getDegreeVersioned; `none` is a null dereference. -/
def degreeLoop (epoch : Nat) : Nat → List VersionBlock → Int → Option Int
  | ts, vbs, degree =>
    if epoch < ts then
      match vbs with
      | [] => none
      | vb :: rest => degreeLoop epoch vb.lastEpoch rest (degree - vb.edgeNum)
    else some degree
termination_by structural _ vbs => vbs

def getDegreeVersioned (m : VersionBlockManager) (epoch : Nat) : Option Int :=
  degreeLoop epoch m.endEpoch m.vbs 0

/-- The blocks that getDegreeVersioned dereferences. -/
def degreeReads (epoch : Nat) : Nat → List VersionBlock → List VersionBlock
  | _, [] => []
  | ts, vb :: rest => if epoch < ts then vb :: degreeReads epoch vb.lastEpoch rest else []

end VersionBlockManager

/-- The stop test of FindIndex and getNext on `last_epoch_`. -/
def VersionBlock.endsBefore (b : Build) (version : Nat) (vb : VersionBlock) : Bool :=
  match b with
  | .fineGrain => vb.lastEpoch < version
  | .coarse => vb.lastEpoch ≤ version

/-- `index_ == nullptr || index_->block > version_`. -/
def VersionBlock.skipped (version : Nat) (vb : VersionBlock) : Bool :=
  vb.records.head?.all fun r => version < r.1.block

/-- FindIndex without statistics: the chain from the block it rests on, `none` at the end. -/
def findIndex (b : Build) (version : Nat) : List VersionBlock → Option (List VersionBlock)
  | [] => none
  | vb :: rest =>
    if b = .fineGrain ∧ vb.timestamp = version then
      if vb.records = [] then none else some (vb :: rest)
    else if vb.skipped version then
      if vb.endsBefore b version then none else findIndex b version rest
    else some (vb :: rest)

def getNext (b : Build) (version : Nat) : List VersionBlock → Option (List VersionBlock)
  | [] => none
  | vb :: rest => if vb.endsBefore b version then none else findIndex b version rest

/-- The record loop of for_each_edge in one block. -/
def emitBlock (b : Build) (readTs : Composite) (vb : VersionBlock) : List Item :=
  if b = .fineGrain ∧ vb.timestamp = readTs.e then
    vb.records.takeWhile fun r => r.1.isVisibleAtCompositeInv readTs ⟨readTs.e, r.2.index⟩
  else vb.records.takeWhile fun r => r.1.isVisibleAt readTs.e

/-- The iterator loop of for_each_edge; every round leaves at least one block behind. -/
def walkFrom (b : Build) (readTs : Composite) : Nat → Option (List VersionBlock) → List Item
  | fuel + 1, some (vb :: rest) =>
      emitBlock b readTs vb ++ walkFrom b readTs fuel (getNext b readTs.e (vb :: rest))
  | _, _ => []

def walk (b : Build) (readTs : Composite) (vbs : List VersionBlock) : List Item :=
  walkFrom b readTs vbs.length (findIndex b readTs.e vbs)

/-- The same loop with FindIndex and getNext unfolded into one pass over the chain. -/
def scan (b : Build) (readTs : Composite) : List VersionBlock → List Item
  | [] => []
  | vb :: rest =>
    let next := if vb.endsBefore b readTs.e then [] else scan b readTs rest
    if b = .fineGrain ∧ vb.timestamp = readTs.e then
      if vb.records = [] then [] else emitBlock b readTs vb ++ next
    else if vb.skipped readTs.e then next
    else emitBlock b readTs vb ++ next

/-- The blocks that one FindIndex dereferences. -/
def findIndexReads (b : Build) (version : Nat) : List VersionBlock → List VersionBlock
  | [] => []
  | vb :: rest =>
    if b = .fineGrain ∧ vb.timestamp = version then [vb]
    else if vb.skipped version then
      if vb.endsBefore b version then [vb] else vb :: findIndexReads b version rest
    else [vb]

/-- The further blocks that the iterator loop dereferences from the block it rests on. -/
def walkFromReads (b : Build) (version : Nat) :
    Nat → Option (List VersionBlock) → List VersionBlock
  | fuel + 1, some (vb :: rest) =>
      (if vb.endsBefore b version then [] else findIndexReads b version rest) ++
        walkFromReads b version fuel (getNext b version (vb :: rest))
  | _, _ => []

/-- The blocks that the iterator dereferences during a walk. -/
def walkReads (b : Build) (version : Nat) (vbs : List VersionBlock) : List VersionBlock :=
  findIndexReads b version vbs ++
    walkFromReads b version vbs.length (findIndex b version vbs)

/-- The same blocks, collected in one pass over the chain. -/
def scanReads (b : Build) (version : Nat) : List VersionBlock → List VersionBlock
  | [] => []
  | vb :: rest =>
    if b = .fineGrain ∧ vb.timestamp = version ∧ vb.records = [] then [vb]
    else vb :: if vb.endsBefore b version then [] else scanReads b version rest

theorem findIndex_length {b : Build} {version : Nat} {vbs ws : List VersionBlock}
    (h : findIndex b version vbs = some ws) : ws.length ≤ vbs.length := by
  induction vbs with
  | nil => simp [findIndex] at h
  | cons vb rest ih =>
    simp only [findIndex] at h
    split_ifs at h
    · obtain rfl := Option.some.inj h; simp
    · exact (ih h).trans (by simp)
    · obtain rfl := Option.some.inj h; simp

/-- The fuel of `walk` is enough: the loop is the single pass over the chain. -/
theorem walkFrom_eq_scan (b : Build) (readTs : Composite) (vbs : List VersionBlock) :
    ∀ fuel, vbs.length ≤ fuel →
      walkFrom b readTs fuel (findIndex b readTs.e vbs) = scan b readTs vbs := by
  induction vbs with
  | nil =>
    intro fuel _
    cases fuel <;> rfl
  | cons vb rest ih =>
    intro fuel hf
    obtain ⟨n, rfl⟩ : ∃ n, fuel = n + 1 := ⟨fuel - 1, by simp at hf; omega⟩
    have hn : rest.length ≤ n := by simpa using hf
    have hnext : walkFrom b readTs n (getNext b readTs.e (vb :: rest)) =
        if vb.endsBefore b readTs.e then [] else scan b readTs rest := by
      rw [getNext]
      split_ifs
      · cases n <;> rfl
      · exact ih n hn
    rw [findIndex, scan]
    split_ifs with hts hnil hskip hend
    · rfl
    · rw [walkFrom, hnext, if_pos ‹_›]
    · rw [walkFrom, hnext, if_neg ‹_›]
    · rfl
    · exact ih (n + 1) (by omega)
    · rw [walkFrom, hnext, if_pos ‹_›]
    · rw [walkFrom, hnext, if_neg ‹_›]

theorem walk_eq_scan (b : Build) (readTs : Composite) (vbs : List VersionBlock) :
    walk b readTs vbs = scan b readTs vbs :=
  walkFrom_eq_scan b readTs vbs _ le_rfl

theorem walkFromReads_eq_scanReads (b : Build) (version : Nat) (vbs : List VersionBlock) :
    ∀ fuel, vbs.length ≤ fuel →
      findIndexReads b version vbs ++ walkFromReads b version fuel (findIndex b version vbs) =
        scanReads b version vbs := by
  induction vbs with
  | nil =>
    intro fuel _
    cases fuel <;> rfl
  | cons vb rest ih =>
    intro fuel hf
    obtain ⟨n, rfl⟩ : ∃ n, fuel = n + 1 := ⟨fuel - 1, by simp at hf; omega⟩
    have hn : rest.length ≤ n := by simpa using hf
    have hnext : walkFromReads b version (n + 1) (some (vb :: rest)) =
        if vb.endsBefore b version then [] else scanReads b version rest := by
      rw [walkFromReads, getNext]
      split_ifs
      · cases n <;> rfl
      · exact ih n hn
    rw [findIndexReads, findIndex, scanReads]
    by_cases hts : b = .fineGrain ∧ vb.timestamp = version
    · rw [if_pos hts, if_pos hts]
      by_cases hnil : vb.records = []
      · rw [if_pos hnil, if_pos ⟨hts.1, hts.2, hnil⟩]
        rfl
      · rw [if_neg hnil, if_neg (fun h => hnil h.2.2), hnext]
        rfl
    · have hne : ¬(b = .fineGrain ∧ vb.timestamp = version ∧ vb.records = []) :=
        fun h => hts ⟨h.1, h.2.1⟩
      rw [if_neg hts, if_neg hts, if_neg hne]
      split_ifs with hskip hend
      · rfl
      · rw [List.cons_append, ih (n + 1) (by omega)]
      · rw [hnext, if_pos ‹_›]
        rfl
      · rw [hnext, if_neg ‹_›]
        rfl

theorem walkReads_eq_scanReads (b : Build) (version : Nat) (vbs : List VersionBlock) :
    walkReads b version vbs = scanReads b version vbs :=
  walkFromReads_eq_scanReads b version vbs _ le_rfl

/-- Timestamps decrease strictly to positive values, and `last_epoch_` is the timestamp of
the predecessor, 0 at the end. -/
def Linked : Nat → List VersionBlock → Prop
  | e, [] => e = 0
  | e, vb :: rest => vb.timestamp = e ∧ vb.lastEpoch < e ∧ Linked vb.lastEpoch rest

theorem Linked.le {e : Nat} {vbs : List VersionBlock} (h : Linked e vbs) :
    ∀ vb ∈ vbs, vb.timestamp ≤ e := by
  induction vbs generalizing e with
  | nil => simp
  | cons vb rest ih =>
    obtain ⟨hts, hlt, hrest⟩ := h
    intro w hw
    rcases List.mem_cons.mp hw with rfl | hw
    · exact hts.le
    · exact (ih hrest w hw).trans hlt.le

theorem Linked.pushVB {m : VersionBlockManager} (h : Linked m.endEpoch m.vbs) {b : Build}
    {edgeNum : Int} {nw : VersionBlock} (hlt : m.endEpoch < nw.timestamp) :
    Linked (m.pushVB b edgeNum nw).2.endEpoch (m.pushVB b edgeNum nw).2.vbs :=
  ⟨rfl, hlt, h⟩

/-- A walk that starts in a block not older than its epoch stays in such blocks. -/
theorem walkReads_fineGrain {e version : Nat} {vbs : List VersionBlock} (h : Linked e vbs)
    (hv : version ≤ e) : ∀ vb ∈ walkReads .fineGrain version vbs, version ≤ vb.timestamp := by
  rw [walkReads_eq_scanReads]
  induction vbs generalizing e with
  | nil => simp [scanReads]
  | cons vb rest ih =>
    obtain ⟨rfl, -, hrest⟩ := h
    intro w hw
    simp only [scanReads, VersionBlock.endsBefore, decide_eq_true_eq] at hw
    split_ifs at hw with hts hend
    · obtain rfl : w = vb := by simpa using hw
      exact hv
    · obtain rfl : w = vb := by simpa using hw
      exact hv
    · rcases List.mem_cons.mp hw with rfl | hw
      · exact hv
      · exact ih hrest (by omega) w hw

theorem walkReads_coarse {e version : Nat} {vbs : List VersionBlock} (h : Linked e vbs)
    (hv : version < e) : ∀ vb ∈ walkReads .coarse version vbs, version < vb.timestamp := by
  rw [walkReads_eq_scanReads]
  induction vbs generalizing e with
  | nil => simp [scanReads]
  | cons vb rest ih =>
    obtain ⟨rfl, -, hrest⟩ := h
    intro w hw
    simp only [scanReads, VersionBlock.endsBefore, decide_eq_true_eq, reduceCtorEq,
      false_and, if_false] at hw
    split_ifs at hw with hend
    · obtain rfl : w = vb := by simpa using hw
      exact hv
    · rcases List.mem_cons.mp hw with rfl | hw
      · exact hv
      · exact ih hrest (by omega) w hw

theorem degreeReads_gt {e epoch : Nat} {vbs : List VersionBlock} (h : Linked e vbs) :
    ∀ vb ∈ VersionBlockManager.degreeReads epoch e vbs, epoch < vb.timestamp := by
  induction vbs generalizing e with
  | nil => simp [VersionBlockManager.degreeReads]
  | cons vb rest ih =>
    obtain ⟨rfl, -, hrest⟩ := h
    intro w hw
    rw [VersionBlockManager.degreeReads] at hw
    split_ifs at hw with hlt
    · rcases List.mem_cons.mp hw with rfl | hw
      · exact hlt
      · exact ih hrest w hw
    · simp at hw

end AVBGraph
