import AVBGraph.Vertex.Emission

namespace AVBGraph

open Framework

section Iterator

variable (b : Build) (version : Nat)

/-- The blocks on which the iterator rests, from a position on. -/
def visitedFrom : Nat → Option (List VersionBlock) → List VersionBlock
  | fuel + 1, some (vb :: rest) => vb :: visitedFrom fuel (getNext b version (vb :: rest))
  | _, _ => []

/-- The blocks on which the iterator of a reader rests. -/
def visited (vbs : List VersionBlock) : List VersionBlock :=
  visitedFrom b version vbs.length (findIndex b version vbs)

/-- The iterator after `n` calls of getNext; `none` is its end. -/
def position (vbs : List VersionBlock) : Nat → Option (List VersionBlock)
  | 0 => findIndex b version vbs
  | n + 1 => (position vbs n).bind (getNext b version)

/-- FindIndex and getNext in one pass over the chain. -/
def rests : List VersionBlock → List VersionBlock
  | [] => []
  | vb :: rest =>
    let next := if vb.endsBefore b version then [] else rests rest
    if b = .fineGrain ∧ vb.timestamp = version then
      if vb.records = [] then [] else vb :: next
    else if vb.skipped version then next
    else vb :: next

end Iterator

section Walk

variable {b : Build} {version : Nat} {readTs : Composite}

theorem walkFrom_eq_visited : ∀ fuel o,
    walkFrom b readTs fuel o = (visitedFrom b readTs.e fuel o).flatMap (emitBlock b readTs) := by
  intro fuel
  induction fuel with
  | zero => intro o; cases o <;> rfl
  | succ n ih =>
    intro o
    cases o with
    | none => rfl
    | some vbs =>
      cases vbs with
      | nil => rfl
      | cons vb rest => rw [walkFrom, visitedFrom, List.flatMap_cons, ih]

theorem walk_eq_visited (vbs : List VersionBlock) :
    walk b readTs vbs = (visited b readTs.e vbs).flatMap (emitBlock b readTs) :=
  walkFrom_eq_visited _ _

theorem visitedFrom_eq_rests (vbs : List VersionBlock) : ∀ fuel, vbs.length ≤ fuel →
    visitedFrom b version fuel (findIndex b version vbs) = rests b version vbs := by
  induction vbs with
  | nil =>
    intro fuel _
    cases fuel <;> rfl
  | cons vb rest ih =>
    intro fuel hf
    cases fuel with
    | zero => simp at hf
    | succ n =>
      have hn : rest.length ≤ n := by simpa using hf
      have hnext : visitedFrom b version n (getNext b version (vb :: rest)) =
          if vb.endsBefore b version then [] else rests b version rest := by
        rw [getNext]
        by_cases hend : vb.endsBefore b version = true
        · rw [if_pos hend, if_pos hend]
          cases n <;> rfl
        · rw [if_neg hend, if_neg hend]
          exact ih n hn
      rw [findIndex, rests]
      by_cases hown : b = .fineGrain ∧ vb.timestamp = version
      · rw [if_pos hown, if_pos hown]
        by_cases hnil : vb.records = []
        · rw [if_pos hnil, if_pos hnil]
          rfl
        · rw [if_neg hnil, if_neg hnil, visitedFrom, hnext]
      · rw [if_neg hown, if_neg hown]
        by_cases hskip : vb.skipped version = true
        · rw [if_pos hskip, if_pos hskip]
          by_cases hend : vb.endsBefore b version = true
          · rw [if_pos hend, if_pos hend]
            rfl
          · rw [if_neg hend, if_neg hend]
            exact ih (n + 1) (by omega)
        · rw [if_neg hskip, if_neg hskip, visitedFrom, hnext]

theorem visited_eq_rests (vbs : List VersionBlock) :
    visited b version vbs = rests b version vbs :=
  visitedFrom_eq_rests vbs _ le_rfl

theorem getNext_length {vbs ws : List VersionBlock} (h : getNext b version vbs = some ws) :
    ws.length < vbs.length := by
  cases vbs with
  | nil => cases h
  | cons vb rest =>
    rw [getNext] at h
    by_cases hend : vb.endsBefore b version = true
    · rw [if_pos hend] at h
      cases h
    · rw [if_neg hend] at h
      exact Nat.lt_succ_of_le (findIndex_length h)

/-- Every call of getNext leaves at least one block behind. -/
theorem position_length {vbs ws : List VersionBlock} {n : Nat}
    (h : position b version vbs n = some ws) : ws.length + n ≤ vbs.length := by
  induction n generalizing ws with
  | zero => exact findIndex_length h
  | succ n ih =>
    obtain ⟨us, hus, hws⟩ := Option.bind_eq_some_iff.mp h
    have := ih hus
    have := getNext_length hws
    omega

/-- The iterator ends on every chain. -/
theorem walk_ends (vbs : List VersionBlock) : ∃ n, position b version vbs n = none := by
  apply Exists.intro (vbs.length + 1)
  cases h : position b version vbs (vbs.length + 1) with
  | none => rfl
  | some ws =>
    have := position_length h
    omega

end Walk

section Linked

variable {e version : Nat} {vbs : List VersionBlock}

/-- The FINEGRAIN iterator rests on the blocks of its epoch and above that it does not skip. -/
def restsFine (version : Nat) (vb : VersionBlock) : Bool :=
  if vb.timestamp = version then vb.records ≠ [] else version < vb.timestamp ∧ !vb.skipped version

/-- The AVB_COARSE iterator rests on the blocks above its epoch that it does not skip. -/
def restsCoarse (version : Nat) (vb : VersionBlock) : Bool :=
  version < vb.timestamp ∧ !vb.skipped version

theorem Linked.visited_fineGrain (h : Linked e vbs) (hv : version ≤ e) :
    visited .fineGrain version vbs = vbs.filter (restsFine version) := by
  rw [visited_eq_rests]
  induction vbs generalizing e with
  | nil => rfl
  | cons vb rest ih =>
    obtain ⟨hts, hlast, hrest⟩ := h
    have hle := hrest.le
    have hnext : (if vb.endsBefore .fineGrain version then [] else rests .fineGrain version rest) =
        rest.filter (restsFine version) := by
      by_cases hend : vb.lastEpoch < version
      · rw [if_pos (by simpa [VersionBlock.endsBefore] using hend)]
        symm
        apply List.filter_eq_nil_iff.mpr
        intro w hw
        have := hle w hw
        have hne : w.timestamp ≠ version := by omega
        have hlt : ¬version < w.timestamp := by omega
        simp [restsFine, hne, hlt]
      · rw [if_neg (by simpa [VersionBlock.endsBefore] using hend)]
        exact ih hrest (not_lt.mp hend)
    rw [rests, List.filter_cons, hnext]
    by_cases hown : vb.timestamp = version
    · by_cases hnil : vb.records = []
      · have hno : rest.filter (restsFine version) = [] := by
          apply List.filter_eq_nil_iff.mpr
          intro w hw
          have := hle w hw
          have hne : w.timestamp ≠ version := by omega
          have hlt : ¬version < w.timestamp := by omega
          simp [restsFine, hne, hlt]
        simp [restsFine, hown, hnil, hno]
      · simp [restsFine, hown, hnil]
    · have hlt : version < vb.timestamp := by omega
      by_cases hskip : vb.skipped version = true
      · simp [restsFine, hown, hskip]
      · simp [restsFine, hown, hskip, hlt]

theorem Linked.visited_coarse (h : Linked e vbs) (hv : version < e) :
    visited .coarse version vbs = vbs.filter (restsCoarse version) := by
  rw [visited_eq_rests]
  induction vbs generalizing e with
  | nil => rfl
  | cons vb rest ih =>
    obtain ⟨hts, hlast, hrest⟩ := h
    have hle := hrest.le
    have hnext : (if vb.endsBefore .coarse version then [] else rests .coarse version rest) =
        rest.filter (restsCoarse version) := by
      by_cases hend : vb.lastEpoch ≤ version
      · rw [if_pos (by simpa [VersionBlock.endsBefore] using hend)]
        symm
        apply List.filter_eq_nil_iff.mpr
        intro w hw
        have := hle w hw
        have hlt : ¬version < w.timestamp := by omega
        simp [restsCoarse, hlt]
      · rw [if_neg (by simpa [VersionBlock.endsBefore] using hend)]
        exact ih hrest (not_le.mp hend)
    have hlt : version < vb.timestamp := by omega
    rw [rests, List.filter_cons, hnext, if_neg (by simp)]
    by_cases hskip : vb.skipped version = true
    · simp [restsCoarse, hskip]
    · simp [restsCoarse, hskip, hlt]

end Linked

end AVBGraph
