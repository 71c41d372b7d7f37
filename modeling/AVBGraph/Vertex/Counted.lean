import AVBGraph.Vertex.ChainWalk
import AVBGraph.Vertex.History

namespace AVBGraph

open Framework

/-- FindIndex with statistics: the calls of reach_record and the chain from the block it
rests on. Its loop has neither the own epoch test nor the FINEGRAIN stop test. -/
def findIndexCounted (version : Nat) : List VersionBlock → Nat × Option (List VersionBlock)
  | [] => (0, none)
  | vb :: rest =>
    if vb.skipped version then
      if vb.lastEpoch ≤ version then (1, none)
      else
        let r := findIndexCounted version rest
        (r.1 + 1, r.2)
    else (1, some (vb :: rest))

/-- The iterator loop of for_each_edge with statistics; getNext is called without them. -/
def walkFromCounted (b : Build) (readTs : Composite) :
    Nat → Option (List VersionBlock) → Nat × List Item
  | fuel + 1, some (vb :: rest) =>
    let out := emitBlock b readTs vb
    let r := walkFromCounted b readTs fuel (getNext b readTs.e (vb :: rest))
    (if b = .fineGrain ∧ vb.timestamp = readTs.e then (r.1 + out.length, out ++ r.2)
      else (r.1, out ++ r.2))
  | _, _ => (0, [])

def walkCounted (b : Build) (readTs : Composite) (vbs : List VersionBlock) : Nat × List Item :=
  let r := findIndexCounted readTs.e vbs
  let w := walkFromCounted b readTs vbs.length r.2
  (r.1 + w.1, w.2)

namespace VertexEdges

def chainScanCounted (b : Build) (s : VertexEdges) (readTs : Composite) : Nat × List Item :=
  match b with
  | .fineGrain =>
    if readTs.e ≤ s.vbm.endEpoch then walkCounted .fineGrain readTs s.vbm.vbs else (0, [])
  | .coarse =>
    if readTs.e < s.vbm.endEpoch then walkCounted .coarse readTs s.vbm.vbs else (0, [])

/-- for_each_edge with a counter: its final record_cnt and the edges handed to the callback. -/
def forEachEdgeCounted (b : Build) (s : VertexEdges) (readTs : Composite) :
    Nat × List EdgeWithIndex :=
  let r := s.chainScanCounted b readTs
  (r.1, (s.items.filter (visible b readTs) ++
    (if b = .fineGrain then s.scanTvbs readTs else []) ++ r.2).map Prod.fst)

end VertexEdges

/-- The block of the reader's epoch holds a version for the reader, and the counted search
passes it: no block above it holds a record for that epoch, and there is such a block or the
first record of the own block is not of that epoch either. -/
def OwnBlockPassed (readTs : Composite) (vbs : List VersionBlock) : Prop :=
  ∃ later own rest, vbs = later ++ own :: rest ∧ own.timestamp = readTs.e ∧
    (∀ vb ∈ later, vb.skipped readTs.e = true) ∧
    (later ≠ [] ∨ own.skipped readTs.e = true) ∧
    ∃ r ∈ own.records.head?, r.1.isVisibleAtCompositeInv readTs ⟨readTs.e, r.2.index⟩ = true

instance decidableLinked : ∀ e vbs, Decidable (Linked e vbs)
  | e, [] => inferInstanceAs (Decidable (e = 0))
  | e, vb :: rest =>
    have := decidableLinked vb.lastEpoch rest
    inferInstanceAs (Decidable (vb.timestamp = e ∧ vb.lastEpoch < e ∧ Linked vb.lastEpoch rest))

section Position

variable {e version : Nat} {later vbs rest : List VersionBlock} {own : VersionBlock}

/-- The uncounted search rests on the block of its epoch when it skips the blocks above. -/
theorem findIndex_own (h : Linked e (later ++ own :: rest)) (hown : own.timestamp = version)
    (hskip : ∀ vb ∈ later, vb.skipped version = true) :
    findIndex .fineGrain version (later ++ own :: rest) =
      if own.records = [] then none else some (own :: rest) := by
  induction later generalizing e with
  | nil => rw [List.nil_append, findIndex, if_pos ⟨rfl, hown⟩]
  | cons vb later ih =>
    obtain ⟨hts, hlast, hrest⟩ := h
    have hle : own.timestamp ≤ vb.lastEpoch := hrest.le own (by simp)
    have hne : ¬(Build.fineGrain = .fineGrain ∧ vb.timestamp = version) := by
      rintro ⟨-, hvb⟩
      omega
    have hend : ¬vb.endsBefore .fineGrain version = true := by
      simp only [VersionBlock.endsBefore, decide_eq_true_eq]
      omega
    rw [List.cons_append, findIndex, if_neg hne, if_pos (hskip vb (by simp)), if_neg hend]
    exact ih hrest fun w hw => hskip w (by simp [hw])

/-- The counted search ends at the latest in the block that leads to the own block. -/
theorem findIndexCounted_own (h : Linked e (later ++ own :: rest))
    (hown : own.timestamp = version) (hskip : ∀ vb ∈ later, vb.skipped version = true)
    (hpass : later ≠ [] ∨ own.skipped version = true) :
    (findIndexCounted version (later ++ own :: rest)).2 = none := by
  induction later generalizing e with
  | nil =>
    have hskip : own.skipped version = true := hpass.resolve_left (fun hne => hne rfl)
    have hlast : own.lastEpoch ≤ version := by
      obtain ⟨hts, hlt, -⟩ := h
      omega
    rw [List.nil_append, findIndexCounted, if_pos hskip, if_pos hlast]
  | cons vb later ih =>
    obtain ⟨hts, hlt, hrest⟩ := h
    rw [List.cons_append, findIndexCounted, if_pos (hskip vb (by simp))]
    by_cases hlast : vb.lastEpoch ≤ version
    · rw [if_pos hlast]
    · rw [if_neg hlast]
      apply ih hrest (fun w hw => hskip w (by simp [hw]))
      apply Or.inl
      rintro rfl
      have hvb : own.timestamp = vb.lastEpoch := hrest.1
      omega

/-- Elsewhere the two searches rest on the same block. -/
theorem findIndexCounted_eq (h : Linked e vbs)
    (hno : ∀ later own rest, vbs = later ++ own :: rest → own.timestamp = version →
      (∀ vb ∈ later, vb.skipped version = true) →
        ¬(later ≠ [] ∨ own.skipped version = true)) :
    (findIndexCounted version vbs).2 = findIndex .fineGrain version vbs := by
  induction vbs generalizing e with
  | nil => rfl
  | cons vb rest ih =>
    obtain ⟨hts, hlt, hrest⟩ := h
    rw [findIndexCounted, findIndex]
    by_cases hown : vb.timestamp = version
    · have hnot : ¬vb.skipped version = true := by
        intro hskip
        exact hno [] vb rest rfl hown (by simp) (Or.inr hskip)
      have hrec : vb.records ≠ [] := by
        intro hnil
        exact hnot (by simp [VersionBlock.skipped, hnil])
      rw [if_neg hnot, if_pos ⟨rfl, hown⟩, if_neg hrec]
    · rw [if_neg (fun hand : Build.fineGrain = .fineGrain ∧ _ => hown hand.2)]
      by_cases hskip : vb.skipped version = true
      · rw [if_pos hskip, if_pos hskip]
        simp only [VersionBlock.endsBefore, decide_eq_true_eq]
        rcases lt_trichotomy vb.lastEpoch version with hlast | hlast | hlast
        · rw [if_pos hlast.le, if_pos hlast]
        · rw [if_pos hlast.le, if_neg hlast.not_lt]
          cases rest with
          | nil => rfl
          | cons own rest =>
            exfalso
            exact hno [vb] own rest rfl (hrest.1.trans hlast) (by simp [hskip]) (Or.inl (by simp))
        · rw [if_neg hlast.not_ge, if_neg hlast.not_gt]
          apply ih hrest
          intro later own rest' hsplit hts' hskip' hpass
          exact hno (vb :: later) own rest' (by rw [hsplit, List.cons_append]) hts'
            (List.forall_mem_cons.mpr ⟨hskip, hskip'⟩) (Or.inl (by simp))
      · rw [if_neg hskip, if_neg hskip]

theorem findIndexCounted_coarse (version : Nat) (vbs : List VersionBlock) :
    (findIndexCounted version vbs).2 = findIndex .coarse version vbs := by
  induction vbs with
  | nil => rfl
  | cons vb rest ih =>
    have hne : ¬(Build.coarse = .fineGrain ∧ vb.timestamp = version) := by simp
    rw [findIndexCounted, findIndex, if_neg hne]
    simp only [VersionBlock.endsBefore, decide_eq_true_eq]
    split_ifs
    · rfl
    · exact ih
    · rfl

end Position

section Walk

variable {b : Build} {readTs : Composite} {e : Nat} {vbs : List VersionBlock}

theorem walkFromCounted_snd : ∀ fuel o,
    (walkFromCounted b readTs fuel o).2 = walkFrom b readTs fuel o := by
  intro fuel
  induction fuel with
  | zero => intro o; cases o <;> rfl
  | succ n ih =>
    intro o
    cases o with
    | none => rfl
    | some vbs =>
      cases vbs with
      | nil => rfl
      | cons vb rest =>
        rw [walkFromCounted, walkFrom, ← ih]
        split_ifs <;> rfl

theorem walkCounted_snd : (walkCounted b readTs vbs).2 =
    walkFrom b readTs vbs.length (findIndexCounted readTs.e vbs).2 :=
  walkFromCounted_snd _ _

/-- The own block is the last one of a walk. -/
theorem walkFrom_own {own : VersionBlock} {rest : List VersionBlock} {fuel : Nat}
    (hown : own.timestamp = readTs.e) (hlast : own.lastEpoch < own.timestamp) :
    walkFrom .fineGrain readTs (fuel + 1) (some (own :: rest)) =
      emitBlock .fineGrain readTs own := by
  have hend : own.endsBefore .fineGrain readTs.e = true := by
    simp only [VersionBlock.endsBefore, decide_eq_true_eq]
    omega
  rw [walkFrom, getNext, if_pos hend]
  cases fuel <;> simp [walkFrom]

theorem Linked.mid {later rest : List VersionBlock} {own : VersionBlock}
    (h : Linked e (later ++ own :: rest)) : own.lastEpoch < own.timestamp := by
  induction later generalizing e with
  | nil => exact h.1 ▸ h.2.1
  | cons vb later ih => exact ih h.2.2

/-- What the own block hands out starts with its first record or is empty. -/
theorem emitBlock_own_ne_nil {own : VersionBlock} (hown : own.timestamp = readTs.e) :
    emitBlock .fineGrain readTs own ≠ [] ↔ ∃ r ∈ own.records.head?,
      r.1.isVisibleAtCompositeInv readTs ⟨readTs.e, r.2.index⟩ = true := by
  rw [emitBlock, if_pos ⟨rfl, hown⟩]
  cases own.records with
  | nil => simp
  | cons r rs => simp [List.takeWhile_cons]

/-- When the own block is passed, the counted walk hands out nothing and the other one the
records of that block. -/
theorem walkCounted_passed (h : Linked e vbs) (hpassed : OwnBlockPassed readTs vbs) :
    (walkCounted .fineGrain readTs vbs).2 = [] ∧ walk .fineGrain readTs vbs ≠ [] := by
  obtain ⟨later, own, rest, rfl, hown, hskip, hpass, hvis⟩ := hpassed
  have hrec : own.records ≠ [] := by
    intro hnil
    simp [hnil] at hvis
  have hlen : (later ++ own :: rest).length = later.length + rest.length + 1 := by
    simp [Nat.add_assoc]
  constructor
  · rw [walkCounted_snd, findIndexCounted_own h hown hskip hpass, hlen]
    rfl
  · rw [walk, findIndex_own h hown hskip, if_neg hrec, hlen, walkFrom_own hown h.mid]
    exact (emitBlock_own_ne_nil hown).mpr hvis

theorem walkCounted_eq (h : Linked e vbs) (hno : ¬OwnBlockPassed readTs vbs) :
    (walkCounted .fineGrain readTs vbs).2 = walk .fineGrain readTs vbs := by
  rw [walkCounted_snd, walk]
  by_cases hsplit : ∃ later own rest, vbs = later ++ own :: rest ∧ own.timestamp = readTs.e ∧
      (∀ vb ∈ later, vb.skipped readTs.e = true) ∧ (later ≠ [] ∨ own.skipped readTs.e = true)
  · -- both walks are empty: the first record of the own block is not for the reader
    obtain ⟨later, own, rest, rfl, hown, hskip, hpass⟩ := hsplit
    have hnil : emitBlock .fineGrain readTs own = [] := by
      by_contra hne
      exact hno ⟨later, own, rest, rfl, hown, hskip, hpass, (emitBlock_own_ne_nil hown).mp hne⟩
    have hlen : (later ++ own :: rest).length = later.length + rest.length + 1 := by
      simp [Nat.add_assoc]
    rw [findIndexCounted_own h hown hskip hpass, findIndex_own h hown hskip, hlen]
    split_ifs
    · rfl
    · rw [walkFrom_own hown h.mid, hnil]
      rfl
  · rw [findIndexCounted_eq h]
    intro later own rest heq hown hskip hpass
    exact hsplit ⟨later, own, rest, heq, hown, hskip, hpass⟩

theorem walkCounted_coarse :
    (walkCounted .coarse readTs vbs).2 = walk .coarse readTs vbs := by
  rw [walkCounted_snd, findIndexCounted_coarse, walk]

end Walk

namespace VertexEdges

variable {s : VertexEdges} {readTs : Composite}

/-- With statistics the scan hands out the same edges, in the same order, exactly when the
search for the first block does not pass the block of the reader's epoch. -/
theorem forEachEdgeCounted_iff (h : Linked s.vbm.endEpoch s.vbm.vbs) :
    (s.forEachEdgeCounted .fineGrain readTs).2 = s.forEachEdge .fineGrain readTs ↔
      ¬OwnBlockPassed readTs s.vbm.vbs := by
  rw [forEachEdgeCounted, forEachEdge, forEachEdgeWithProperty]
  simp only [List.map_append, List.append_cancel_left_eq, chainScanCounted, chainScan]
  by_cases hle : readTs.e ≤ s.vbm.endEpoch
  · rw [if_pos hle, if_pos hle]
    constructor
    · intro heq hpassed
      obtain ⟨hnil, hne⟩ := walkCounted_passed h hpassed
      rw [hnil, List.map_nil, eq_comm, List.map_eq_nil_iff] at heq
      exact hne heq
    · intro hno
      rw [walkCounted_eq h hno]
  · rw [if_neg hle, if_neg hle]
    apply iff_of_true rfl
    rintro ⟨later, own, rest, hvbs, hown, -⟩
    have hmem : own ∈ s.vbm.vbs := by simp [hvbs]
    have := h.le own hmem
    omega

/-- Two published versions of edge 7 and a later insertion of edge 8. -/
def rewrittenSeven : List Op :=
  [.insert History.freshEnv ⟨7, 4, 1, ⟨true, 0, 1, 0⟩,
     Write.seven_lt, Nat.one_pos, Write.one_lt_epoch⟩,
    .transform 1 100,
    .insert History.freshEnv ⟨7, 5, 2, ⟨true, 0, 5, 0⟩,
      Write.seven_lt, Nat.two_pos, Write.two_lt_epoch⟩,
    .transform 2 200,
    .insert History.freshEnv ⟨8, 6, 3, ⟨true, 0, 1, 0⟩,
      Write.eight_lt, Write.three_pos, Write.three_lt_epoch⟩,
    .transform 3 300]

/-- A reader in epoch 2, before the overwrite: with statistics edge 7 is lost. -/
theorem forEachEdgeCounted_lost : ∃ h,
    exec (History.step .fineGrain .stable) History.fresh rewrittenSeven = some h ∧
      Linked h.state.vbm.endEpoch h.state.vbm.vbs ∧
      h.state.forEachEdge .fineGrain ⟨2, 3⟩ = [⟨7, 1, 1⟩] ∧
      (h.state.forEachEdgeCounted .fineGrain ⟨2, 3⟩).2 = [] := by
  apply exists_exec
  decide +kernel

/-- At that reader the block of epoch 2 is passed. -/
theorem forEachEdgeCounted_iff_seven : ∃ h,
    exec (History.step .fineGrain .stable) History.fresh rewrittenSeven = some h ∧
      ((h.state.forEachEdgeCounted .fineGrain ⟨2, 3⟩).2 = h.state.forEachEdge .fineGrain ⟨2, 3⟩ ↔
        ¬OwnBlockPassed ⟨2, 3⟩ h.state.vbm.vbs) := by
  obtain ⟨h, hrun, hlinked⟩ : ∃ h,
      exec (History.step .fineGrain .stable) History.fresh rewrittenSeven = some h ∧
        Linked h.state.vbm.endEpoch h.state.vbm.vbs := by
    apply exists_exec
    decide +kernel
  exact ⟨h, hrun, forEachEdgeCounted_iff hlinked⟩

/-- In the AVB_COARSE build both loops are the same. -/
theorem forEachEdgeCounted_coarse :
    (s.forEachEdgeCounted .coarse readTs).2 = s.forEachEdge .coarse readTs := by
  have hchain : (s.chainScanCounted .coarse readTs).2 = s.chainScan .coarse readTs := by
    simp only [chainScanCounted, chainScan]
    split_ifs
    · exact walkCounted_coarse
    · rfl
  rw [forEachEdgeCounted, forEachEdge, forEachEdgeWithProperty, ← hchain]

end VertexEdges

end AVBGraph
