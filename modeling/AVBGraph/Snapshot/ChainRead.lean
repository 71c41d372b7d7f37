import AVBGraph.Epoch.ReadGuard
import AVBGraph.Vertex.ChainWalk

namespace AVBGraph

open Framework

/-- A chain as PushVB builds it, with records in the order of their creation epochs. -/
structure VersionBlockManager.Ordered (m : VersionBlockManager) : Prop where
  linked : Linked m.endEpoch m.vbs
  stamp_lt : ∀ vb ∈ m.vbs, vb.timestamp < 2 ^ 31
  block_le : ∀ vb ∈ m.vbs, ∀ r ∈ vb.records, r.1.block ≤ vb.timestamp
  sorted : ∀ vb ∈ m.vbs, vb.records.Pairwise fun r q => r.1.block ≤ q.1.block

/-- The records of the blocks above an epoch that were created up to it, newest block first. -/
def VersionBlockManager.older (m : VersionBlockManager) (e : Nat) : List Item :=
  m.vbs.flatMap fun vb => if e < vb.timestamp then vb.records.filter fun r => r.1.block ≤ e else []

section Block

variable {b : Build} {readTs : Composite} {vb : VersionBlock}

/-- The record loop in a block of another epoch finds all records up to the epoch of the reader. -/
theorem emitBlock_other (hne : ¬(b = .fineGrain ∧ vb.timestamp = readTs.e))
    (hlt : ∀ r ∈ vb.records, r.1.block < 2 ^ 31)
    (hsorted : vb.records.Pairwise fun r q => r.1.block ≤ q.1.block) :
    emitBlock b readTs vb = vb.records.filter fun r => r.1.block ≤ readTs.e := by
  have hvis : ∀ r ∈ vb.records, r.1.isVisibleAt readTs.e = decide (r.1.block ≤ readTs.e) := by
    intro r hr
    rw [EdgeWithIndex.isVisibleAt, EdgeWithIndex.getCoarseC, clearTmp_of_lt (hlt r hr)]
  rw [emitBlock, if_neg hne, takeWhile_congr hvis]
  apply takeWhile_eq_filter
  apply hsorted.imp
  intro r q hrq hq
  rw [decide_eq_true_eq] at hq ⊢
  exact hrq.trans hq

/-- A skipped block has no record for the reader. -/
theorem filter_skipped (hsorted : vb.records.Pairwise fun r q => r.1.block ≤ q.1.block) {e : Nat}
    (hskip : vb.skipped e = true) : (vb.records.filter fun r => r.1.block ≤ e) = [] := by
  cases hr : vb.records with
  | nil => rfl
  | cons r rs =>
    rw [hr] at hsorted
    have hfirst : e < r.1.block := by simpa [VersionBlock.skipped, hr] using hskip
    apply List.filter_eq_nil_iff.mpr
    intro q hq
    have hle : r.1.block ≤ q.1.block := by
      rcases List.mem_cons.mp hq with rfl | hq
      · exact le_rfl
      · exact (List.pairwise_cons.mp hsorted).1 q hq
    rw [decide_eq_true_eq]
    omega

/-- At the end of its epoch a reader gets nothing from the block of that epoch. -/
theorem emitBlock_own (hinv : ∀ r ∈ vb.records, r.2.index < intraMax) :
    emitBlock .fineGrain ⟨vb.timestamp, intraMax⟩ vb = [] := by
  rw [emitBlock, if_pos ⟨rfl, rfl⟩]
  cases hr : vb.records with
  | nil => rfl
  | cons r rs =>
    have hlt := hinv r (by simp [hr])
    apply List.takeWhile_cons_of_neg
    intro hvis
    simp only [EdgeWithIndex.isVisibleAtCompositeInv, decide_eq_true_eq] at hvis
    have hle : (⟨vb.timestamp, intraMax⟩ : Composite) ≤ ⟨vb.timestamp, r.2.index⟩ := hvis.2
    simp only [Composite.le_def, Composite.lt_def] at hle
    omega

end Block

namespace VersionBlockManager.Ordered

variable {m : VersionBlockManager} (h : m.Ordered)
include h

theorem block_lt : ∀ vb ∈ m.vbs, ∀ r ∈ vb.records, r.1.block < 2 ^ 31 := by
  intro vb hvb r hr
  exact (h.block_le vb hvb r hr).trans_lt (h.stamp_lt vb hvb)

/-- A record loop over the blocks above an epoch that the iterator does not skip. -/
theorem flatMap_rests {e : Nat} (f : VersionBlock → List Item) (p : VersionBlock → Bool)
    (habove : ∀ vb ∈ m.vbs, e < vb.timestamp → p vb = !vb.skipped e ∧
      f vb = vb.records.filter fun r => r.1.block ≤ e)
    (hbelow : ∀ vb ∈ m.vbs, ¬e < vb.timestamp → p vb = true → f vb = []) :
    (m.vbs.filter p).flatMap f = m.older e := by
  rw [flatMap_filter, VersionBlockManager.older]
  apply List.flatMap_congr
  intro vb hvb
  by_cases hlt : e < vb.timestamp
  · obtain ⟨hp, hf⟩ := habove vb hvb hlt
    rw [if_pos hlt, hf, hp]
    cases hskip : vb.skipped e with
    | true =>
      rw [filter_skipped (h.sorted vb hvb) hskip]
      rfl
    | false => rfl
  · rw [if_neg hlt]
    cases hp : p vb with
    | true => exact hbelow vb hvb hlt hp
    | false => rfl

omit h in
theorem older_of_le {e : Nat} (hle : ∀ vb ∈ m.vbs, vb.timestamp ≤ e) : m.older e = [] := by
  apply List.flatMap_eq_nil_iff.mpr
  intro vb hvb
  rw [if_neg (not_lt.mpr (hle vb hvb))]

end VersionBlockManager.Ordered

namespace VertexEdges

variable {s : VertexEdges}

section Coarse

/-- The walk in the AVB_COARSE build. -/
theorem chainScan_coarse (h : s.vbm.Ordered) (readTs : Composite) :
    s.chainScan .coarse readTs = s.vbm.older readTs.e := by
  rw [chainScan]
  by_cases hlt : readTs.e < s.vbm.endEpoch
  · rw [if_pos hlt, walk_eq_visited, h.linked.visited_coarse hlt]
    apply h.flatMap_rests
    · intro vb hvb hvlt
      constructor
      · simp [restsCoarse, hvlt]
      · exact emitBlock_other (by simp) (h.block_lt vb hvb) (h.sorted vb hvb)
    · intro vb _ hvlt hp
      simp [restsCoarse, hvlt] at hp
  · rw [if_neg hlt]
    symm
    apply VersionBlockManager.Ordered.older_of_le
    intro vb hvb
    exact (h.linked.le vb hvb).trans (not_lt.mp hlt)

/-- The walk of a reader at the end of an epoch in the FINEGRAIN build. -/
theorem chainScan_intraMax (h : s.vbm.Ordered)
    (hinv : ∀ vb ∈ s.vbm.vbs, ∀ r ∈ vb.records, r.2.index < intraMax) (e : Nat) :
    s.chainScan .fineGrain ⟨e, intraMax⟩ = s.vbm.older e := by
  rw [chainScan]
  by_cases hle : e ≤ s.vbm.endEpoch
  · rw [if_pos hle, walk_eq_visited, h.linked.visited_fineGrain hle]
    apply h.flatMap_rests
    · intro vb hvb hvlt
      have hne : vb.timestamp ≠ e := hvlt.ne'
      constructor
      · simp [restsFine, hne, hvlt]
      · exact emitBlock_other (fun hown => hne hown.2) (h.block_lt vb hvb) (h.sorted vb hvb)
    · intro vb hvb hvlt hp
      -- only the block of the own epoch is left, and it shows nothing
      by_cases hts : vb.timestamp = e
      · rw [← hts]
        exact emitBlock_own (hinv vb hvb)
      · simp [restsFine, hts, hvlt] at hp
  · rw [if_neg hle]
    symm
    apply VersionBlockManager.Ordered.older_of_le
    intro vb hvb
    exact (h.linked.le vb hvb).trans (not_le.mp hle).le

/-- A reader at the end of an epoch walks the chain alike in both builds. -/
theorem coarse_readers_agree (h : s.vbm.Ordered)
    (hinv : ∀ vb ∈ s.vbm.vbs, ∀ r ∈ vb.records, r.2.index < intraMax) (e i : Nat) :
    s.chainScan .fineGrain ⟨e, intraMax⟩ = s.chainScan .coarse ⟨e, i⟩ ∧
      s.chainScan .coarse ⟨e, i⟩ = s.vbm.older e ∧
      ∀ b, (∃ n, position b e s.vbm.vbs n = none) ∧
        ∀ vb ∈ ReadGuard.chainReads b e s.vbm, e ≤ vb.timestamp := by
  have hcoarse := chainScan_coarse h ⟨e, i⟩
  refine ⟨(chainScan_intraMax h hinv e).trans hcoarse.symm, hcoarse, ?_⟩
  intro b
  constructor
  · exact walk_ends s.vbm.vbs
  · intro vb hvb
    cases b with
    | fineGrain =>
      rw [ReadGuard.chainReads] at hvb
      by_cases hle : e ≤ s.vbm.endEpoch
      · rw [if_pos hle] at hvb
        exact walkReads_fineGrain h.linked hle vb hvb
      · rw [if_neg hle] at hvb
        cases hvb
    | coarse =>
      rw [ReadGuard.chainReads] at hvb
      by_cases hlt : e < s.vbm.endEpoch
      · rw [if_pos hlt] at hvb
        exact (walkReads_coarse h.linked hlt vb hvb).le
      · rw [if_neg hlt] at hvb
        cases hvb

end Coarse

section Newer

/-- The part of for_each_edge that walks the blocks above the epoch of the reader. -/
def newerScan (s : VertexEdges) (readTs : Composite) : List Item :=
  if readTs.e ≤ s.vbm.endEpoch then
    ((visited .fineGrain readTs.e s.vbm.vbs).filter fun vb => readTs.e < vb.timestamp).flatMap
      (emitBlock .fineGrain readTs)
  else []

/-- In the blocks above its epoch a reader gets every record created up to its epoch. -/
theorem newerScan_eq (h : s.vbm.Ordered) (readTs : Composite) :
    s.newerScan readTs = s.vbm.older readTs.e := by
  rw [newerScan]
  by_cases hle : readTs.e ≤ s.vbm.endEpoch
  · rw [if_pos hle, h.linked.visited_fineGrain hle, List.filter_filter]
    apply h.flatMap_rests
    · intro vb hvb hvlt
      have hne : vb.timestamp ≠ readTs.e := hvlt.ne'
      constructor
      · simp [restsFine, hne, hvlt]
      · exact emitBlock_other (fun hown => hne hown.2) (h.block_lt vb hvb) (h.sorted vb hvb)
    · intro vb _ hvlt hp
      simp [hvlt] at hp
  · rw [if_neg hle]
    symm
    apply VersionBlockManager.Ordered.older_of_le
    intro vb hvb
    exact (h.linked.le vb hvb).trans (not_le.mp hle).le

/-- The walk above the epoch of the reader filters by creation time if and only if these blocks
hold no record that was created in the reader's epoch at its own time or later. -/
theorem newerScan_composite_iff (h : s.vbm.Ordered) (readTs : Composite) :
    s.newerScan readTs = (s.vbm.vbs.flatMap fun vb =>
        if readTs.e < vb.timestamp then vb.records.filter fun r => r.1.creation < readTs else []) ↔
      ∀ vb ∈ s.vbm.vbs, readTs.e < vb.timestamp → ∀ r ∈ vb.records,
        r.1.creation.e = readTs.e → r.1.creation.i < readTs.i := by
  have hblock : ∀ vb ∈ s.vbm.vbs, ∀ r ∈ vb.records, r.1.creation.e = r.1.block := by
    intro vb hvb r hr
    exact clearTmp_of_lt (h.block_lt vb hvb r hr)
  have himp : ∀ vb ∈ s.vbm.vbs, ∀ r ∈ vb.records, r.1.creation < readTs → r.1.block ≤ readTs.e := by
    intro vb hvb r hr hlt
    rw [← hblock vb hvb r hr]
    rcases hlt with hlt | heq
    · exact hlt.le
    · exact heq.1.le
  rw [newerScan_eq h, VersionBlockManager.older, flatMap_eq_iff_of_sublist]
  · apply forall₂_congr
    intro vb hvb
    by_cases hlt : readTs.e < vb.timestamp
    · rw [if_pos hlt, if_pos hlt, filter_eq_filter_iff]
      constructor
      · intro heq _ r hr he
        have hr' := heq r hr
        rw [decide_eq_decide, ← hblock vb hvb r hr] at hr'
        have hc : r.1.creation < readTs := hr'.mp he.le
        rcases hc with hc | hc
        · omega
        · exact hc.2
      · intro hall r hr
        rw [decide_eq_decide]
        constructor
        · intro hle
          rw [← hblock vb hvb r hr] at hle
          rcases hle.lt_or_eq with hc | hc
          · exact Or.inl hc
          · exact Or.inr ⟨hc, hall hlt r hr hc⟩
        · exact himp vb hvb r hr
    · rw [if_neg hlt, if_neg hlt]
      simp [hlt]
  · intro vb hvb
    by_cases hlt : readTs.e < vb.timestamp
    · rw [if_pos hlt, if_pos hlt]
      have hagain : (vb.records.filter fun r => r.1.creation < readTs) =
          (vb.records.filter fun r => r.1.block ≤ readTs.e).filter fun r => r.1.creation < readTs := by
        rw [List.filter_filter]
        apply List.filter_congr
        intro r hr
        by_cases hc : r.1.creation < readTs
        · simp [hc, himp vb hvb r hr hc]
        · simp [hc]
      rw [hagain]
      exact List.filter_sublist
    · rw [if_neg hlt, if_neg hlt]

end Newer

section Reader

/-- The epochs 2 and 3 are published; block 3 holds the version of destination 1 that was created
at time 5 of epoch 2. -/
def overwritten : VertexEdges :=
  { build [1] [4] (fun _ => ⟨0, 0, 0⟩) fun _ => ⟨0, 0, 0⟩ with
    vbm := ⟨3, [⟨2, 3, 2, 1, [(⟨1, 2, 5⟩, ⟨4, 0, 1⟩)]⟩, ⟨1, 2, 0, 1, []⟩], fun _ => false, []⟩ }

theorem ordered_overwritten : overwritten.vbm.Ordered where
  linked := ⟨rfl, by decide, rfl, by decide, rfl⟩
  stamp_lt := by decide
  block_le := by decide
  sorted := by decide

/-- A reader at the end of epoch 2 gets the record of block 3 in both builds. -/
theorem overwritten_agrees : overwritten.chainScan .coarse ⟨2, 0⟩ = [(⟨1, 2, 5⟩, ⟨4, 0, 1⟩)] :=
  (coarse_readers_agree ordered_overwritten (by decide) 2 0).2.1.trans (by decide)

/-- A reader later in epoch 2 than the version gets the record. -/
theorem overwritten_shown : overwritten.newerScan ⟨2, 6⟩ = overwritten.vbm.vbs.flatMap fun vb =>
    if 2 < vb.timestamp then vb.records.filter fun r => r.1.creation < ⟨2, 6⟩ else [] :=
  (newerScan_composite_iff ordered_overwritten ⟨2, 6⟩).mpr (by decide)

/-- A reader at time 3 of epoch 2 gets the version of time 5. -/
theorem overwritten_too_early : overwritten.vbm.Ordered ∧
    overwritten.newerScan ⟨2, 3⟩ = [(⟨1, 2, 5⟩, ⟨4, 0, 1⟩)] ∧
    ¬(⟨2, 5⟩ : Composite) < ⟨2, 3⟩ ∧
    overwritten.newerScan ⟨2, 3⟩ ≠ overwritten.vbm.vbs.flatMap fun vb =>
      if 2 < vb.timestamp then vb.records.filter fun r => r.1.creation < ⟨2, 3⟩ else [] :=
  ⟨ordered_overwritten, by decide, by decide, by decide⟩

end Reader

end VertexEdges

end AVBGraph
