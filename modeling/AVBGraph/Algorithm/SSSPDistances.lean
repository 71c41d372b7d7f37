import AVBGraph.Algorithm.SSSPRounds
import Mathlib.Algebra.Order.BigOperators.Group.Finset
import Mathlib.Tactic.Ring

namespace AVBGraph.SSSP

open Framework Function

variable {max_vid team : Nat} {edges : Edges max_vid} {delta : ℚ} {source : Fin max_vid}

/-! ### Every step uses up work -/

/-- The moves that a thread at this place has left in its round, as long as no distance changes;
in the last round it leaves the loop. -/
def Position.cost (edges : Edges max_vid) (last : Bool) (d : Fin max_vid → WithTop ℚ) :
    Position max_vid → Nat
  | .finished => 0
  | .loop => if last then 1 else 8
  | .lastBarrier => 2
  | .copy => 3
  | .single => 4
  | .barrier => 5
  | .bins => 6
  | .next => 7
  | .entry u => 9 + 5 * (edges u).length
  | .edges _ rest => 8 + 5 * rest.length
  | .relax _ _ _ rest _ => 12 + 5 * rest.length
  -- a comparison with the present distance succeeds
  | .swap _ v rest old_dist _ => 8 + 5 * rest.length + if d v = old_dist then 1 else 3
  | .reload _ _ rest _ => 10 + 5 * rest.length

/-- A bound for the work on an entry of the frontier. -/
def claimCost (edges : Edges max_vid) : Nat := 5 * numEdges edges + 3

/-- An entry that waits also pays for a round of all threads. -/
def entryCost (edges : Edges max_vid) (team : Nat) : Nat := claimCost edges + 8 * team

def cost (edges : Edges max_vid) (n : Nat) (s : State max_vid team) (t : Fin team) : Nat :=
  (s.threads t).pc.cost edges (decide (s.shared_indexes n.bodd = ⊤)) s.distances

/-- The work that is left in a state of round `n`. -/
def work (edges : Edges max_vid) (n : Nat) (s : State max_vid team) : Nat :=
  entryCost edges team *
      (∑ t, entries (s.threads t).local_bins + s.frontier_tails (!n.bodd)) +
    claimCost edges * s.unclaimed.length + ∑ t, cost edges n s t

theorem length_edges_le (edges : Edges max_vid) (u : Fin max_vid) :
    (edges u).length ≤ numEdges edges :=
  List.le_sum_of_mem (List.mem_map_of_mem (List.mem_finRange u))

theorem Moves.cost_lt {s : State max_vid team} {t : Fin team} {pc pc' : Position max_vid}
    {last : Bool} (hlast : last = decide (s.shared_indexes (s.threads t).iter.bodd = ⊤))
    (hm : Moves edges delta s t pc pc') :
    pc'.cost edges last s.distances < pc.cost edges last s.distances := by
  cases hm with
  | enter hne => simp [Position.cost, hlast, hne]
  | leave htop => simp [Position.cost, hlast, htop]
  | load u v w rest =>
    simp only [Position.cost, List.length_cons]
    omega
  | shorter u v w rest =>
    simp only [Position.cost]
    split <;> omega
  | fail u v rest hne =>
    simp only [Position.cost, if_neg hne]
    omega
  | retry u v rest =>
    simp only [Position.cost, if_true]
    omega
  | _ =>
    simp only [Position.cost]
    omega

/-- Only the thread `t` works. -/
theorem work_lt_of_cost {n : Nat} {s s' : State max_vid team} (t : Fin team)
    (hbins : ∀ t, (s'.threads t).local_bins = (s.threads t).local_bins)
    (htails : s'.frontier_tails (!n.bodd) = s.frontier_tails (!n.bodd))
    (hunclaimed : s'.unclaimed = s.unclaimed)
    (hle : ∀ t', t' ≠ t → cost edges n s' t' ≤ cost edges n s t')
    (hlt : cost edges n s' t < cost edges n s t) : work edges n s' < work edges n s := by
  have hsum : ∑ t, cost edges n s' t < ∑ t, cost edges n s t := by
    refine Finset.sum_lt_sum (fun t' _ => ?_) ⟨t, Finset.mem_univ t, hlt⟩
    rcases eq_or_ne t' t with rfl | hne
    · exact hlt.le
    · exact hle t' hne
  simp only [work, hbins, htails, hunclaimed]
  omega

theorem Position.cost_true_le (last : Bool) (d : Fin max_vid → WithTop ℚ) (pc : Position max_vid) :
    pc.cost edges true d ≤ pc.cost edges last d := by
  cases pc with
  | loop => cases last <;> simp [cost]
  | _ => exact le_refl _

section Cost

variable {n : Nat} {s : State max_vid team} {t t' : Fin team}

theorem cost_goto_self (pc : Position max_vid) : cost edges n (s.goto t pc) t =
    pc.cost edges (decide (s.shared_indexes n.bodd = ⊤)) s.distances := by
  rw [cost, goto_pc_self]
  rfl

theorem cost_goto_of_ne (pc : Position max_vid) (h : t' ≠ t) :
    cost edges n (s.goto t pc) t' = cost edges n s t' := by
  rw [cost, goto_threads_of_ne s t pc h]
  rfl

theorem cost_of_pc {pc : Position max_vid} (hpc : (s.threads t).pc = pc) : cost edges n s t =
    pc.cost edges (decide (s.shared_indexes n.bodd = ⊤)) s.distances := by rw [cost, hpc]

theorem work_goto_lt {pc : Position max_vid}
    (hlt : pc.cost edges (decide (s.shared_indexes n.bodd = ⊤)) s.distances < cost edges n s t) :
    work edges n (s.goto t pc) < work edges n s := by
  refine work_lt_of_cost t (goto_local_bins s t pc) rfl rfl ?_ ?_
  · exact fun t' hne => (cost_goto_of_ne pc hne).le
  · rwa [cost_goto_self]

/-- An entry that a thread takes over pays for its scan. -/
theorem work_claim_lt {i : Nat} (hpc : (s.threads t).pc = .next) (hi : i ∈ s.unclaimed) :
    work edges n
      ({ s with unclaimed := s.unclaimed.erase i }.goto t (.entry (s.frontier i))) <
        work edges n s := by
  have hsum : ∑ t', cost edges n
        ({ s with unclaimed := s.unclaimed.erase i }.goto t (.entry (s.frontier i))) t' + 7 =
      ∑ t', cost edges n s t' + (9 + 5 * (edges (s.frontier i)).length) := by
    have hself : cost edges n
        ({ s with unclaimed := s.unclaimed.erase i }.goto t (.entry (s.frontier i))) t =
        9 + 5 * (edges (s.frontier i)).length := cost_goto_self _
    rw [← hself, show 7 = cost edges n s t from (cost_of_pc hpc).symm]
    exact sum_add_of_eq_off fun t' hne => cost_goto_of_ne _ hne
  have hlen := List.length_erase_add_one hi
  have hdeg := length_edges_le edges (s.frontier i)
  simp only [work, goto_local_bins, goto_frontier_tails, goto_unclaimed, claimCost] at hsum ⊢
  rw [← hlen, Nat.mul_add _ (s.unclaimed.erase i).length]
  omega

theorem work_lowerNext_lt {i : Nat} (hiter : (s.threads t).iter = n)
    (hpc : (s.threads t).pc = .bins) :
    work edges n ((s.lowerNext t i).goto t .barrier) < work edges n s := by
  have hshared : (s.lowerNext t i).shared_indexes n.bodd = s.shared_indexes n.bodd := by
    simp only [State.lowerNext, hiter]
    exact update_of_ne (by simp) _ _
  have hcost (t' : Fin team) : cost edges n (s.lowerNext t i) t' = cost edges n s t' := by
    rw [cost, hshared]
    rfl
  have hwork : work edges n (s.lowerNext t i) = work edges n s := by
    simp only [work, hcost]
    rfl
  rw [← hwork]
  refine work_goto_lt ?_
  rw [hcost, cost_of_pc hpc]
  exact Nat.lt_succ_self 5

theorem work_openBarrier_lt (t : Fin team) (hall : ∀ t, (s.threads t).pc = .barrier) :
    work edges n s.openBarrier < work edges n s := by
  have hlt (t : Fin team) : cost edges n s.openBarrier t < cost edges n s t := by
    rw [cost_of_pc (hall t)]
    exact Nat.lt_succ_self 4
  exact work_lt_of_cost t (fun _ => rfl) rfl rfl (fun t' _ => (hlt t').le) (hlt t)

theorem work_reset_lt (hiter : (s.threads t).iter = n) (hpc : (s.threads t).pc = .single) :
    work edges n ((s.reset t).goto t .copy) < work edges n s := by
  have hshared : (s.reset t).shared_indexes n.bodd = ⊤ := by
    simp only [State.reset, hiter, update_self]
  have htails : (s.reset t).frontier_tails (!n.bodd) = s.frontier_tails (!n.bodd) := by
    simp only [State.reset, hiter]
    exact update_of_ne (by simp) _ _
  refine work_lt_of_cost t (goto_local_bins _ t _) htails rfl (fun t' hne => ?_) ?_
  · rw [cost_goto_of_ne _ hne, cost, hshared]
    exact Position.cost_true_le _ _ _
  · rw [cost_goto_self, cost_of_pc hpc]
    exact Nat.lt_succ_self 3

/-- The entries of a bin keep their cost on the way to the frontier. -/
theorem work_moveBin (hiter : (s.threads t).iter = n) (b : Nat) :
    work edges n (s.moveBin t b) = work edges n s := by
  have hcost (t' : Fin team) : cost edges n (s.moveBin t b) t' = cost edges n s t' := by
    have hpc : ((s.moveBin t b).threads t').pc = (s.threads t').pc := by
      rcases eq_or_ne t' t with rfl | hne
      · simp [State.moveBin, State.setThread]
      · simp [State.moveBin, State.setThread, hne]
    rw [cost, hpc]
    rfl
  have htails : (s.moveBin t b).frontier_tails (!n.bodd) =
      s.frontier_tails (!n.bodd) + (binAt (s.threads t).local_bins b).length := by
    simp only [State.moveBin, State.setThread, hiter, update_self]
  have hentries : ∑ t', entries ((s.moveBin t b).threads t').local_bins +
        (binAt (s.threads t).local_bins b).length =
      ∑ t', entries (s.threads t').local_bins := by
    have hself : entries ((s.moveBin t b).threads t).local_bins +
        (binAt (s.threads t).local_bins b).length = entries (s.threads t).local_bins := by
      simp only [State.moveBin, State.setThread, update_self]
      exact entries_set_nil _ b
    have hoff := sum_add_of_eq_off (t := t)
      (f := fun t' => entries ((s.moveBin t b).threads t').local_bins)
      (g := fun t' => entries (s.threads t').local_bins) fun t' hne => by
        simp [State.moveBin, State.setThread, hne]
    omega
  have hunclaimed : (s.moveBin t b).unclaimed = s.unclaimed := rfl
  simp only [work, hcost, htails, hunclaimed, ← hentries]
  ring

theorem work_endRound_lt (hpc : (s.threads t).pc = .copy) :
    work edges n (s.endRound t) < work edges n s := by
  refine work_lt_of_cost t (endRound_local_bins s t) rfl rfl (fun t' hne => ?_) ?_
  · have hsame : (s.endRound t).threads t' = s.threads t' := by
      simp [State.endRound, State.setThread, hne]
    rw [cost, hsame]
    exact le_refl _
  · have hpc' : ((s.endRound t).threads t).pc = .lastBarrier := by
      simp [State.endRound, State.setThread]
    rw [cost_of_pc hpc, cost_of_pc hpc']
    exact Nat.lt_succ_self 2

/-- The entries of the new frontier pay for the next round; without a next bin the threads only
leave the loop. -/
theorem work_nextRound_lt {next : WithTop Nat} (h : Copying edges delta source n next s)
    (hall : ∀ t, (s.threads t).pc = .lastBarrier) (t : Fin team) :
    work edges (n + 1) (s.nextRound t) < work edges n s := by
  obtain ⟨hiter, -, htail⟩ := h.of_lastBarrier (hall t)
  have hteam : 0 < team := Fin.pos t
  have hshared : (s.nextRound t).shared_indexes (n + 1).bodd = next := by
    rw [Nat.bodd_succ]
    exact h.next_eq
  have hzero : (s.nextRound t).frontier_tails (!(n + 1).bodd) = 0 := by
    rw [Nat.bodd_succ, Bool.not_not]
    exact htail
  have hlen : (s.nextRound t).unclaimed.length = s.frontier_tails (!n.bodd) := by
    simp only [State.nextRound, hiter, Nat.bodd_succ, List.length_range]
  have hbefore : ∑ t, cost edges n s t = 2 * team := by
    have hcost (t : Fin team) : cost edges n s t = 2 := cost_of_pc (hall t)
    simp [hcost, mul_comm]
  have hbins : ∑ t', entries ((s.nextRound t).threads t').local_bins =
      ∑ t', entries (s.threads t').local_bins := rfl
  simp only [work, hbins, hzero, hlen, hbefore, entryCost]
  cases next with
  | top =>
    have hafter : ∑ t', cost edges (n + 1) (s.nextRound t) t' = team := by
      have hcost (t' : Fin team) : cost edges (n + 1) (s.nextRound t) t' = 1 := by
        have hpc : ((s.nextRound t).threads t').pc = .loop := rfl
        rw [cost_of_pc hpc, hshared]
        rfl
      simp [hcost]
    rw [hafter]
    nlinarith
  | coe b =>
    have hpos : 0 < s.frontier_tails (!n.bodd) := by
      rcases h.filled b rfl with hpos | ⟨t', hne⟩
      · exact hpos
      · exact absurd (h.emptied t' (hall t') b rfl) hne
    have hafter : ∑ t', cost edges (n + 1) (s.nextRound t) t' = 8 * team := by
      have hcost (t' : Fin team) : cost edges (n + 1) (s.nextRound t) t' = 8 := by
        have hpc : ((s.nextRound t).threads t').pc = .loop := rfl
        rw [cost_of_pc hpc, hshared]
        rfl
      simp [hcost, mul_comm]
    rw [hafter]
    nlinarith [Nat.mul_le_mul_left (8 * team) hpos]

end Cost

/-- Every step improves a distance or uses up work. -/
theorem InRound.decreases {n : Nat} {s s' : State max_vid team} {e : Event team}
    (h : InRound edges delta source n s) (hs : Steps edges delta s e s') :
    s'.distances < s.distances ∨
      s'.distances = s.distances ∧ work edges (s.roundAfter n) s' < work edges n s := by
  have hround {t : Fin team} {pc : Position max_vid} (hpc : (s.threads t).pc = pc)
      (hne : pc ≠ .lastBarrier) : (s.threads t).iter = n ∧ s.roundAfter n = n :=
    ⟨h.iter (hpc ▸ hne), roundAfter_of_ne (hpc ▸ hne)⟩
  cases hs with
  | move t pc hm =>
    have hne : (s.threads t).pc ≠ .lastBarrier := by
      intro hpc
      rw [hpc] at hm
      cases hm
    rw [roundAfter_of_ne hne]
    refine .inr ⟨rfl, work_goto_lt (hm.cost_lt ?_)⟩
    rw [h.iter hne]
  | claim t i hpc hi =>
    rw [(hround hpc (by simp)).2]
    exact .inr ⟨rfl, work_claim_lt hpc hi⟩
  | improve t u v rest new_dist hpc =>
    obtain ⟨c, hrelaxing⟩ := h.relaxing_of_swap hpc
    have hfits := hrelaxing.fits t
    rw [hpc] at hfits
    obtain ⟨-, -, -, -, hlt⟩ := hfits
    left
    rw [Pi.lt_def]
    refine ⟨fun y => ?_, v, ?_⟩
    · simp only [State.improve, State.setThread, update_apply]
      split
      · rw [‹y = v›]
        exact hlt.le
      · exact le_refl _
    · simpa [State.improve, State.setThread] using hlt
  | lowerNext t i hpc =>
    obtain ⟨hiter, hsame⟩ := hround hpc (by simp)
    rw [hsame]
    exact .inr ⟨rfl, work_lowerNext_lt hiter hpc⟩
  | openBarrier t hall =>
    rw [(hround (hall t) (by simp)).2]
    exact .inr ⟨rfl, work_openBarrier_lt t hall⟩
  | reset t hpc =>
    obtain ⟨hiter, hsame⟩ := hround hpc (by simp)
    rw [hsame]
    exact .inr ⟨rfl, work_reset_lt hiter hpc⟩
  | moveBin t b hpc =>
    obtain ⟨hiter, hsame⟩ := hround hpc (by simp)
    have hpc' : ((s.moveBin t b).threads t).pc = .copy := by
      simpa [State.moveBin, State.setThread] using hpc
    rw [hsame, ← work_moveBin hiter b]
    exact .inr ⟨rfl, work_endRound_lt hpc'⟩
  | endRound t hpc =>
    rw [(hround hpc (by simp)).2]
    exact .inr ⟨rfl, work_endRound_lt hpc⟩
  | nextRound t hall =>
    obtain ⟨next, hcopying⟩ := h.copying_of_lastBarrier (hall t)
    rw [roundAfter_of_all hall]
    exact .inr ⟨rfl, work_nextRound_lt hcopying hall t⟩

/-! ### No deadlock -/

/-- A thread that cannot go on waits at a barrier or has left the loop. -/
theorem place_of_blocked {s : State max_vid team} (h : ∀ e, step edges delta s e = none)
    (t : Fin team) :
    (s.threads t).pc = .barrier ∧ (¬ ∀ t, (s.threads t).pc = .barrier) ∨
      (s.threads t).pc = .lastBarrier ∧ (¬ ∀ t, (s.threads t).pc = .lastBarrier) ∨
        (s.threads t).pc = .finished := by
  have hrun : advance edges delta s t = none := h (.run t)
  unfold advance at hrun
  dsimp only at hrun
  split at hrun
  case h_2 hpc =>
    -- an index is left and the thread can take it
    cases hun : s.unclaimed with
    | nil => simp [hun] at hrun
    | cons i rest =>
      have hclaim : claim s t i = none := h (.claim t i)
      simp [claim, hpc, hun] at hclaim
  case h_9 =>
    split at hrun
    · cases hrun
    · cases hrun
  case h_10 hpc =>
    refine .inl ⟨hpc, fun hall => ?_⟩
    rw [if_pos hall] at hrun
    cases hrun
  case h_12 =>
    split at hrun
    · cases hrun
    · cases hrun
  case h_13 hpc =>
    refine .inr (.inl ⟨hpc, fun hall => ?_⟩)
    rw [if_pos hall] at hrun
    cases hrun
  case h_14 hpc => exact .inr (.inr hpc)
  all_goals cases hrun

/-- A run that cannot go on has left the loop with all vertices settled. -/
theorem InRound.finished_of_blocked {n : Nat} {s : State max_vid team}
    (h : InRound edges delta source n s) (t₀ : Fin team)
    (hblocked : ∀ e, step edges delta s e = none) :
    (∀ t, (s.threads t).pc = .finished) ∧ Labels edges source s.distances ∧
      ∀ v, Settled edges s.distances v := by
  rcases h with ⟨c, h⟩ | ⟨next, h⟩ | h
  · have hall (t : Fin team) : (s.threads t).pc = .barrier := by
      have hfits := h.fits t
      rcases place_of_blocked hblocked t with ⟨hpc, -⟩ | ⟨hpc, -⟩ | hpc
      · exact hpc
      · rw [hpc] at hfits
        exact hfits.elim
      · rw [hpc] at hfits
        exact hfits.elim
    rcases place_of_blocked hblocked t₀ with ⟨-, hnot⟩ | ⟨hpc, -⟩ | hpc
    · exact absurd hall hnot
    · exact absurd ((hall t₀).symm.trans hpc) nofun
    · exact absurd ((hall t₀).symm.trans hpc) nofun
  · have hall (t : Fin team) : (s.threads t).pc = .lastBarrier := by
      have hplace := h.place t
      unfold Thread.Copies at hplace
      rcases place_of_blocked hblocked t with ⟨hpc, -⟩ | ⟨hpc, -⟩ | hpc
      · rw [hpc] at hplace
        exact hplace.elim
      · exact hpc
      · rw [hpc] at hplace
        exact hplace.elim
    rcases place_of_blocked hblocked t₀ with ⟨hpc, -⟩ | ⟨-, hnot⟩ | hpc
    · exact absurd ((hall t₀).symm.trans hpc) nofun
    · exact absurd hall hnot
    · exact absurd ((hall t₀).symm.trans hpc) nofun
  · refine ⟨fun t => ?_, h.labels, h.settled⟩
    rcases place_of_blocked hblocked t with ⟨hpc, -⟩ | ⟨hpc, -⟩ | hpc
    · simpa [hpc] using h.place t
    · simpa [hpc] using h.place t
    · exact hpc

/-! ### The distances -/

/-- The distances of a state and the work that is left in it. -/
def Ranked (edges : Edges max_vid) (delta : ℚ) (source : Fin max_vid) (s : State max_vid team)
    (m : {d // Sound edges source d} × Nat) : Prop :=
  ∃ n, InRound edges delta source n s ∧ m.1.1 = s.distances ∧ m.2 = work edges n s

theorem InRound.ranked {n : Nat} {s : State max_vid team} (h : InRound edges delta source n s) :
    Ranked edges delta source s ⟨⟨s.distances, h.labels.sound⟩, work edges n s⟩ := ⟨n, h, rfl, rfl⟩

theorem Ranked.step (hw : ∀ u, ∀ e ∈ edges u, 0 ≤ e.2) (hdelta : 0 < delta)
    (s : State max_vid team) (e : Event team) (s' : State max_vid team)
    (m : {d // Sound edges source d} × Nat) (h : Ranked edges delta source s m)
    (hs : step edges delta s e = some s') :
    ∃ m', Prod.Lex (fun d d' => d.1 < d'.1) (· < ·) m' m ∧ Ranked edges delta source s' m' := by
  obtain ⟨n, hn, hd, hwork⟩ := h
  have hs := steps_of_step hs
  refine ⟨_, ?_, (hn.steps hw hdelta hs).ranked⟩
  rw [Prod.lex_iff]
  rcases hn.decreases hs with hlt | ⟨heq, hlt⟩
  · left
    rwa [hd]
  · exact .inr ⟨Subtype.ext (heq.trans hd.symm), by rwa [hwork]⟩

/-- No run goes on forever, and a run that cannot go on has left the loop with the distances. -/
theorem computeSssp_distances (hw : ∀ u, ∀ e ∈ edges u, 0 ≤ e.2) (hdelta : 0 < delta)
    (hteam : 0 < team) (source : Fin max_vid) (memory : Nat → Fin max_vid) :
    (∀ run : Nat → State max_vid team, run 0 = start source memory →
      ¬ ∀ n, ∃ e, step edges delta (run n) e = some (run (n + 1))) ∧
    ∀ es (s : State max_vid team), exec (step edges delta) (start source memory) es = some s →
      (∀ e, step edges delta s e = none) →
        (∀ t, (s.threads t).pc = .finished) ∧
          ∀ v, IsDistance edges source v (s.distances v) := by
  constructor
  · intro run hrun
    have hwf := (wellFoundedOn_sound hw source).prod_lex (wellFounded_lt (α := Nat))
    have hstart : InRound edges delta source 0 (run 0) := by
      rw [hrun]
      exact inRound_start edges delta source memory
    exact not_forever hwf (Ranked.step hw hdelta) hstart.ranked
  · intro es s hexec hblocked
    obtain ⟨n, hn⟩ := inRound_of_exec hw hdelta hexec
    obtain ⟨hfinished, hlabels, hsettled⟩ := hn.finished_of_blocked ⟨0, hteam⟩ hblocked
    exact ⟨hfinished, isDistance_of_settled hlabels.source_le hsettled hlabels.sound⟩

theorem step_of_finished {s : State max_vid team} (h : ∀ t, (s.threads t).pc = .finished)
    (e : Event team) : step edges delta s e = none := by
  cases e with
  | run t => simp [step, advance, h t]
  | claim t i => simp [step, claim, h t]

/-- An edge of weight 1/2, and a vertex that is not reached. -/
def oneEdge : Edges 3 := fun u => if u = 0 then [(1, 1 / 2)] else []

/-- A run of two threads in three rounds. -/
def twoThreads : List (Event 2) :=
  [.run 0, .run 1, .claim 0 0, .run 1, .run 0, .run 1, .run 0, .run 0, .run 0, .run 0, .run 0,
    .run 0, .run 0, .run 1, .run 0, .run 1, .run 0, .run 1, .run 0, .run 1, .claim 0 0, .run 1,
    .run 0, .run 1, .run 0, .run 0, .run 0, .run 1, .run 0, .run 1, .run 0, .run 1, .run 0,
    .run 1, .run 0]

theorem computeSssp_distances_two :
    ∃ s, exec (step oneEdge 1) (start 0 fun _ => 0) twoThreads = some s ∧
      s.distances 1 = (1 / 2 : ℚ) ∧ s.distances 2 = ⊤ ∧
        IsDistance oneEdge 0 1 (s.distances 1) ∧ IsDistance oneEdge 0 2 (s.distances 2) := by
  have hrun : ∃ s, exec (step oneEdge 1) (start 0 fun _ => 0) twoThreads = some s ∧
      (∀ t, (s.threads t).pc = .finished) ∧ s.distances 1 = (1 / 2 : ℚ) ∧ s.distances 2 = ⊤ :=
    exists_exec (by decide +kernel)
  obtain ⟨s, hs, hfinished, hone, htwo⟩ := hrun
  have hall := computeSssp_distances (by decide +kernel : ∀ u, ∀ e ∈ oneEdge u, 0 ≤ e.2) one_pos
    two_pos 0 (fun _ => 0)
  have hdist := (hall.2 twoThreads s hs (step_of_finished hfinished)).2
  exact ⟨s, hs, hone, htwo, hdist 1, hdist 2⟩

end AVBGraph.SSSP
