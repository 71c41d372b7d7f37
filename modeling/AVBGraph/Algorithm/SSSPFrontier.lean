import AVBGraph.Algorithm.SSSPRounds

namespace AVBGraph.SSSP

open Framework Function

variable {max_vid team : Nat} {edges : Edges max_vid} {delta : ℚ} {source : Fin max_vid}

/-- The indices that an event writes: a thread in front of the copy writes behind the tail. -/
def writes (s : State max_vid team) : Event team → List Nat
  | .claim _ _ => []
  | .run t =>
    if (s.threads t).pc = .copy then
      match s.copiedBin t with
      | some b => List.range' (s.frontier_tails (!(s.threads t).iter.bodd))
          (binAt (s.threads t).local_bins b).length
      | none => []
    else []

def copied (edges : Edges max_vid) (delta : ℚ) : State max_vid team → List (Event team) → List Nat
  | _, [] => []
  | s, e :: es =>
    match step edges delta s e with
    | some s' => writes s e ++ copied edges delta s' es
    | none => []

/-- All indices of `frontier` that are written, the one of the source first. -/
def written (edges : Edges max_vid) (delta : ℚ) (source : Fin max_vid)
    (memory : Nat → Fin max_vid) (es : List (Event team)) : List Nat :=
  0 :: copied edges delta (start source memory) es

/-- The entries of a bin, over all threads. -/
def waiting (s : State max_vid team) (b : Nat) : Nat :=
  ∑ t, (binAt (s.threads t).local_bins b).length

/-- The bin that gets an entry: the compare-and-swap of the thread succeeds. -/
def improvedBin (delta : ℚ) (s : State max_vid team) : Event team → Option Nat
  | .claim _ _ => none
  | .run t =>
    match (s.threads t).pc with
    | .swap _ v _ old_dist new_dist =>
      if s.distances v = old_dist then some (destBin delta new_dist) else none
    | _ => none

/-- A compare-and-swap that succeeds finds fewer than `num_edges` entries in its bin. -/
def FindsRoom (edges : Edges max_vid) (delta : ℚ) (s : State max_vid team) (e : Event team) : Prop :=
  ∀ b ∈ improvedBin delta s e, waiting s b < numEdges edges

instance (edges : Edges max_vid) (delta : ℚ) (s : State max_vid team) (e : Event team) :
    Decidable (FindsRoom edges delta s e) :=
  inferInstanceAs (Decidable (∀ b ∈ improvedBin delta s e, waiting s b < numEdges edges))

/-- No bin has more than `m` entries, and neither has the next frontier, also when the rest of the
next bin is added. -/
structure Room (m n : Nat) (s : State max_vid team) : Prop where
  tail_le : s.frontier_tails (!n.bodd) ≤ m
  waiting_le : ∀ b, waiting s b ≤ m
  next_le : ∀ b : Nat, s.shared_indexes (!n.bodd) = b →
    s.frontier_tails (!n.bodd) + waiting s b ≤ m

section Waiting

variable {n : Nat} {s s' : State max_vid team} {t : Fin team}

theorem waiting_congr
    (h : ∀ t, (s'.threads t).local_bins = (s.threads t).local_bins) (b : Nat) :
    waiting s' b = waiting s b := by simp only [waiting, h]

/-- Only the bins of the thread `t` change. -/
theorem waiting_add_of_eq_off {b : Nat}
    (h : ∀ t', t' ≠ t → (s'.threads t').local_bins = (s.threads t').local_bins) :
    waiting s' b + (binAt (s.threads t).local_bins b).length =
      waiting s b + (binAt (s'.threads t).local_bins b).length := by
  have hlen (t' : Fin team) (hne : t' ≠ t) : (binAt (s'.threads t').local_bins b).length =
      (binAt (s.threads t').local_bins b).length := by rw [h t' hne]
  exact sum_add_of_eq_off hlen

theorem waiting_improve {u v : Fin max_vid} {rest : List (Fin max_vid × ℚ)}
    {new_dist : WithTop ℚ} (b : Nat) : waiting (s.improve delta t u v rest new_dist) b =
      waiting s b + if b = destBin delta new_dist then 1 else 0 := by
  have hoff : waiting (s.improve delta t u v rest new_dist) b + _ = waiting s b + _ :=
    waiting_add_of_eq_off (t := t) fun t' hne => by
      simp [State.improve, State.setThread, hne]
  rw [improve_local_bins] at hoff
  simp only [true_and] at hoff
  split at hoff
  · obtain rfl := ‹b = _›
    rw [List.length_append, List.length_singleton] at hoff
    rw [if_pos rfl]
    omega
  · rw [if_neg ‹_›]
    omega

theorem waiting_moveBin (b j : Nat) : waiting (s.moveBin t b) j +
    (if j = b then (binAt (s.threads t).local_bins b).length else 0) = waiting s j := by
  have hoff : waiting (s.moveBin t b) j + _ = waiting s j + _ :=
    waiting_add_of_eq_off (t := t) fun t' hne => by simp [State.moveBin, State.setThread, hne]
  rw [moveBin_local_bins] at hoff
  simp only [true_and] at hoff
  split at hoff
  · obtain rfl := ‹j = b›
    rw [if_pos rfl]
    simpa using hoff
  · rw [if_neg ‹_›]
    omega

theorem frontier_tails_moveBin {b : Nat} (hiter : (s.threads t).iter = n) :
    (s.moveBin t b).frontier_tails (!n.bodd) =
      s.frontier_tails (!n.bodd) + (binAt (s.threads t).local_bins b).length := by
  simp only [State.moveBin, State.setThread, hiter, update_self]

end Waiting

namespace Room

variable {m n : Nat} {s s' : State max_vid team} {t : Fin team}

/-- A step that leaves the bins alone. -/
theorem congr (hbins : ∀ t, (s'.threads t).local_bins = (s.threads t).local_bins)
    (hshared : s'.shared_indexes (!n.bodd) = s.shared_indexes (!n.bodd))
    (htails : s'.frontier_tails (!n.bodd) = s.frontier_tails (!n.bodd)) :
    Room m n s ↔ Room m n s' := by
  constructor
  · rintro ⟨htail, hwaiting, hnext⟩
    refine ⟨htails ▸ htail, fun b => ?_, fun b hb => ?_⟩
    · rw [waiting_congr hbins]
      exact hwaiting b
    · rw [htails, waiting_congr hbins]
      exact hnext b (hshared ▸ hb)
  · rintro ⟨htail, hwaiting, hnext⟩
    refine ⟨htails ▸ htail, fun b => ?_, fun b hb => ?_⟩
    · rw [← waiting_congr hbins]
      exact hwaiting b
    · rw [← htails, ← waiting_congr hbins]
      exact hnext b (hshared ▸ hb)

/-- With nothing in the next frontier only the bins count. -/
theorem iff_of_tail_zero (htail : s.frontier_tails (!n.bodd) = 0) :
    Room m n s ↔ ∀ b, waiting s b ≤ m := by
  refine ⟨Room.waiting_le, fun h => ⟨?_, h, fun b _ => ?_⟩⟩
  · rw [htail]
    exact Nat.zero_le m
  · rw [htail, Nat.zero_add]
    exact h b

/-- The entries of the next bin move to the next frontier. -/
theorem moveBin_iff {b : Nat} (hiter : (s.threads t).iter = n)
    (hb : s.shared_indexes (!n.bodd) = b) : Room m n s ↔ Room m n (s.moveBin t b) := by
  have htail := frontier_tails_moveBin (b := b) hiter
  have hmoved (j : Nat) := waiting_moveBin (s := s) (t := t) b j
  have hself := hmoved b
  rw [if_pos rfl] at hself
  constructor
  · rintro ⟨-, hwaiting, hnext⟩
    have hle := hnext b hb
    refine ⟨by omega, fun j => ?_, fun j hj => ?_⟩
    · have hj := hmoved j
      exact (Nat.le_add_right _ _).trans (hj.trans_le (hwaiting j))
    · obtain rfl : b = j := by exact_mod_cast hb.symm.trans hj
      omega
  · rintro ⟨-, hwaiting, hnext⟩
    have hle := hnext b hb
    refine ⟨by omega, fun j => ?_, fun j hj => ?_⟩
    · rcases eq_or_ne j b with rfl | hne
      · omega
      · have hj := hmoved j
        rw [if_neg hne] at hj
        exact hj ▸ hwaiting j
    · obtain rfl : b = j := by exact_mod_cast hb.symm.trans hj
      omega

theorem findsRoom_of_none {e : Event team} (h : improvedBin delta s e = none) :
    FindsRoom edges delta s e := by
  rw [FindsRoom, h]
  exact nofun

theorem improvedBin_of_moves {pc : Position max_vid}
    (hm : Moves edges delta s t (s.threads t).pc pc) : improvedBin delta s (.run t) = none := by
  rw [improvedBin]
  split
  · rw [‹(s.threads t).pc = _›] at hm
    cases hm with
    | fail u v rest hne => exact if_neg hne
  · rfl

/-- A step keeps the bounds exactly when an improvement finds room; the end of a round forgets the
bound of the frontier that it starts with. -/
theorem steps_iff (h : InRound edges delta source n s) {e : Event team}
    (hs : Steps edges delta s e s') :
    Room (numEdges edges) n s ∧ FindsRoom edges delta s e ↔
      s.frontier_tails (!n.bodd) ≤ numEdges edges ∧ Room (numEdges edges) (s.roundAfter n) s' := by
  have hsame (hfinds : FindsRoom edges delta s e)
      (hiff : Room (numEdges edges) n s ↔ Room (numEdges edges) n s') :
      Room (numEdges edges) n s ∧ FindsRoom edges delta s e ↔
        s.frontier_tails (!n.bodd) ≤ numEdges edges ∧ Room (numEdges edges) n s' :=
    ⟨fun hroom => ⟨hroom.1.tail_le, hiff.mp hroom.1⟩, fun hroom => ⟨hiff.mpr hroom.2, hfinds⟩⟩
  have hround {t : Fin team} {pc : Position max_vid} (hpc : (s.threads t).pc = pc)
      (hne : pc ≠ .lastBarrier) : (s.threads t).iter = n ∧ s.roundAfter n = n :=
    ⟨h.iter (hpc ▸ hne), roundAfter_of_ne (hpc ▸ hne)⟩
  cases hs with
  | move t pc hm =>
    rw [hm.roundAfter]
    exact hsame (findsRoom_of_none (improvedBin_of_moves hm)) (congr (goto_local_bins s t pc) rfl rfl)
  | claim t i hpc =>
    rw [(hround hpc (by simp)).2]
    exact hsame (findsRoom_of_none rfl) (congr (goto_local_bins _ t _) rfl rfl)
  | improve t u v rest new_dist hpc =>
    obtain ⟨c, hrelaxing⟩ := h.relaxing_of_swap hpc
    have hafter : (s.improve delta t u v rest new_dist).frontier_tails (!n.bodd) = 0 := hrelaxing.tail
    rw [(hround hpc (by simp)).2, iff_of_tail_zero hrelaxing.tail, iff_of_tail_zero hafter,
      FindsRoom, hrelaxing.tail]
    simp only [improvedBin, hpc, if_true, Option.mem_some_iff, forall_eq', waiting_improve,
      Nat.zero_le, true_and]
    constructor
    · rintro ⟨hwaiting, hlt⟩ b
      have hb := hwaiting b
      split
      · rw [‹b = _›]
        exact hlt
      · exact hb
    · intro hwaiting
      refine ⟨fun b => (Nat.le_add_right _ _).trans (hwaiting b), ?_⟩
      simpa using hwaiting (destBin delta new_dist)
  | lowerNext t i hpc =>
    have htail := h.tail_of_bins hpc
    rw [(hround hpc (by simp)).2]
    refine hsame (findsRoom_of_none (by simp [improvedBin, hpc])) ?_
    have hafter : ((s.lowerNext t i).goto t .barrier).frontier_tails (!n.bodd) = 0 := htail
    rw [iff_of_tail_zero htail, iff_of_tail_zero hafter]
    exact forall_congr' fun b => by rw [waiting_congr (goto_local_bins _ t _), waiting, waiting]; rfl
  | openBarrier t hall =>
    rw [(hround (hall t) (by simp)).2]
    exact hsame (findsRoom_of_none (by simp [improvedBin, hall t])) (congr (fun _ => rfl) rfl rfl)
  | reset t hpc =>
    obtain ⟨hiter, hn⟩ := hround hpc (by simp)
    rw [hn]
    refine hsame (findsRoom_of_none (by simp [improvedBin, hpc])) (congr (goto_local_bins _ t _) ?_ ?_)
    · simp only [goto_shared_indexes, State.reset, hiter]
      exact update_of_ne (by simp) _ _
    · simp only [goto_frontier_tails, State.reset, hiter]
      exact update_of_ne (by simp) _ _
  | moveBin t b hpc hb =>
    obtain ⟨hiter, hn⟩ := hround hpc (by simp)
    obtain ⟨hnext, -⟩ := copiedBin_eq_some hb
    rw [hiter] at hnext
    rw [hn]
    exact hsame (findsRoom_of_none (by simp [improvedBin, hpc]))
      ((moveBin_iff hiter hnext).trans (congr (endRound_local_bins _ t) rfl rfl))
  | endRound t hpc =>
    rw [(hround hpc (by simp)).2]
    exact hsame (findsRoom_of_none (by simp [improvedBin, hpc])) (congr (endRound_local_bins s t) rfl rfl)
  | nextRound t hall =>
    obtain ⟨next, hcopying⟩ := h.copying_of_lastBarrier (hall t)
    obtain ⟨-, hcurr, htail⟩ := hcopying.of_lastBarrier (hall t)
    have hzero : (s.nextRound t).frontier_tails (!(n + 1).bodd) = 0 := by
      rw [Nat.bodd_succ, Bool.not_not]
      exact htail
    rw [roundAfter_of_all hall, iff_of_tail_zero hzero]
    constructor
    · exact fun hroom => ⟨hroom.1.tail_le, hroom.1.waiting_le⟩
    · rintro ⟨hle, hwaiting⟩
      refine ⟨⟨hle, hwaiting, fun b hb => ?_⟩, findsRoom_of_none (by simp [improvedBin, hall t])⟩
      -- all threads have moved their entries of the next bin
      have hnone : waiting s b = 0 := Finset.sum_eq_zero fun t' _ => by
        rw [hcopying.emptied t' (hall t') b (hcopying.next_eq.symm.trans hb), List.length_nil]
      rw [hnone]
      exact hle

end Room

theorem writes_of_ne {s : State max_vid team} {t : Fin team} (h : (s.threads t).pc ≠ .copy) :
    writes s (.run t) = [] := if_neg h

/-- The next frontier stays within the bound exactly when the writes do. -/
theorem writes_lt_iff {m n : Nat} {s s' : State max_vid team} {e : Event team}
    (h : InRound edges delta source n s) (hs : Steps edges delta s e s')
    (hle : s.frontier_tails (!n.bodd) ≤ m) :
    s'.frontier_tails (!(s.roundAfter n).bodd) ≤ m ↔ ∀ i ∈ writes s e, i < m := by
  have hnone (hwrites : writes s e = [])
      (hle : s'.frontier_tails (!(s.roundAfter n).bodd) ≤ m) :
      s'.frontier_tails (!(s.roundAfter n).bodd) ≤ m ↔ ∀ i ∈ writes s e, i < m := by
    rw [hwrites]
    exact iff_of_true hle fun _ hi => absurd hi List.not_mem_nil
  have hround {t : Fin team} {pc : Position max_vid} (hpc : (s.threads t).pc = pc)
      (hne : pc ≠ .lastBarrier) : (s.threads t).iter = n ∧ s.roundAfter n = n :=
    ⟨h.iter (hpc ▸ hne), roundAfter_of_ne (hpc ▸ hne)⟩
  cases hs with
  | move t pc hm =>
    refine hnone (writes_of_ne fun hpc => ?_) ?_
    · rw [hpc] at hm
      cases hm
    · rw [hm.roundAfter]
      exact hle
  | claim t i hpc =>
    refine hnone rfl ?_
    rw [(hround hpc (by simp)).2]
    exact hle
  | improve t u v rest new_dist hpc =>
    refine hnone (writes_of_ne (by simp [hpc])) ?_
    rw [(hround hpc (by simp)).2]
    exact hle
  | lowerNext t i hpc =>
    refine hnone (writes_of_ne (by simp [hpc])) ?_
    rw [(hround hpc (by simp)).2]
    exact hle
  | openBarrier t hall =>
    refine hnone (writes_of_ne (by simp [hall t])) ?_
    rw [(hround (hall t) (by simp)).2]
    exact hle
  | reset t hpc =>
    obtain ⟨hiter, hn⟩ := hround hpc (by simp)
    refine hnone (writes_of_ne (by simp [hpc])) ?_
    have htail : (s.reset t).frontier_tails (!n.bodd) = s.frontier_tails (!n.bodd) := by
      simp only [State.reset, hiter]
      exact update_of_ne (by simp) _ _
    rw [hn, goto_frontier_tails, htail]
    exact hle
  | moveBin t b hpc hb =>
    obtain ⟨hiter, hn⟩ := hround hpc (by simp)
    have htail : ((s.moveBin t b).endRound t).frontier_tails (!n.bodd) =
        s.frontier_tails (!n.bodd) + (binAt (s.threads t).local_bins b).length :=
      frontier_tails_moveBin hiter
    have hwrites : writes s (.run t) = List.range' (s.frontier_tails (!n.bodd))
        (binAt (s.threads t).local_bins b).length := by
      rw [writes, if_pos hpc, hb, hiter]
    rw [hn, htail, hwrites]
    simp only [List.mem_range'_1]
    constructor
    · exact fun hsum i hi => hi.2.trans_le hsum
    · intro hall
      -- the last index that is written
      rcases Nat.eq_zero_or_pos (binAt (s.threads t).local_bins b).length with hzero | hpos
      · omega
      · have hlast := hall (s.frontier_tails (!n.bodd) +
          (binAt (s.threads t).local_bins b).length - 1) (by omega)
        omega
  | endRound t hpc hb =>
    refine hnone (by rw [writes, if_pos hpc, hb]) ?_
    rw [(hround hpc (by simp)).2]
    exact hle
  | nextRound t hall =>
    obtain ⟨next, hcopying⟩ := h.copying_of_lastBarrier (hall t)
    obtain ⟨-, -, hzero⟩ := hcopying.of_lastBarrier (hall t)
    refine hnone (writes_of_ne (by simp [hall t])) ?_
    rw [roundAfter_of_all hall, Nat.bodd_succ, Bool.not_not]
    exact hzero.trans_le (Nat.zero_le m)

/-- At the start all bins are empty. -/
theorem room_start (m : Nat) (source : Fin max_vid) (memory : Nat → Fin max_vid) :
    Room m 0 (start source memory : State max_vid team) := by
  refine (Room.iff_of_tail_zero rfl).mpr fun b => ?_
  simp [waiting, start, binAt]

/-- A run in which every improvement finds room stays within the frontier. -/
theorem copied_lt (hw : ∀ u, ∀ e ∈ edges u, 0 ≤ e.2) (hdelta : 0 < delta) {n : Nat}
    {s : State max_vid team} {es : List (Event team)} (h : InRound edges delta source n s)
    (hroom : Room (numEdges edges) n s)
    (hfinds : Along (step edges delta) (FindsRoom edges delta) s es) :
    ∀ i ∈ copied edges delta s es, i < numEdges edges := by
  induction es generalizing s n with
  | nil => exact fun i hi => absurd hi List.not_mem_nil
  | cons e es ih =>
    intro i hi
    rw [copied] at hi
    split at hi
    case h_1 s' hs =>
      have hsteps := steps_of_step hs
      obtain ⟨hle, hroom'⟩ := (Room.steps_iff h hsteps).mp ⟨hroom, hfinds.1⟩
      rcases List.mem_append.mp hi with hi | hi
      · exact (writes_lt_iff h hsteps hle).mp hroom'.tail_le i hi
      · exact ih (h.steps hw hdelta hsteps) hroom' (hfinds.2 s' hs) i hi
    case h_2 => exact absurd hi List.not_mem_nil

/-- A run that leaves all bins empty and stays within the frontier had room everywhere. -/
theorem room_of_copied_lt (hw : ∀ u, ∀ e ∈ edges u, 0 ≤ e.2) (hdelta : 0 < delta) {n : Nat}
    {s s' : State max_vid team} {es : List (Event team)} (h : InRound edges delta source n s)
    (hexec : exec (step edges delta) s es = some s') (hempty : ∀ b, waiting s' b = 0)
    (hle : s.frontier_tails (!n.bodd) ≤ numEdges edges)
    (hcopied : ∀ i ∈ copied edges delta s es, i < numEdges edges) :
    Room (numEdges edges) n s ∧ Along (step edges delta) (FindsRoom edges delta) s es := by
  induction es generalizing s n with
  | nil =>
    obtain rfl : s = s' := by simpa [exec] using hexec
    refine ⟨⟨hle, fun b => ?_, fun b _ => ?_⟩, trivial⟩
    · rw [hempty]
      exact Nat.zero_le _
    · rw [hempty]
      exact hle
  | cons e es ih =>
    obtain ⟨s₁, hs, hexec⟩ := Option.bind_eq_some_iff.mp hexec
    have hsteps := steps_of_step hs
    rw [copied, hs] at hcopied
    have hwrites : ∀ i ∈ writes s e, i < numEdges edges :=
      fun i hi => hcopied i (List.mem_append_left _ hi)
    have hle' := (writes_lt_iff h hsteps hle).mpr hwrites
    obtain ⟨hroom, hfinds⟩ := ih (h.steps hw hdelta hsteps) hexec hle'
      fun i hi => hcopied i (List.mem_append_right _ hi)
    obtain ⟨hroom', hfinds'⟩ := (Room.steps_iff h hsteps).mpr ⟨hle, hroom⟩
    refine ⟨hroom', hfinds', fun s₂ hs₂ => ?_⟩
    obtain rfl := Option.some.inj (hs.symm.trans hs₂)
    exact hfinds

/-- Threads that have left the loop leave no entry behind. -/
theorem InRound.waiting_of_finished {n : Nat} {s : State max_vid team}
    (h : InRound edges delta source n s) (hall : ∀ t, (s.threads t).pc = .finished) (b : Nat) :
    waiting s b = 0 := by
  refine Finset.sum_eq_zero fun t _ => ?_
  rcases h with ⟨c, h⟩ | ⟨next, h⟩ | h
  · have hfits := h.fits t
    rw [hall t] at hfits
    exact hfits.elim
  · have hplace := h.place t
    rw [Thread.Copies, hall t] at hplace
    exact hplace.elim
  · rw [h.emptied t b, List.length_nil]

/-- The frontier is not left when the graph has an edge and every improvement finds room, and a run
to the end shows that this is needed. -/
theorem written_lt_iff (hw : ∀ u, ∀ e ∈ edges u, 0 ≤ e.2) (hdelta : 0 < delta)
    (source : Fin max_vid) (memory : Nat → Fin max_vid) :
    (∀ es : List (Event team), 0 < numEdges edges →
      Along (step edges delta) (FindsRoom edges delta) (start source memory) es →
        ∀ i ∈ written edges delta source memory es, i < numEdges edges) ∧
    ∀ (es : List (Event team)) (s : State max_vid team),
      exec (step edges delta) (start source memory) es = some s →
        (∀ t, (s.threads t).pc = .finished) →
          ((∀ i ∈ written edges delta source memory es, i < numEdges edges) ↔
            0 < numEdges edges ∧
              Along (step edges delta) (FindsRoom edges delta) (start source memory) es) := by
  have hstart : InRound edges delta source 0 (start source memory : State max_vid team) :=
    inRound_start edges delta source memory
  have hwithin (es : List (Event team)) (hedges : 0 < numEdges edges)
      (hfinds : Along (step edges delta) (FindsRoom edges delta) (start source memory) es) :
      ∀ i ∈ written edges delta source memory es, i < numEdges edges := by
    intro i hi
    rcases List.mem_cons.mp hi with rfl | hi
    · exact hedges
    · exact copied_lt hw hdelta hstart (room_start _ _ _) hfinds i hi
  refine ⟨hwithin, fun es s hexec hall => ⟨fun hwritten => ?_, fun h => hwithin es h.1 h.2⟩⟩
  obtain ⟨n, hn⟩ := inRound_of_exec hw hdelta hexec
  refine ⟨hwritten 0 List.mem_cons_self, ?_⟩
  exact (room_of_copied_lt hw hdelta hstart hexec (hn.waiting_of_finished hall) (Nat.zero_le _)
    fun i hi => hwritten i (List.mem_cons_of_mem _ hi)).2

def twoVertices (a b : Fin 2) : Edges 2 := fun u => if u = a then [(b, 1)] else []

/-- The first round and the copy of two threads. -/
def firstRound (a b : Fin 2) : List (Event 2) := List.flatten
  [[.run a, .run b, .claim a 0, .run b], List.replicate 6 (.run a),
    [.run b, .run a, .run b, .run a, .run b, .run a, .run b]]

/-- With one edge both entries are written to index 0. -/
theorem written_lt_iff_two :
    written (twoVertices 0 1) 1 0 (fun _ => 0) (firstRound 0 1) = [0, 0] ∧
      ∀ i ∈ written (twoVertices 0 1) 1 0 (fun _ => 0) (firstRound 0 1),
        i < numEdges (twoVertices 0 1) :=
  ⟨by decide +kernel, (written_lt_iff (by decide +kernel : ∀ u, ∀ e ∈ twoVertices 0 1 u, 0 ≤ e.2)
    one_pos 0 _).1 (firstRound 0 1) (by decide +kernel) (by decide +kernel)⟩

/-- Vertex 1 is reached over an edge of weight 1/2 and then over vertex 2 with weight 0, and each
time its four neighbours get into the same bin. -/
def sevenEdges : Edges 7 := fun u =>
  if u = 0 then [(1, 1 / 2), (2, 0)] else if u = 1 then [(3, 5), (4, 5), (5, 5), (6, 5)]
  else if u = 2 then [(1, 0)] else []

/-- The rounds of a single thread up to the copy of this bin. -/
def oneThread : List (Event 1) := List.flatten
  [[.run 0, .claim 0 0], List.replicate 15 (.run 0), [.claim 0 0], List.replicate 14 (.run 0),
    [.claim 0 1], List.replicate 12 (.run 0), [.claim 0 0], List.replicate 19 (.run 0)]

/-- Eight entries are copied to a frontier with seven places, and without an edge there is no place
for the source. -/
theorem written_not_lt :
    ((∀ u, ∀ e ∈ sevenEdges u, 0 ≤ e.2) ∧
      ¬ ∀ i ∈ written sevenEdges 1 0 (fun _ => 0) oneThread, i < numEdges sevenEdges) ∧
    ¬ ∀ i ∈ written (fun _ : Fin 1 => []) 1 0 (fun _ => 0) ([] : List (Event 1)),
      i < numEdges fun _ : Fin 1 => [] := by
  refine ⟨⟨by decide +kernel, fun h => ?_⟩, fun h => ?_⟩
  · have hlast : 7 ∈ written sevenEdges 1 0 (fun _ => 0) oneThread := by decide +kernel
    exact absurd (h 7 hlast) (by decide +kernel)
  · exact absurd (h 0 List.mem_cons_self) (by decide)

end AVBGraph.SSSP
