import AVBGraph.Algorithm.SSSPRelaxing

namespace AVBGraph.SSSP

open Framework Function

variable {max_vid team : Nat} {edges : Edges max_vid} {delta : ℚ} {source : Fin max_vid}

/-! ### Behind the first barrier -/

theorem copyTo_of_lt {α : Type*} (frontier : Nat → α) {copy_start i : Nat} (bin : List α)
    (h : i < copy_start) : copyTo frontier copy_start bin i = frontier i := if_pos h

/-- Every element of the bin is found behind the old tail. -/
theorem exists_copyTo {α : Type*} (frontier : Nat → α) (copy_start : Nat) {bin : List α} {x : α}
    (h : x ∈ bin) :
    ∃ i < copy_start + bin.length, copyTo frontier copy_start bin i = x := by
  obtain ⟨j, hj, rfl⟩ := List.mem_iff_getElem.mp h
  refine ⟨copy_start + j, by omega, ?_⟩
  simp [copyTo, hj]

namespace Copying

variable {n : Nat} {next : WithTop Nat} {s : State max_vid team} {t : Fin team}

theorem iter_of_single (h : Copying edges delta source n next s)
    (hpc : (s.threads t).pc = .single) : (s.threads t).iter = n := by
  have hplace := h.place t
  rwa [Thread.Copies, hpc] at hplace

theorem of_copy (h : Copying edges delta source n next s) (hpc : (s.threads t).pc = .copy) :
    (s.threads t).iter = n ∧ s.single = false := by
  have hplace := h.place t
  rwa [Thread.Copies, hpc] at hplace

/-- The single region resets the variables of the round. -/
theorem reset_step (h : Copying edges delta source n next s) (hpc : (s.threads t).pc = .single) :
    Copying edges delta source n next (s.reset t) := by
  have hiter := h.iter_of_single hpc
  have hshared : (s.reset t).shared_indexes = update s.shared_indexes n.bodd ⊤ := by
    simp only [State.reset, hiter]
  have htails : (s.reset t).frontier_tails = update s.frontier_tails n.bodd 0 := by
    simp only [State.reset, hiter]
  have htail : (s.reset t).frontier_tails (!n.bodd) = s.frontier_tails (!n.bodd) := by
    rw [htails, update_of_ne (by simp)]
  constructor
  case labels => exact h.labels
  case next_eq =>
    rw [hshared, update_of_ne (by simp)]
    exact h.next_eq
  case place => exact fun t' => (h.place t').mono fun _ => rfl
  case reset =>
    intro _
    rw [hshared, htails, update_self, update_self]
    exact ⟨rfl, rfl⟩
  case low => exact h.low
  case filled =>
    rw [htail]
    exact h.filled
  case emptied => exact h.emptied
  case pending =>
    rw [htail]
    exact h.pending

/-- A thread goes on to the copy once the variables are reset. -/
theorem enter (h : Copying edges delta source n next s) (hpc : (s.threads t).pc = .single)
    (hsingle : s.single = false) : Copying edges delta source n next (s.goto t .copy) where
  labels := h.labels
  next_eq := h.next_eq
  place := by
    intro t'
    rcases eq_or_ne t' t with rfl | hne
    · rw [Thread.Copies, goto_pc_self, goto_iter]
      exact ⟨h.iter_of_single hpc, hsingle⟩
    · rw [goto_threads_of_ne _ t _ hne]
      exact h.place t'
  reset := h.reset
  low := by simpa using h.low
  filled := by simpa using h.filled
  emptied := by
    intro t' hpc'
    rcases eq_or_ne t' t with rfl | hne
    · rw [goto_pc_self] at hpc'
      exact absurd hpc' nofun
    · rw [goto_threads_of_ne _ t _ hne] at hpc' ⊢
      exact h.emptied t' hpc'
  pending := by simpa [Waits] using h.pending

/-- The entries of the bin stand in the next frontier. -/
theorem moveBin (hw : ∀ u, ∀ e ∈ edges u, 0 ≤ e.2) (hdelta : 0 < delta) {b : Nat}
    (h : Copying edges delta source n b s) (hpc : (s.threads t).pc = .copy) :
    Copying edges delta source n b (s.moveBin t b) := by
  obtain ⟨hiter, hsingle⟩ := h.of_copy hpc
  have htails : (s.moveBin t b).frontier_tails = update s.frontier_tails (!n.bodd)
      (s.frontier_tails (!n.bodd) + (binAt (s.threads t).local_bins b).length) := by
    simp only [State.moveBin, State.setThread, hiter]
  have htail : (s.moveBin t b).frontier_tails (!n.bodd) =
      s.frontier_tails (!n.bodd) + (binAt (s.threads t).local_bins b).length := by
    rw [htails, update_self]
  have hfrontier : (s.moveBin t b).frontier =
      copyTo s.frontier (s.frontier_tails (!n.bodd)) (binAt (s.threads t).local_bins b) := by
    simp only [State.moveBin, State.setThread, hiter]
  have hpcs (t' : Fin team) : ((s.moveBin t b).threads t').pc = (s.threads t').pc ∧
      ((s.moveBin t b).threads t').iter = (s.threads t').iter := by
    rcases eq_or_ne t' t with rfl | hne
    · simp [State.moveBin, State.setThread]
    · simp [State.moveBin, State.setThread, hne]
  constructor
  case labels => exact h.labels
  case next_eq => exact h.next_eq
  case place =>
    intro t'
    have hplace := h.place t'
    rwa [Thread.Copies, ← (hpcs t').1, ← (hpcs t').2] at hplace
  case reset =>
    intro hfalse
    obtain ⟨hcurr, hzero⟩ := h.reset hsingle
    rw [htails, update_of_ne (by simp)]
    exact ⟨hcurr, hzero⟩
  case low =>
    intro t' j hj
    rw [moveBin_local_bins] at hj
    split at hj
    · exact absurd rfl hj
    · exact h.low t' j hj
  case filled =>
    intro j hj
    obtain rfl : b = j := by exact_mod_cast hj
    rw [htail]
    rcases h.filled b rfl with hpos | ⟨t', hne⟩
    · exact .inl (by omega)
    · rcases eq_or_ne t' t with rfl | hne'
      · exact .inl (by have := List.length_pos_of_ne_nil hne; omega)
      · refine .inr ⟨t', ?_⟩
        rwa [moveBin_local_bins, if_neg (by simp [hne'])]
  case emptied =>
    intro t' hpc' j hj
    rw [(hpcs t').1] at hpc'
    rw [moveBin_local_bins]
    split
    · rfl
    · exact h.emptied t' hpc' j hj
  case pending =>
    intro v
    change Settled edges s.distances v ∨ Waits delta (s.moveBin t b) v ∨
      binStart delta b ≤ s.distances v ∧ _
    rw [htail, hfrontier]
    rcases h.pending v with hset | ⟨t', hwait⟩ | ⟨hlow, i, hi, rfl⟩
    · exact .inl hset
    · by_cases hmoved : t' = t ∧ destBin delta (s.distances v) = b
      · obtain ⟨rfl, rfl⟩ := hmoved
        exact .inr (.inr ⟨binStart_destBin_le hdelta (h.labels.sound.nonneg hw v),
          exists_copyTo _ _ hwait⟩)
      · refine .inr (.inl ⟨t', ?_⟩)
        change v ∈ binAt _ (destBin delta (s.distances v))
        rwa [moveBin_local_bins, if_neg hmoved]
    · exact .inr (.inr ⟨hlow, i, by omega, copyTo_of_lt _ _ hi⟩)

/-- A thread that has nothing left in the next bin ends the round. -/
theorem endRound (h : Copying edges delta source n next s) (hpc : (s.threads t).pc = .copy)
    (hmoved : ∀ b : Nat, next = b → binAt (s.threads t).local_bins b = []) :
    Copying edges delta source n next (s.endRound t) := by
  obtain ⟨hiter, hsingle⟩ := h.of_copy hpc
  have hself : (s.endRound t).threads t =
      ⟨.lastBarrier, (s.threads t).local_bins, (s.threads t).iter + 1⟩ := by
    simp [State.endRound, State.setThread]
  have hother {t' : Fin team} (hne : t' ≠ t) : (s.endRound t).threads t' = s.threads t' := by
    simp [State.endRound, State.setThread, hne]
  constructor
  case labels => exact h.labels
  case next_eq => exact h.next_eq
  case place =>
    intro t'
    rcases eq_or_ne t' t with rfl | hne
    · rw [Thread.Copies, hself, hiter]
      exact ⟨rfl, hsingle⟩
    · rw [hother hne]
      exact h.place t'
  case reset => exact h.reset
  case low => simpa using h.low
  case filled =>
    simp only [endRound_local_bins]
    exact h.filled
  case emptied =>
    intro t' hpc' b hb
    rcases eq_or_ne t' t with rfl | hne
    · rw [endRound_local_bins]
      exact hmoved b hb
    · rw [hother hne] at hpc' ⊢
      exact h.emptied t' hpc' b hb
  case pending =>
    intro v
    simp only [Waits, endRound_local_bins]
    exact h.pending v

/-- At the end of the round all threads have passed the single region. -/
theorem of_lastBarrier (h : Copying edges delta source n next s)
    (hpc : (s.threads t).pc = .lastBarrier) :
    (s.threads t).iter = n + 1 ∧ s.shared_indexes n.bodd = ⊤ ∧ s.frontier_tails n.bodd = 0 := by
  have hplace := h.place t
  rw [Thread.Copies, hpc] at hplace
  exact ⟨hplace.1, h.reset hplace.2⟩

/-- With a next bin the round that follows processes it. -/
theorem nextRound {c : Nat} (h : Copying edges delta source n c s)
    (hall : ∀ t, (s.threads t).pc = .lastBarrier) (t : Fin team) :
    Relaxing edges delta source (n + 1) c (s.nextRound t) := by
  obtain ⟨hiter, hcurr, htail⟩ := h.of_lastBarrier (hall t)
  have hodd : (!(n + 1).bodd) = n.bodd := by rw [Nat.bodd_succ, Bool.not_not]
  constructor
  case labels => exact h.labels
  case iter => exact fun t => (h.of_lastBarrier (hall t)).1
  case curr =>
    rw [Nat.bodd_succ]
    exact h.next_eq
  case tail =>
    rw [hodd]
    exact htail
  case single => rfl
  case low => exact fun t b hb => by exact_mod_cast h.low t b hb
  case next =>
    intro b hb
    rw [hodd] at hb
    exact absurd (hb.symm.trans hcurr) nofun
  case fits => exact fun t => trivial
  case pending =>
    intro v
    rcases h.pending v with hset | hwait | ⟨hlow, i, hi, hv⟩
    · exact .inl hset
    · exact .inr (.inl hwait)
    · refine .inr (.inr ⟨hlow, .inl ⟨i, ?_, hv⟩⟩)
      simpa [State.nextRound, hiter] using hi

/-- Without a next bin all vertices are settled. -/
theorem finish (h : Copying edges delta source n ⊤ s)
    (hall : ∀ t, (s.threads t).pc = .lastBarrier) (t : Fin team) :
    Finishing edges source (n + 1) (s.nextRound t) where
  labels := h.labels
  iter := fun t => (h.of_lastBarrier (hall t)).1
  curr := by
    rw [Nat.bodd_succ]
    exact h.next_eq
  place := fun _ => .inl rfl
  emptied := by
    intro t b
    by_contra hne
    exact WithTop.natCast_ne_top b (top_le_iff.mp (h.low t b hne))
  settled := by
    intro v
    rcases h.pending v with hset | ⟨t, hwait⟩ | ⟨hlow, -⟩
    · exact hset
    · exact absurd (top_le_iff.mp (h.low t _ (List.ne_nil_of_mem hwait))) (WithTop.natCast_ne_top _)
    · exact settled_of_top (top_le_iff.mp hlow)

/-- What a step can do behind the first barrier. -/
theorem steps (hw : ∀ u, ∀ e ∈ edges u, 0 ≤ e.2) (hdelta : 0 < delta)
    (h : Copying edges delta source n next s) {e : Event team}
    {s' : State max_vid team} (hs : Steps edges delta s e s') :
    InRound edges delta source (s.roundAfter n) s' := by
  have hplace {t : Fin team} {pc : Position max_vid} (hpc : (s.threads t).pc = pc) :
      (⟨pc, (s.threads t).local_bins, (s.threads t).iter⟩ : Thread max_vid).Copies n s.single :=
    hpc ▸ h.place t
  have hround {t : Fin team} {pc : Position max_vid} (hpc : (s.threads t).pc = pc)
      (hne : pc ≠ .lastBarrier) : s.roundAfter n = n := roundAfter_of_ne (hpc ▸ hne)
  cases hs with
  | move t pc hm =>
    generalize hpc : (s.threads t).pc = pc₀ at hm
    cases hm with
    | skip hsingle =>
      rw [hround hpc (by simp)]
      exact .inr (.inl ⟨next, h.enter hpc hsingle⟩)
    | _ => exact (hplace hpc).elim
  | claim t i hpc => exact (hplace hpc).elim
  | improve t u v rest new_dist hpc => exact (hplace hpc).elim
  | lowerNext t i hpc => exact (hplace hpc).elim
  | openBarrier t hall => exact (hplace (hall t)).elim
  | reset t hpc =>
    rw [hround hpc (by simp)]
    exact .inr (.inl ⟨next, (h.reset_step hpc).enter hpc rfl⟩)
  | moveBin t b hpc hb =>
    obtain ⟨hnext, -⟩ := copiedBin_eq_some hb
    rw [(h.of_copy hpc).1, h.next_eq] at hnext
    subst hnext
    have hpc' : ((s.moveBin t b).threads t).pc = .copy := by
      simpa [State.moveBin, State.setThread] using hpc
    rw [hround hpc (by simp)]
    refine .inr (.inl ⟨b, (h.moveBin hw hdelta hpc).endRound hpc' fun j hj => ?_⟩)
    rw [moveBin_local_bins, if_pos ⟨rfl, by exact_mod_cast hj.symm⟩]
  | endRound t hpc hnone =>
    rw [hround hpc (by simp)]
    refine .inr (.inl ⟨next, h.endRound hpc fun b hb => copiedBin_eq_none hnone ?_⟩)
    rw [(h.of_copy hpc).1, h.next_eq, hb]
  | nextRound t hall =>
    rw [roundAfter_of_all hall]
    cases next with
    | top => exact .inr (.inr (h.finish hall t))
    | coe c => exact .inl ⟨c, h.nextRound hall t⟩

end Copying

/-! ### The whole run -/

theorem Finishing.steps {n : Nat} {s s' : State max_vid team} {e : Event team}
    (h : Finishing edges source n s) (hs : Steps edges delta s e s') :
    InRound edges delta source (s.roundAfter n) s' := by
  have hplace {t : Fin team} {pc : Position max_vid} (hpc : (s.threads t).pc = pc) :
      pc = .loop ∨ pc = .finished := hpc ▸ h.place t
  cases hs with
  | move t pc hm =>
    have hround : s.roundAfter n = n := by
      refine roundAfter_of_ne (t := t) fun hpc => ?_
      simpa using hplace hpc
    have hpc' : pc = .finished := by
      have htop : s.shared_indexes (s.threads t).iter.bodd = ⊤ := by rw [h.iter t, h.curr]
      rcases h.place t with hloop | hfinished
      · rw [hloop] at hm
        cases hm with
        | enter hne => exact absurd htop hne
        | leave => rfl
      · rw [hfinished] at hm
        cases hm
    subst hpc'
    rw [hround]
    refine .inr (.inr ⟨h.labels, by simpa using h.iter, h.curr, fun t' => ?_,
      by simpa using h.emptied, h.settled⟩)
    rcases eq_or_ne t' t with rfl | hne
    · exact .inr (goto_pc_self s t' _)
    · rw [goto_threads_of_ne s t _ hne]
      exact h.place t'
  | claim t i hpc => simpa using hplace hpc
  | improve t u v rest new_dist hpc => simpa using hplace hpc
  | lowerNext t i hpc => simpa using hplace hpc
  | openBarrier t hall => simpa using hplace (hall t)
  | reset t hpc => simpa using hplace hpc
  | moveBin t b hpc => simpa using hplace hpc
  | endRound t hpc => simpa using hplace hpc
  | nextRound t hall => simpa using hplace (hall t)

theorem InRound.steps (hw : ∀ u, ∀ e ∈ edges u, 0 ≤ e.2) (hdelta : 0 < delta) {n : Nat}
    {s s' : State max_vid team} {e : Event team} (h : InRound edges delta source n s)
    (hs : Steps edges delta s e s') :
    InRound edges delta source (s.roundAfter n) s' := by
  rcases h with ⟨c, h⟩ | ⟨next, h⟩ | h
  · exact h.steps hw hdelta hs
  · exact h.steps hw hdelta hs
  · exact h.steps hs

theorem InRound.labels {n : Nat} {s : State max_vid team} (h : InRound edges delta source n s) :
    Labels edges source s.distances := by
  rcases h with ⟨c, h⟩ | ⟨next, h⟩ | h
  · exact h.labels
  · exact h.labels
  · exact h.labels

/-- A thread counts the round when it has passed the copy. -/
theorem InRound.iter {n : Nat} {s : State max_vid team} (h : InRound edges delta source n s)
    {t : Fin team} (hpc : (s.threads t).pc ≠ .lastBarrier) : (s.threads t).iter = n := by
  rcases h with ⟨c, h⟩ | ⟨next, h⟩ | h
  · exact h.iter t
  · have hplace := h.place t
    unfold Thread.Copies at hplace
    split at hplace
    · exact hplace
    · exact hplace.1
    · exact absurd ‹_› hpc
    · exact hplace.elim
  · exact h.iter t

/-- A distance improves only before the first barrier. -/
theorem InRound.relaxing_of_swap {n : Nat} {s : State max_vid team}
    (h : InRound edges delta source n s) {t : Fin team} {u v : Fin max_vid}
    {rest : List (Fin max_vid × ℚ)} {old_dist new_dist : WithTop ℚ}
    (hpc : (s.threads t).pc = .swap u v rest old_dist new_dist) :
    ∃ c, Relaxing edges delta source n c s := by
  rcases h with h | ⟨next, h⟩ | h
  · exact h
  · have hplace := h.place t
    rw [Thread.Copies, hpc] at hplace
    exact hplace.elim
  · simpa [hpc] using h.place t

/-- The next frontier is empty while threads search for a bin. -/
theorem InRound.tail_of_bins {n : Nat} {s : State max_vid team}
    (h : InRound edges delta source n s) {t : Fin team} (hpc : (s.threads t).pc = .bins) :
    s.frontier_tails (!n.bodd) = 0 := by
  rcases h with ⟨c, h⟩ | ⟨next, h⟩ | h
  · exact h.tail
  · have hplace := h.place t
    rw [Thread.Copies, hpc] at hplace
    exact hplace.elim
  · simpa [hpc] using h.place t

/-- The round ends behind the copy. -/
theorem InRound.copying_of_lastBarrier {n : Nat} {s : State max_vid team}
    (h : InRound edges delta source n s) {t : Fin team} (hpc : (s.threads t).pc = .lastBarrier) :
    ∃ next, Copying edges delta source n next s := by
  rcases h with ⟨c, h⟩ | h | h
  · have hfits := h.fits t
    rw [hpc] at hfits
    exact hfits.elim
  · exact h
  · simpa [hpc] using h.place t

/-- The only finite distance at the start is the one of the source, which the frontier contains. -/
theorem inRound_start (edges : Edges max_vid) (delta : ℚ) (source : Fin max_vid)
    (memory : Nat → Fin max_vid) :
    InRound edges delta source 0 (start source memory : State max_vid team) := by
  refine .inl ⟨0, ?_⟩
  constructor
  case labels =>
    refine ⟨fun v x hx => ?_, by simp [start]⟩
    simp only [start, update_apply] at hx
    split at hx
    · rw [‹v = source›, ← WithTop.coe_injective hx]
      exact .nil
    · cases hx
  case iter => exact fun _ => rfl
  case curr => rfl
  case tail => rfl
  case single => rfl
  case low => exact fun _ b _ => Nat.zero_le b
  case next => exact fun b hb => absurd hb nofun
  case fits => exact fun _ => trivial
  case pending =>
    intro v
    rcases eq_or_ne v source with rfl | hne
    · refine .inr (.inr ⟨?_, .inl ⟨0, by simp [start], by simp [start]⟩⟩)
      simp [start, binStart]
    · exact .inl (settled_of_top (by simp [start, hne]))

theorem inRound_of_exec (hw : ∀ u, ∀ e ∈ edges u, 0 ≤ e.2) (hdelta : 0 < delta)
    {memory : Nat → Fin max_vid} {es : List (Event team)} {s : State max_vid team}
    (h : exec (step edges delta) (start source memory) es = some s) :
    ∃ n, InRound edges delta source n s := by
  have hstep (s : State max_vid team) (e : Event team) (s' : State max_vid team)
      (hs : ∃ n, InRound edges delta source n s) (_ : True) (he : step edges delta s e = some s') :
      ∃ n, InRound edges delta source n s' := by
    obtain ⟨n, hn⟩ := hs
    exact ⟨_, hn.steps hw hdelta (steps_of_step he)⟩
  exact invariant_of_step hstep ⟨0, inRound_start edges delta source memory⟩
    (along_true _ _ es) h

end AVBGraph.SSSP
