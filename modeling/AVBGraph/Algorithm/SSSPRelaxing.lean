import AVBGraph.Algorithm.SSSP

namespace AVBGraph.SSSP

open Framework Function

variable {max_vid team : Nat} {edges : Edges max_vid} {delta : ℚ} {source : Fin max_vid}

/-- The distances are lengths of walks, and the source has its own one. -/
structure Labels (edges : Edges max_vid) (source : Fin max_vid) (d : Fin max_vid → WithTop ℚ) :
    Prop where
  sound : Sound edges source d
  source_le : d source ≤ 0

/-- A thread at this place will relax all edges of `v` that can be improved. -/
def Position.Spreads (edges : Edges max_vid) (d : Fin max_vid → WithTop ℚ) (v : Fin max_vid) :
    Position max_vid → Prop
  | .entry u => u = v
  | .edges u rest => u = v ∧ ∀ e ∈ edges u, e ∈ rest ∨ d e.1 ≤ d u + e.2
  | .relax u x w rest _ => u = v ∧ ∀ e ∈ edges u, e = (x, w) ∨ e ∈ rest ∨ d e.1 ≤ d u + e.2
  | .swap u x rest _ new_dist | .reload u x rest new_dist =>
    u = v ∧ ∀ e ∈ edges u, e.1 = x ∧ new_dist ≤ d u + e.2 ∨ e ∈ rest ∨ d e.1 ≤ d u + e.2
  | _ => False

/-- What a thread at this place relies on before the first barrier of round `n`, whose bin is `c`;
the other places do not occur there. -/
def Position.Fits (edges : Edges max_vid) (delta : ℚ) (source : Fin max_vid) (n c : Nat)
    (s : State max_vid team) (bins : List (List (Fin max_vid))) : Position max_vid → Prop
  | .loop | .next | .entry _ => True
  | .edges u rest => binStart delta c ≤ s.distances u ∧ rest ⊆ edges u
  | .relax u v w rest old_dist =>
    binStart delta c ≤ s.distances u ∧ rest ⊆ edges u ∧ (v, w) ∈ edges u ∧
      s.distances v ≤ old_dist
  | .swap u v rest old_dist new_dist =>
    binStart delta c ≤ s.distances u ∧ rest ⊆ edges u ∧ binStart delta c ≤ new_dist ∧
      (∃ x : ℚ, new_dist = x ∧ WalkTo edges source v x) ∧ new_dist < old_dist
  | .reload u v rest new_dist =>
    binStart delta c ≤ s.distances u ∧ rest ⊆ edges u ∧ binStart delta c ≤ new_dist ∧
      ∃ x : ℚ, new_dist = x ∧ WalkTo edges source v x
  | .bins => s.unclaimed = []
  | .barrier => s.unclaimed = [] ∧
    ∀ b : Nat, binAt bins b ≠ [] → s.shared_indexes (!n.bodd) ≤ b
  | _ => False

/-- The bin of its distance contains the vertex. -/
def Waits (delta : ℚ) (s : State max_vid team) (v : Fin max_vid) : Prop :=
  ∃ t, v ∈ binAt (s.threads t).local_bins (destBin delta (s.distances v))

/-- Round `n` before its first barrier: bin `c` is processed. -/
structure Relaxing (edges : Edges max_vid) (delta : ℚ) (source : Fin max_vid) (n c : Nat)
    (s : State max_vid team) : Prop where
  labels : Labels edges source s.distances
  iter : ∀ t, (s.threads t).iter = n
  curr : s.shared_indexes n.bodd = c
  tail : s.frontier_tails (!n.bodd) = 0
  single : s.single = true
  low : ∀ t b, binAt (s.threads t).local_bins b ≠ [] → c ≤ b
  next : ∀ b : Nat, s.shared_indexes (!n.bodd) = b → ∃ t, binAt (s.threads t).local_bins b ≠ []
  fits : ∀ t, (s.threads t).pc.Fits edges delta source n c s (s.threads t).local_bins
  pending : ∀ v, Settled edges s.distances v ∨ Waits delta s v ∨
    binStart delta c ≤ s.distances v ∧
      ((∃ i ∈ s.unclaimed, s.frontier i = v) ∨ ∃ t, (s.threads t).pc.Spreads edges s.distances v)

/-- What holds of a thread behind the first barrier of round `n`. -/
def Thread.Copies (n : Nat) (single : Bool) (thread : Thread max_vid) : Prop :=
  match thread.pc with
  | .single => thread.iter = n
  | .copy => thread.iter = n ∧ single = false
  | .lastBarrier => thread.iter = n + 1 ∧ single = false
  | _ => False

theorem Thread.Copies.mono {n : Nat} {single single' : Bool} {thread : Thread max_vid}
    (h : thread.Copies n single) (hsingle : single = false → single' = false) :
    thread.Copies n single' := by
  unfold Thread.Copies at h ⊢
  split at h
  · exact h
  · exact h.imp_right hsingle
  · exact h.imp_right hsingle
  · exact h.elim

/-- Round `n` behind its first barrier: the entries of bin `next` move to the frontier. -/
structure Copying (edges : Edges max_vid) (delta : ℚ) (source : Fin max_vid) (n : Nat)
    (next : WithTop Nat) (s : State max_vid team) : Prop where
  labels : Labels edges source s.distances
  next_eq : s.shared_indexes (!n.bodd) = next
  place : ∀ t, (s.threads t).Copies n s.single
  reset : s.single = false → s.shared_indexes n.bodd = ⊤ ∧ s.frontier_tails n.bodd = 0
  low : ∀ t (b : Nat), binAt (s.threads t).local_bins b ≠ [] → next ≤ b
  filled : ∀ b : Nat, next = b → 0 < s.frontier_tails (!n.bodd) ∨
    ∃ t, binAt (s.threads t).local_bins b ≠ []
  emptied : ∀ t, (s.threads t).pc = .lastBarrier →
    ∀ b : Nat, next = b → binAt (s.threads t).local_bins b = []
  pending : ∀ v, Settled edges s.distances v ∨ Waits delta s v ∨
    binStart delta next ≤ s.distances v ∧ ∃ i < s.frontier_tails (!n.bodd), s.frontier i = v

/-- No bin is left and the threads leave the loop. -/
structure Finishing (edges : Edges max_vid) (source : Fin max_vid) (n : Nat)
    (s : State max_vid team) : Prop where
  labels : Labels edges source s.distances
  iter : ∀ t, (s.threads t).iter = n
  curr : s.shared_indexes n.bodd = ⊤
  place : ∀ t, (s.threads t).pc = .loop ∨ (s.threads t).pc = .finished
  emptied : ∀ t b, binAt (s.threads t).local_bins b = []
  settled : ∀ v, Settled edges s.distances v

/-- The three parts of a run. -/
def InRound (edges : Edges max_vid) (delta : ℚ) (source : Fin max_vid) (n : Nat)
    (s : State max_vid team) : Prop :=
  (∃ c, Relaxing edges delta source n c s) ∨ (∃ next, Copying edges delta source n next s) ∨
    Finishing edges source n s

/-- The round after a step of round `n`. -/
def State.roundAfter (s : State max_vid team) (n : Nat) : Nat :=
  if ∀ t, (s.threads t).pc = .lastBarrier then n + 1 else n

section Places

variable {n c : Nat} {s s' : State max_vid team} {t : Fin team} {pc pc' : Position max_vid}
  {bins : List (List (Fin max_vid))} {d d' : Fin max_vid → WithTop ℚ} {v : Fin max_vid}

theorem roundAfter_of_ne (h : (s.threads t).pc ≠ .lastBarrier) : s.roundAfter n = n :=
  if_neg fun hall => h (hall t)

theorem roundAfter_of_all (h : ∀ t, (s.threads t).pc = .lastBarrier) : s.roundAfter n = n + 1 :=
  if_pos h

theorem Moves.roundAfter (hm : Moves edges delta s t (s.threads t).pc pc) :
    s.roundAfter n = n := by
  refine roundAfter_of_ne (t := t) fun hpc => ?_
  rw [hpc] at hm
  cases hm

/-- Smaller distances elsewhere do not take away what a thread is going to do. -/
theorem Position.Spreads.mono (h : pc.Spreads edges d v) (hle : ∀ u, d' u ≤ d u)
    (hv : d' v = d v) : pc.Spreads edges d' v := by
  have htight {e : Fin max_vid × ℚ} (he : d e.1 ≤ d v + e.2) : d' e.1 ≤ d' v + e.2 := by
    rw [hv]
    exact (hle e.1).trans he
  cases pc with
  | entry u => exact h
  | edges u rest =>
    obtain ⟨rfl, h⟩ := h
    exact ⟨rfl, fun e he => (h e he).imp_right htight⟩
  | relax u x w rest old_dist =>
    obtain ⟨rfl, h⟩ := h
    exact ⟨rfl, fun e he => (h e he).imp_right (Or.imp_right htight)⟩
  | swap u x rest old_dist new_dist | reload u x rest new_dist =>
    obtain ⟨rfl, h⟩ := h
    refine ⟨rfl, fun e he => (h e he).imp (And.imp_right fun hnew => ?_) (Or.imp_right htight)⟩
    rwa [hv]
  | _ => exact h

theorem Position.Fits.mono (h : pc.Fits edges delta source n c s bins)
    (hle : ∀ u, s'.distances u ≤ s.distances u)
    (hlow : ∀ u, binStart delta c ≤ s.distances u → binStart delta c ≤ s'.distances u)
    (hunclaimed : s.unclaimed = [] → s'.unclaimed = [])
    (hnext : s'.shared_indexes (!n.bodd) ≤ s.shared_indexes (!n.bodd)) :
    pc.Fits edges delta source n c s' bins := by
  cases pc with
  | edges u rest => exact h.imp_left (hlow u)
  | relax u v w rest old_dist =>
    obtain ⟨hu, hrest, he, hold⟩ := h
    exact ⟨hlow u hu, hrest, he, (hle v).trans hold⟩
  | swap u v rest old_dist new_dist | reload u v rest new_dist => exact h.imp_left (hlow u)
  | bins => exact hunclaimed h
  | barrier => exact ⟨hunclaimed h.1, fun b hb => hnext.trans (h.2 b hb)⟩
  | _ => exact h

/-- A move comes to a place whose conditions hold. -/
theorem Relaxing.fits_of_moves (hw : ∀ u, ∀ e ∈ edges u, 0 ≤ e.2)
    (h : Relaxing edges delta source n c s) (hm : Moves edges delta s t pc pc')
    (hfits : pc.Fits edges delta source n c s (s.threads t).local_bins) :
    pc'.Fits edges delta source n c s (s.threads t).local_bins := by
  have hcurr : s.shared_indexes (s.threads t).iter.bodd = c := by rw [h.iter t, h.curr]
  cases hm with
  | enter => trivial
  | leave htop => exact absurd (hcurr.symm.trans htop) nofun
  | drained hnil => exact hnil
  | fresh u hlow =>
    rw [hcurr] at hlow
    exact ⟨hlow, List.Subset.refl _⟩
  | stale => trivial
  | done => trivial
  | load u v w rest =>
    exact ⟨hfits.1, fun e he => hfits.2 (List.mem_cons_of_mem _ he),
      hfits.2 List.mem_cons_self, le_refl _⟩
  | shorter u v w rest hlt =>
    obtain ⟨hu, hrest, hedge, -⟩ := hfits
    have hw : (0 : WithTop ℚ) ≤ w := WithTop.coe_nonneg.mpr (hw u _ hedge)
    refine ⟨hu, hrest, hu.trans (le_add_of_nonneg_right hw), ?_, hlt⟩
    cases hd : s.distances u with
    | top =>
      rw [hd, WithTop.top_add] at hlt
      exact absurd hlt not_top_lt
    | coe x => exact ⟨x + w, rfl, (h.labels.sound u x hd).snoc hedge⟩
  | noShorter => exact ⟨hfits.1, hfits.2.1⟩
  | fail =>
    obtain ⟨hu, hrest, hnew, hwalk, -⟩ := hfits
    exact ⟨hu, hrest, hnew, hwalk⟩
  | giveUp => exact ⟨hfits.1, hfits.2.1⟩
  | retry u v rest hlt =>
    obtain ⟨hu, hrest, hnew, hwalk⟩ := hfits
    exact ⟨hu, hrest, hnew, hwalk, hlt⟩
  | noBin hnone =>
    refine ⟨hfits, fun b hb => absurd (firstBin_eq_none hnone ?_) hb⟩
    rw [hcurr]
    exact_mod_cast h.low t b hb
  | skip => exact hfits.elim

/-- A move goes on with the work on a vertex or completes it. -/
theorem Relaxing.spreads_of_moves (h : Relaxing edges delta source n c s)
    (hm : Moves edges delta s t pc pc')
    (hfits : pc.Fits edges delta source n c s (s.threads t).local_bins)
    (hlow : binStart delta c ≤ s.distances v) (hs : pc.Spreads edges s.distances v) :
    Settled edges s.distances v ∨ pc'.Spreads edges s.distances v := by
  have hcurr : s.shared_indexes (s.threads t).iter.bodd = c := by rw [h.iter t, h.curr]
  cases hm with
  | enter | leave | drained | noBin | skip => exact hs.elim
  | fresh u =>
    obtain rfl := hs
    exact .inr ⟨rfl, fun e he => .inl he⟩
  | stale u hnot =>
    obtain rfl := hs
    rw [hcurr] at hnot
    exact absurd hlow hnot
  | done u =>
    obtain ⟨rfl, hs⟩ := hs
    exact .inl fun e he => (hs e he).resolve_left List.not_mem_nil
  | load u x w rest =>
    obtain ⟨rfl, hs⟩ := hs
    refine .inr ⟨rfl, fun e he => ?_⟩
    rw [← or_assoc, ← List.mem_cons]
    exact hs e he
  | shorter u x w rest =>
    obtain ⟨rfl, hs⟩ := hs
    refine .inr ⟨rfl, fun e he => (hs e he).imp_left ?_⟩
    rintro rfl
    exact ⟨rfl, le_refl _⟩
  | noShorter u x w rest hge =>
    obtain ⟨rfl, hs⟩ := hs
    refine .inr ⟨rfl, fun e he => ?_⟩
    rcases hs e he with rfl | hs
    · exact .inr (hfits.2.2.2.trans hge)
    · exact hs
  | fail => exact .inr hs
  | giveUp u x rest hle =>
    obtain ⟨rfl, hs⟩ := hs
    refine .inr ⟨rfl, fun e he => ?_⟩
    rcases hs e he with ⟨rfl, hnew⟩ | hs
    · exact .inr (hle.trans hnew)
    · exact hs
  | retry => exact .inr hs

end Places

/-! ### Before the first barrier -/

namespace Relaxing

variable {n c : Nat} {s : State max_vid team} {t : Fin team}

theorem move (hw : ∀ u, ∀ e ∈ edges u, 0 ≤ e.2) (h : Relaxing edges delta source n c s)
    {pc : Position max_vid} (hm : Moves edges delta s t (s.threads t).pc pc) :
    Relaxing edges delta source n c (s.goto t pc) where
  labels := h.labels
  iter := by simpa using h.iter
  curr := h.curr
  tail := h.tail
  single := h.single
  low := by simpa using h.low
  next := by simpa using h.next
  fits := by
    intro t'
    rw [goto_local_bins]
    have hmono {pc' : Position max_vid} {bins : List (List (Fin max_vid))}
        (hfits : pc'.Fits edges delta source n c s bins) :
        pc'.Fits edges delta source n c (s.goto t pc) bins :=
      hfits.mono (fun _ => le_refl _) (fun _ => id) id (le_refl _)
    rcases eq_or_ne t' t with rfl | hne
    · rw [goto_pc_self]
      exact hmono (h.fits_of_moves hw hm (h.fits t'))
    · rw [goto_threads_of_ne s t pc hne]
      exact hmono (h.fits t')
  pending := by
    intro v
    simp only [goto_distances, goto_unclaimed, goto_frontier, Waits, goto_local_bins]
    rcases h.pending v with hset | hwait | ⟨hlow, hqueue | ⟨t', hspread⟩⟩
    · exact .inl hset
    · exact .inr (.inl hwait)
    · exact .inr (.inr ⟨hlow, .inl hqueue⟩)
    · rcases eq_or_ne t' t with rfl | hne
      · refine (h.spreads_of_moves hm (h.fits t') hlow hspread).imp_right fun hspread => ?_
        exact .inr ⟨hlow, .inr ⟨t', by rwa [goto_pc_self]⟩⟩
      · exact .inr (.inr ⟨hlow, .inr ⟨t', by rwa [goto_threads_of_ne s t pc hne]⟩⟩)

/-- An entry of the frontier is taken over by a thread. -/
theorem claim (h : Relaxing edges delta source n c s) {i : Nat} (hpc : (s.threads t).pc = .next) :
    Relaxing edges delta source n c
      ({ s with unclaimed := s.unclaimed.erase i }.goto t (.entry (s.frontier i))) where
  labels := h.labels
  iter := by simpa using h.iter
  curr := h.curr
  tail := h.tail
  single := h.single
  low := by simpa using h.low
  next := by simpa using h.next
  fits := by
    intro t'
    rw [goto_local_bins]
    rcases eq_or_ne t' t with rfl | hne
    · rw [goto_pc_self]
      trivial
    · rw [goto_threads_of_ne _ t _ hne]
      refine (h.fits t').mono (fun _ => le_refl _) (fun _ => id) (fun hnil => ?_) (le_refl _)
      rw [goto_unclaimed, hnil, List.erase_nil]
  pending := by
    intro v
    simp only [goto_distances, goto_unclaimed, goto_frontier, Waits, goto_local_bins]
    rcases h.pending v with hset | hwait | ⟨hlow, ⟨j, hj, rfl⟩ | ⟨t', hspread⟩⟩
    · exact .inl hset
    · exact .inr (.inl hwait)
    · rcases eq_or_ne j i with rfl | hne
      · exact .inr (.inr ⟨hlow, .inr ⟨t, by rw [goto_pc_self]; rfl⟩⟩)
      · exact .inr (.inr ⟨hlow, .inl ⟨j, (List.mem_erase_of_ne hne).mpr hj, rfl⟩⟩)
    · have hne : t' ≠ t := by
        rintro rfl
        rw [hpc] at hspread
        exact hspread
      exact .inr (.inr ⟨hlow, .inr ⟨t', by rwa [goto_threads_of_ne _ t _ hne]⟩⟩)

section Improve

variable {u v : Fin max_vid} {rest : List (Fin max_vid × ℚ)} {new_dist : WithTop ℚ}

/-- A successful compare-and-swap: the vertex waits in the bin of its new distance, and all that
others are going to do stays useful. -/
theorem improve (hdelta : 0 < delta) (h : Relaxing edges delta source n c s)
    (hpc : (s.threads t).pc = .swap u v rest (s.distances v) new_dist) :
    Relaxing edges delta source n c (s.improve delta t u v rest new_dist) := by
  have hfits := h.fits t
  rw [hpc] at hfits
  obtain ⟨hu, hrest, hnew, ⟨x, rfl, hwalk⟩, hlt⟩ := hfits
  have hd : (s.improve delta t u v rest x).distances = update s.distances v x := rfl
  have hle (y : Fin max_vid) : (s.improve delta t u v rest x).distances y ≤ s.distances y := by
    rw [hd, update_apply]
    split
    · rw [‹y = v›]
      exact hlt.le
    · exact le_refl _
  have hlow (y : Fin max_vid) (hy : binStart delta c ≤ s.distances y) :
      binStart delta c ≤ (s.improve delta t u v rest x).distances y := by
    rw [hd, update_apply]
    split
    · exact hnew
    · exact hy
  have hother {t' : Fin team} (hne : t' ≠ t) :
      (s.improve delta t u v rest x).threads t' = s.threads t' := by
    simp [State.improve, State.setThread, hne]
  have hself : ((s.improve delta t u v rest x).threads t).pc = .edges u rest := by
    simp [State.improve, State.setThread]
  constructor
  case labels =>
    refine ⟨fun y z hz => ?_, (hle source).trans h.labels.source_le⟩
    rw [hd, update_apply] at hz
    split at hz
    · rw [‹y = v›, ← WithTop.coe_injective hz]
      exact hwalk
    · exact h.labels.sound y z hz
  case iter =>
    intro t'
    rcases eq_or_ne t' t with rfl | hne
    · simpa [State.improve, State.setThread] using h.iter t'
    · rw [hother hne]
      exact h.iter t'
  case curr => exact h.curr
  case tail => exact h.tail
  case single => exact h.single
  case low =>
    intro t' b hb
    rw [improve_local_bins] at hb
    split at hb
    · obtain ⟨-, rfl⟩ := ‹_ ∧ _›
      exact le_destBin hdelta hnew
    · exact h.low t' b hb
  case next =>
    intro b hb
    obtain ⟨t', ht'⟩ := h.next b hb
    obtain ⟨y, hy⟩ := List.exists_mem_of_ne_nil _ ht'
    exact ⟨t', List.ne_nil_of_mem (mem_improve_local_bins hy)⟩
  case fits =>
    intro t'
    rcases eq_or_ne t' t with rfl | hne
    · rw [hself]
      exact ⟨hlow u hu, hrest⟩
    · rw [hother hne]
      exact (h.fits t').mono hle hlow id (le_refl _)
  case pending =>
    intro y
    rcases eq_or_ne y v with rfl | hy
    · refine .inr (.inl ⟨t, ?_⟩)
      rw [hd, update_self, improve_local_bins, if_pos ⟨rfl, rfl⟩]
      exact List.mem_append_right _ List.mem_cons_self
    have heq : (s.improve delta t u v rest x).distances y = s.distances y := by
      rw [hd, update_of_ne hy]
    rcases h.pending y with hset | ⟨t', hwait⟩ | ⟨hlowy, hqueue | ⟨t', hspread⟩⟩
    · exact .inl (hset.mono hle heq)
    · exact .inr (.inl ⟨t', by rw [heq]; exact mem_improve_local_bins hwait⟩)
    · exact .inr (.inr ⟨hlow y hlowy, .inl hqueue⟩)
    · refine .inr (.inr ⟨hlow y hlowy, .inr ⟨t', ?_⟩⟩)
      rcases eq_or_ne t' t with rfl | hne
      · rw [hpc] at hspread
        obtain ⟨rfl, hspread⟩ := hspread
        rw [hself]
        refine ⟨rfl, fun e he => ?_⟩
        rw [heq]
        rcases hspread e he with ⟨hv, hle'⟩ | hrest | htight
        · right
          rwa [hd, hv, update_self]
        · exact .inl hrest
        · exact .inr ((hle e.1).trans htight)
      · rw [hother hne]
        exact hspread.mono hle heq

end Improve

/-- A thread that has found a bin lowers the next index and waits. -/
theorem lowerNext (h : Relaxing edges delta source n c s) {i : Nat}
    (hpc : (s.threads t).pc = .bins)
    (hfirst : firstBin (s.threads t).local_bins (s.shared_indexes (s.threads t).iter.bodd) =
      some i) :
    Relaxing edges delta source n c ((s.lowerNext t i).goto t .barrier) := by
  rw [h.iter t, h.curr] at hfirst
  obtain ⟨-, hne, hmin⟩ := firstBin_eq_some hfirst
  have hshared : (s.lowerNext t i).shared_indexes =
      update s.shared_indexes (!n.bodd) (min (s.shared_indexes (!n.bodd)) i) := by
    simp only [State.lowerNext, h.iter t]
  have hnext : (s.lowerNext t i).shared_indexes (!n.bodd) =
      min (s.shared_indexes (!n.bodd)) i := by rw [hshared, update_self]
  have hunclaimed : s.unclaimed = [] := by
    have hfits := h.fits t
    rwa [hpc] at hfits
  constructor
  case labels => exact h.labels
  case iter => simpa using h.iter
  case curr =>
    rw [goto_shared_indexes, hshared, update_of_ne (by simp)]
    exact h.curr
  case tail => exact h.tail
  case single => exact h.single
  case low => simpa using h.low
  case next =>
    intro b hb
    rw [goto_shared_indexes, hnext] at hb
    simp only [goto_local_bins]
    rcases min_choice (s.shared_indexes (!n.bodd)) (i : WithTop Nat) with hmin | hmin
    · exact h.next b (hmin ▸ hb)
    · obtain rfl : i = b := by exact_mod_cast hmin ▸ hb
      exact ⟨t, hne⟩
  case fits =>
    intro t'
    rw [goto_local_bins]
    rcases eq_or_ne t' t with rfl | hne'
    · rw [goto_pc_self]
      refine ⟨hunclaimed, fun b hb => ?_⟩
      rw [goto_shared_indexes, hnext]
      refine (min_le_right _ _).trans ?_
      exact_mod_cast hmin b (by exact_mod_cast h.low t' b hb) hb
    · rw [goto_threads_of_ne _ t _ hne']
      refine (h.fits t').mono (fun _ => le_refl _) (fun _ => id) id ?_
      rw [goto_shared_indexes, hnext]
      exact min_le_left _ _
  case pending =>
    intro v
    simp only [goto_distances, goto_unclaimed, goto_frontier, Waits, goto_local_bins]
    rcases h.pending v with hset | hwait | ⟨hlow, hqueue | ⟨t', hspread⟩⟩
    · exact .inl hset
    · exact .inr (.inl hwait)
    · exact .inr (.inr ⟨hlow, .inl hqueue⟩)
    · have hne' : t' ≠ t := by
        rintro rfl
        rw [hpc] at hspread
        exact hspread
      exact .inr (.inr ⟨hlow, .inr ⟨t', by rwa [goto_threads_of_ne _ t _ hne']⟩⟩)

/-- At the first barrier the next index is the least bin that is not empty, and every vertex that
is not settled waits in a bin. -/
theorem openBarrier (h : Relaxing edges delta source n c s) (t : Fin team)
    (hall : ∀ t, (s.threads t).pc = .barrier) :
    Copying edges delta source n (s.shared_indexes (!n.bodd)) s.openBarrier := by
  have hbarrier (t : Fin team) : s.unclaimed = [] ∧
      ∀ b : Nat, binAt (s.threads t).local_bins b ≠ [] → s.shared_indexes (!n.bodd) ≤ b := by
    have hfits := h.fits t
    rwa [hall t] at hfits
  constructor
  case labels => exact h.labels
  case next_eq => rfl
  case place => exact h.iter
  case reset => exact fun hsingle => absurd (h.single.symm.trans hsingle) nofun
  case low => exact fun t => (hbarrier t).2
  case filled => exact fun b hb => .inr (h.next b hb)
  case emptied => exact fun _ hpc => absurd hpc nofun
  case pending =>
    intro v
    rcases h.pending v with hset | hwait | ⟨-, ⟨i, hi, -⟩ | ⟨t', hspread⟩⟩
    · exact .inl hset
    · exact .inr (.inl hwait)
    · rw [(hbarrier t).1] at hi
      exact absurd hi List.not_mem_nil
    · rw [hall t'] at hspread
      exact hspread.elim

/-- What a step can do before the first barrier. -/
theorem steps (hw : ∀ u, ∀ e ∈ edges u, 0 ≤ e.2) (hdelta : 0 < delta)
    (h : Relaxing edges delta source n c s) {e : Event team}
    {s' : State max_vid team} (hs : Steps edges delta s e s') :
    InRound edges delta source (s.roundAfter n) s' := by
  have hplace {t : Fin team} {pc : Position max_vid} (hpc : (s.threads t).pc = pc) :
      pc.Fits edges delta source n c s (s.threads t).local_bins := hpc ▸ h.fits t
  have hround (t : Fin team) : s.roundAfter n = n :=
    roundAfter_of_ne (t := t) fun hpc => hplace hpc
  cases hs with
  | move t pc hm =>
    rw [hround t]
    exact .inl ⟨c, h.move hw hm⟩
  | claim t i hpc =>
    rw [hround t]
    exact .inl ⟨c, h.claim hpc⟩
  | improve t u v rest new_dist hpc =>
    rw [hround t]
    exact .inl ⟨c, h.improve hdelta hpc⟩
  | lowerNext t i hpc hfirst =>
    rw [hround t]
    exact .inl ⟨c, h.lowerNext hpc hfirst⟩
  | openBarrier t hall =>
    rw [hround t]
    exact .inr (.inl ⟨_, h.openBarrier t hall⟩)
  | reset t hpc => exact (hplace hpc).elim
  | moveBin t b hpc => exact (hplace hpc).elim
  | endRound t hpc => exact (hplace hpc).elim
  | nextRound t hall => exact (hplace (hall t)).elim

end Relaxing

end AVBGraph.SSSP
