import AVBGraph.Framework.Run
import AVBGraph.Framework.Vector
import AVBGraph.Framework.ShortestWalks
import Mathlib.Data.Rat.Floor
import Mathlib.Data.Nat.Bits
import Mathlib.Data.List.FinRange
import Mathlib.Algebra.BigOperators.Fin

namespace AVBGraph.SSSP

open Framework Function

variable {max_vid team : Nat}

/-- The scan of a vertex hands out the ends of its edges and their weights. -/
abbrev Edges (max_vid : Nat) := Fin max_vid → List (Fin max_vid × ℚ)

/-- Sums up the out-degrees. -/
def numEdges (edges : Edges max_vid) : Nat :=
  ((List.finRange max_vid).map fun v => (edges v).length).sum

/-- The place of a thread in the parallel region. -/
inductive Position (max_vid : Nat)
  /-- before the test of the while loop -/
  | loop
  /-- asks the worksharing loop for an index -/
  | next
  /-- has read the frontier, before the comparison with the current bin -/
  | entry (u : Fin max_vid)
  | edges (u : Fin max_vid) (rest : List (Fin max_vid × ℚ))
  /-- has read `distances[v]` -/
  | relax (u v : Fin max_vid) (w : ℚ) (rest : List (Fin max_vid × ℚ)) (old_dist : WithTop ℚ)
  /-- before the compare-and-swap -/
  | swap (u v : Fin max_vid) (rest : List (Fin max_vid × ℚ)) (old_dist new_dist : WithTop ℚ)
  /-- after a compare-and-swap that failed -/
  | reload (u v : Fin max_vid) (rest : List (Fin max_vid × ℚ)) (new_dist : WithTop ℚ)
  /-- before the search for a bin -/
  | bins
  | barrier
  | single
  | copy
  /-- the barrier at the end of the round -/
  | lastBarrier
  | finished
  deriving DecidableEq

structure Thread (max_vid : Nat) where
  pc : Position max_vid
  local_bins : List (List (Fin max_vid))
  iter : Nat

/-- The shared variables and the threads. `unclaimed` has the indices of the worksharing loop that
no thread has taken, `single` holds until a thread enters the single region. The index
`std::numeric_limits<size_t>::max() / 2`, which no vector reaches, is `⊤`. -/
structure State (max_vid team : Nat) where
  distances : Fin max_vid → WithTop ℚ
  frontier : Nat → Fin max_vid
  unclaimed : List Nat
  shared_indexes : Bool → WithTop Nat
  frontier_tails : Bool → Nat
  single : Bool
  threads : Fin team → Thread max_vid

/-- The parallel region is entered; `memory` is what the allocated buffer contains. -/
def start (source : Fin max_vid) (memory : Nat → Fin max_vid) : State max_vid team where
  distances := update (fun _ => ⊤) source 0
  frontier := update memory 0 source
  unclaimed := List.range 1
  shared_indexes := fun odd => if odd then ⊤ else 0
  frontier_tails := fun odd => if odd then 0 else 1
  single := true
  threads := fun _ => ⟨.loop, [], 0⟩

/-- `new_dist / delta` as an index. -/
def destBin (delta : ℚ) (new_dist : WithTop ℚ) : Nat := ⌊new_dist.untopD 0 / delta⌋₊

/-- `delta * static_cast<WeightT>(curr_bin_index)` -/
def binStart (delta : ℚ) (curr_bin_index : WithTop Nat) : WithTop ℚ :=
  curr_bin_index.map fun b : Nat => delta * b

def binAt {α : Type*} (bins : List (List α)) (b : Nat) : List α := bins.getD b []

/-- `local_bins[dest_bin].push_back(v)` -/
def pushBin {α : Type*} (bins : List (List α)) (dest_bin : Nat) (v : α) : List (List α) :=
  (if dest_bin ≥ bins.length then resize bins (dest_bin + 1) [] else bins).modify dest_bin
    (· ++ [v])

/-- The first bin from `curr` on that is not empty. -/
def firstBin {α : Type*} [DecidableEq α] (bins : List (List α)) (curr : WithTop Nat) : Option Nat :=
  (List.range bins.length).find? fun i => curr ≤ (i : WithTop Nat) ∧ binAt bins i ≠ []

/-- `std::copy` to the place `copy_start`. -/
def copyTo {α : Type*} (frontier : Nat → α) (copy_start : Nat) (bin : List α) : Nat → α :=
  fun i => if i < copy_start then frontier i else (bin[i - copy_start]?).getD (frontier i)

def State.setThread (s : State max_vid team) (t : Fin team) (thread : Thread max_vid) :
    State max_vid team := { s with threads := update s.threads t thread }

/-- Only the thread moves. -/
def State.goto (s : State max_vid team) (t : Fin team) (pc : Position max_vid) :
    State max_vid team := s.setThread t { s.threads t with pc }

/-- The compare-and-swap succeeds and the vertex is put into a bin. -/
def State.improve (delta : ℚ) (s : State max_vid team) (t : Fin team) (u v : Fin max_vid)
    (rest : List (Fin max_vid × ℚ)) (new_dist : WithTop ℚ) : State max_vid team :=
  let bins := pushBin (s.threads t).local_bins (destBin delta new_dist) v
  { s with distances := update s.distances v new_dist }.setThread t
    ⟨.edges u rest, bins, (s.threads t).iter⟩

/-- The critical section, for a bin that was found. -/
def State.lowerNext (s : State max_vid team) (t : Fin team) (i : Nat) : State max_vid team :=
  let next := !(s.threads t).iter.bodd
  { s with
    shared_indexes := update s.shared_indexes next (min (s.shared_indexes next) i) }

/-- The single region resets the variables of the round that ends. -/
def State.reset (s : State max_vid team) (t : Fin team) : State max_vid team :=
  let curr := (s.threads t).iter.bodd
  { s with
    shared_indexes := update s.shared_indexes curr ⊤
    frontier_tails := update s.frontier_tails curr 0
    single := false }

/-- The thread takes its place in the next frontier and empties the bin. -/
def State.moveBin (s : State max_vid team) (t : Fin team) (b : Nat) : State max_vid team :=
  let thread := s.threads t
  let next := !thread.iter.bodd
  let bin := binAt thread.local_bins b
  let copy_start := s.frontier_tails next
  { s with
    frontier := copyTo s.frontier copy_start bin
    frontier_tails := update s.frontier_tails next (copy_start + bin.length) }.setThread t
    { thread with local_bins := thread.local_bins.set b [] }

/-- The bin that a thread in front of the copy moves to the frontier. -/
def State.copiedBin (s : State max_vid team) (t : Fin team) : Option Nat :=
  match s.shared_indexes (!(s.threads t).iter.bodd) with
  | ⊤ => none
  | WithTop.some b => if b < (s.threads t).local_bins.length then some b else none

def State.endRound (s : State max_vid team) (t : Fin team) : State max_vid team :=
  s.setThread t ⟨.lastBarrier, (s.threads t).local_bins, (s.threads t).iter + 1⟩

/-- All threads leave the first barrier of a round. -/
def State.openBarrier (s : State max_vid team) : State max_vid team :=
  { s with threads := fun t => { s.threads t with pc := .single } }

/-- All threads leave the barrier at the end of a round; `t` tells the parity of the next one, which
has a new worksharing loop and a new single region. -/
def State.nextRound (s : State max_vid team) (t : Fin team) : State max_vid team :=
  { s with
    unclaimed := List.range (s.frontier_tails (s.threads t).iter.bodd)
    single := true
    threads := fun t => { s.threads t with pc := .loop } }

/-- One action of a thread; `none` where it has to wait. -/
def advance (edges : Edges max_vid) (delta : ℚ) (s : State max_vid team) (t : Fin team) :
    Option (State max_vid team) :=
  let curr_bin_index := s.shared_indexes (s.threads t).iter.bodd
  match (s.threads t).pc with
  | .loop => some (s.goto t (if curr_bin_index = ⊤ then .finished else .next))
  | .next => if s.unclaimed = [] then some (s.goto t .bins) else none
  | .entry u =>
    some (s.goto t (if binStart delta curr_bin_index ≤ s.distances u then .edges u (edges u)
      else .next))
  | .edges _ [] => some (s.goto t .next)
  | .edges u ((v, w) :: rest) => some (s.goto t (.relax u v w rest (s.distances v)))
  | .relax u v w rest old_dist =>
    let new_dist := s.distances u + w
    some (s.goto t (if new_dist < old_dist then .swap u v rest old_dist new_dist
      else .edges u rest))
  | .swap u v rest old_dist new_dist =>
    some (if s.distances v = old_dist then s.improve delta t u v rest new_dist
      else s.goto t (.reload u v rest new_dist))
  | .reload u v rest new_dist =>
    let old_dist := s.distances v
    some (s.goto t (if old_dist ≤ new_dist then .edges u rest
      else .swap u v rest old_dist new_dist))
  | .bins =>
    match firstBin (s.threads t).local_bins curr_bin_index with
    | some i => some ((s.lowerNext t i).goto t .barrier)
    | none => some (s.goto t .barrier)
  | .barrier => if ∀ t, (s.threads t).pc = .barrier then some s.openBarrier else none
  | .single => some ((if s.single then s.reset t else s).goto t .copy)
  | .copy =>
    match s.copiedBin t with
    | some b => some ((s.moveBin t b).endRound t)
    | none => some (s.endRound t)
  | .lastBarrier => if ∀ t, (s.threads t).pc = .lastBarrier then some (s.nextRound t) else none
  | .finished => none

/-- A thread gets an index of the worksharing loop. -/
def claim (s : State max_vid team) (t : Fin team) (i : Nat) : Option (State max_vid team) :=
  if (s.threads t).pc = .next ∧ i ∈ s.unclaimed then
    some ({ s with unclaimed := s.unclaimed.erase i }.goto t (.entry (s.frontier i)))
  else none


inductive Event (team : Nat)
  | run (t : Fin team)
  | claim (t : Fin team) (i : Nat)

def step (edges : Edges max_vid) (delta : ℚ) (s : State max_vid team) :
    Event team → Option (State max_vid team)
  | .run t => advance edges delta s t
  | .claim t i => claim s t i

/-! ### The bins of a thread -/

section Bins

variable {α : Type*} {bins : List (List α)} {b : Nat} {v : α}

theorem binAt_pushBin (bins : List (List α)) (b : Nat) (v : α) (j : Nat) :
    binAt (pushBin bins b v) j = if j = b then binAt bins b ++ [v] else binAt bins j := by
  have hget (i : Nat) : (if b ≥ bins.length then resize bins (b + 1) [] else bins)[i]? =
      if b ≥ bins.length then if i < b + 1 then some (bins.getD i []) else none
      else bins[i]? := by
    split
    · exact getElem?_resize _ _ _ _
    · rfl
  simp only [binAt, pushBin, List.getD_eq_getElem?_getD, List.getElem?_modify, hget]
  rcases eq_or_ne j b with rfl | hne
  · rcases lt_or_ge j bins.length with hlt | hge
    · simp [hlt]
    · simp [hge]
  · rcases lt_or_ge b bins.length with hlt | hge
    · simp [hne, hne.symm, not_le.mpr hlt]
    · simp only [hge, hne, hne.symm, if_true, if_false]
      split
      · simp
      · simp [List.getElem?_eq_none (show bins.length ≤ j by omega)]

theorem binAt_set_nil (bins : List (List α)) (b j : Nat) :
    binAt (bins.set b []) j = if j = b then [] else binAt bins j := by
  simp only [binAt, List.getD_eq_getElem?_getD, List.getElem?_set]
  rcases eq_or_ne j b with rfl | hne
  · simp only [if_true]
    split <;> rfl
  · simp [hne, hne.symm]

theorem binAt_of_length_le (h : bins.length ≤ b) : binAt bins b = [] := by
  rw [binAt, List.getD_eq_getElem?_getD, List.getElem?_eq_none h, Option.getD_none]

/-- The number of entries in all bins. -/
def entries (bins : List (List α)) : Nat := (bins.map List.length).sum

theorem entries_set_nil (bins : List (List α)) (b : Nat) :
    entries (bins.set b []) + (binAt bins b).length = entries bins := by
  induction bins generalizing b with
  | nil => rfl
  | cons bin bins ih =>
    cases b with
    | zero =>
      simp only [entries, binAt, List.set_cons_zero, List.map_cons, List.sum_cons, List.length_nil,
        List.getD_cons_zero]
      omega
    | succ b =>
      have hrest := ih b
      simp only [entries, binAt, List.set_cons_succ, List.map_cons, List.sum_cons,
        List.getD_cons_succ] at hrest ⊢
      omega

variable [DecidableEq α] {curr : WithTop Nat} {i : Nat}

theorem firstBin_eq_some (h : firstBin bins curr = some i) :
    curr ≤ i ∧ binAt bins i ≠ [] ∧ ∀ j : Nat, curr ≤ j → binAt bins j ≠ [] → i ≤ j := by
  rw [firstBin, List.find?_range_eq_some] at h
  obtain ⟨hi, -, hbefore⟩ := h
  simp only [decide_eq_true_eq] at hi
  refine ⟨hi.1, hi.2, fun j hj hne => not_lt.mp fun hlt => ?_⟩
  have hnot := hbefore j hlt
  simp [hj, hne] at hnot

theorem firstBin_eq_none (h : firstBin bins curr = none) {j : Nat} (hj : curr ≤ j) :
    binAt bins j = [] := by
  by_contra hne
  have hlt : j < bins.length := by
    by_contra hge
    exact hne (binAt_of_length_le (not_lt.mp hge))
  rw [firstBin, List.find?_eq_none] at h
  exact h j (List.mem_range.mpr hlt) (by simp [hj, hne])

end Bins

/-! ### The bin of a distance -/

theorem binStart_natCast (delta : ℚ) (b : Nat) :
    binStart delta b = ((delta * b : ℚ) : WithTop ℚ) := rfl

/-- A distance lies in its bin. -/
theorem binStart_destBin_le {delta : ℚ} (hdelta : 0 < delta) {x : WithTop ℚ} (hx : 0 ≤ x) :
    binStart delta (destBin delta x) ≤ x := by
  cases x with
  | top => exact le_top
  | coe x =>
    have hx : 0 ≤ x := WithTop.coe_nonneg.mp hx
    have hfloor : (⌊x / delta⌋₊ : ℚ) ≤ x / delta := Nat.floor_le (by positivity)
    rw [binStart_natCast]
    exact WithTop.coe_le_coe.mpr ((le_div_iff₀' hdelta).mp hfloor)

/-- A distance behind the start of a bin belongs to this bin or to a later one. -/
theorem le_destBin {delta : ℚ} (hdelta : 0 < delta) {b : Nat} {x : ℚ}
    (hx : binStart delta b ≤ x) : b ≤ destBin delta x := by
  have hx : delta * b ≤ x := WithTop.coe_le_coe.mp hx
  exact Nat.le_floor ((le_div_iff₀' hdelta).mpr hx)

/-! ### What the transitions change -/

section Fields

variable (s : State max_vid team) (t : Fin team) (pc : Position max_vid)

@[simp] theorem goto_distances : (s.goto t pc).distances = s.distances := rfl

@[simp] theorem goto_frontier : (s.goto t pc).frontier = s.frontier := rfl

@[simp] theorem goto_unclaimed : (s.goto t pc).unclaimed = s.unclaimed := rfl

@[simp] theorem goto_shared_indexes : (s.goto t pc).shared_indexes = s.shared_indexes := rfl

@[simp] theorem goto_frontier_tails : (s.goto t pc).frontier_tails = s.frontier_tails := rfl

@[simp] theorem goto_single : (s.goto t pc).single = s.single := rfl

@[simp] theorem goto_pc_self : ((s.goto t pc).threads t).pc = pc := by
  simp [State.goto, State.setThread]

@[simp] theorem goto_threads_of_ne {t' : Fin team} (h : t' ≠ t) :
    (s.goto t pc).threads t' = s.threads t' := by
  simp [State.goto, State.setThread, h]

@[simp] theorem goto_local_bins (t' : Fin team) :
    ((s.goto t pc).threads t').local_bins = (s.threads t').local_bins := by
  rcases eq_or_ne t' t with rfl | h
  · simp [State.goto, State.setThread]
  · simp [h]

@[simp] theorem goto_iter (t' : Fin team) :
    ((s.goto t pc).threads t').iter = (s.threads t').iter := by
  rcases eq_or_ne t' t with rfl | h
  · simp [State.goto, State.setThread]
  · simp [h]

@[simp] theorem lowerNext_threads (i : Nat) : (s.lowerNext t i).threads = s.threads := rfl

@[simp] theorem reset_threads : (s.reset t).threads = s.threads := rfl

@[simp] theorem endRound_local_bins (t' : Fin team) :
    ((s.endRound t).threads t').local_bins = (s.threads t').local_bins := by
  rcases eq_or_ne t' t with rfl | h
  · simp [State.endRound, State.setThread]
  · simp [State.endRound, State.setThread, h]

section Bins

variable {s t} {delta : ℚ} {u v : Fin max_vid} {rest : List (Fin max_vid × ℚ)}
  {new_dist : WithTop ℚ}

theorem improve_local_bins (t' : Fin team) (b : Nat) :
    binAt ((s.improve delta t u v rest new_dist).threads t').local_bins b =
      if t' = t ∧ b = destBin delta new_dist then binAt (s.threads t).local_bins b ++ [v]
      else binAt (s.threads t').local_bins b := by
  rcases eq_or_ne t' t with rfl | hne
  · simp only [State.improve, State.setThread, update_self, binAt_pushBin, true_and]
    split
    · rw [‹b = _›]
    · rfl
  · simp [State.improve, State.setThread, hne]

/-- Nothing leaves a bin. -/
theorem mem_improve_local_bins {t' : Fin team} {b : Nat} {x : Fin max_vid}
    (hx : x ∈ binAt (s.threads t').local_bins b) :
    x ∈ binAt ((s.improve delta t u v rest new_dist).threads t').local_bins b := by
  rw [improve_local_bins]
  split
  · obtain ⟨rfl, -⟩ := ‹_ ∧ _›
    exact List.mem_append_left _ hx
  · exact hx

theorem moveBin_local_bins (b : Nat) (t' : Fin team) (j : Nat) :
    binAt ((s.moveBin t b).threads t').local_bins j =
      if t' = t ∧ j = b then [] else binAt (s.threads t').local_bins j := by
  rcases eq_or_ne t' t with rfl | hne
  · simp [State.moveBin, State.setThread, binAt_set_nil]
  · simp [State.moveBin, State.setThread, hne]

end Bins

theorem copiedBin_eq_some {s : State max_vid team} {t : Fin team} {b : Nat}
    (h : s.copiedBin t = some b) : s.shared_indexes (!(s.threads t).iter.bodd) = (b : WithTop Nat) ∧
      b < (s.threads t).local_bins.length := by
  unfold State.copiedBin at h
  split at h
  · cases h
  · split at h
    · obtain rfl := Option.some.inj h
      exact ⟨‹_›, ‹_›⟩
    · cases h

theorem copiedBin_eq_none {s : State max_vid team} {t : Fin team} {b : Nat}
    (h : s.copiedBin t = none)
    (hb : s.shared_indexes (!(s.threads t).iter.bodd) = (b : WithTop Nat)) :
    binAt (s.threads t).local_bins b = [] := by
  unfold State.copiedBin at h
  rw [hb] at h
  by_contra hne
  have hlt : b < (s.threads t).local_bins.length := by
    by_contra hge
    exact hne (binAt_of_length_le (not_lt.mp hge))
  exact absurd (h.symm.trans (if_pos hlt)) nofun

end Fields

/-- A sum over the threads when only one of them does something. -/
theorem sum_add_of_eq_off {f g : Fin team → Nat} {t : Fin team} (h : ∀ t', t' ≠ t → f t' = g t') :
    ∑ t', f t' + g t = ∑ t', g t' + f t := by
  have hf := Finset.add_sum_erase Finset.univ f (Finset.mem_univ t)
  have hg := Finset.add_sum_erase Finset.univ g (Finset.mem_univ t)
  have hrest : ∑ t' ∈ Finset.univ.erase t, f t' = ∑ t' ∈ Finset.univ.erase t, g t' :=
    Finset.sum_congr rfl fun t' ht' => h t' (Finset.ne_of_mem_erase ht')
  omega

/-! ### What a step can do -/

/-- The moves that change nothing but the place of the thread `t`. -/
inductive Moves (edges : Edges max_vid) (delta : ℚ) (s : State max_vid team) (t : Fin team) :
    Position max_vid → Position max_vid → Prop
  | enter : s.shared_indexes (s.threads t).iter.bodd ≠ ⊤ → Moves edges delta s t .loop .next
  | leave : s.shared_indexes (s.threads t).iter.bodd = ⊤ → Moves edges delta s t .loop .finished
  | drained : s.unclaimed = [] → Moves edges delta s t .next .bins
  | fresh (u) : binStart delta (s.shared_indexes (s.threads t).iter.bodd) ≤ s.distances u →
      Moves edges delta s t (.entry u) (.edges u (edges u))
  | stale (u) : ¬ binStart delta (s.shared_indexes (s.threads t).iter.bodd) ≤ s.distances u →
      Moves edges delta s t (.entry u) .next
  | done (u) : Moves edges delta s t (.edges u []) .next
  | load (u v) (w : ℚ) (rest) :
      Moves edges delta s t (.edges u ((v, w) :: rest)) (.relax u v w rest (s.distances v))
  | shorter (u v) (w : ℚ) (rest) {old_dist} : s.distances u + w < old_dist →
      Moves edges delta s t (.relax u v w rest old_dist)
        (.swap u v rest old_dist (s.distances u + w))
  | noShorter (u v) (w : ℚ) (rest) {old_dist} : old_dist ≤ s.distances u + w →
      Moves edges delta s t (.relax u v w rest old_dist) (.edges u rest)
  | fail (u v rest) {old_dist new_dist} : s.distances v ≠ old_dist →
      Moves edges delta s t (.swap u v rest old_dist new_dist) (.reload u v rest new_dist)
  | giveUp (u v rest) {new_dist} : s.distances v ≤ new_dist →
      Moves edges delta s t (.reload u v rest new_dist) (.edges u rest)
  | retry (u v rest) {new_dist} : new_dist < s.distances v →
      Moves edges delta s t (.reload u v rest new_dist)
        (.swap u v rest (s.distances v) new_dist)
  | noBin : firstBin (s.threads t).local_bins (s.shared_indexes (s.threads t).iter.bodd) = none →
      Moves edges delta s t .bins .barrier
  | skip : s.single = false → Moves edges delta s t .single .copy

/-- All that an event can do. -/
inductive Steps (edges : Edges max_vid) (delta : ℚ) (s : State max_vid team) :
    Event team → State max_vid team → Prop
  | move (t pc) : Moves edges delta s t (s.threads t).pc pc →
      Steps edges delta s (.run t) (s.goto t pc)
  | claim (t i) : (s.threads t).pc = .next → i ∈ s.unclaimed →
      Steps edges delta s (.claim t i)
        ({ s with unclaimed := s.unclaimed.erase i }.goto t (.entry (s.frontier i)))
  | improve (t u v rest new_dist) :
      (s.threads t).pc = .swap u v rest (s.distances v) new_dist →
      Steps edges delta s (.run t) (s.improve delta t u v rest new_dist)
  | lowerNext (t i) : (s.threads t).pc = .bins →
      firstBin (s.threads t).local_bins (s.shared_indexes (s.threads t).iter.bodd) = some i →
      Steps edges delta s (.run t) ((s.lowerNext t i).goto t .barrier)
  | openBarrier (t) : (∀ t, (s.threads t).pc = .barrier) →
      Steps edges delta s (.run t) s.openBarrier
  | reset (t) : (s.threads t).pc = .single → s.single = true →
      Steps edges delta s (.run t) ((s.reset t).goto t .copy)
  | moveBin (t b) : (s.threads t).pc = .copy → s.copiedBin t = some b →
      Steps edges delta s (.run t) ((s.moveBin t b).endRound t)
  | endRound (t) : (s.threads t).pc = .copy → s.copiedBin t = none →
      Steps edges delta s (.run t) (s.endRound t)
  | nextRound (t) : (∀ t, (s.threads t).pc = .lastBarrier) →
      Steps edges delta s (.run t) (s.nextRound t)

theorem steps_of_advance {edges : Edges max_vid} {delta : ℚ} {s s' : State max_vid team}
    {t : Fin team} (h : advance edges delta s t = some s') : Steps edges delta s (.run t) s' := by
  have hmove {pc pc' : Position max_vid} (hpc : (s.threads t).pc = pc)
      (h : Moves edges delta s t pc pc') : Steps edges delta s (.run t) (s.goto t pc') :=
    .move t pc' (hpc ▸ h)
  unfold advance at h
  dsimp only at h
  split at h
  · obtain rfl := Option.some.inj h
    split
    · exact hmove ‹_› (.leave ‹_›)
    · exact hmove ‹_› (.enter ‹_›)
  · split at h
    · obtain rfl := Option.some.inj h
      exact hmove ‹_› (.drained ‹_›)
    · cases h
  · obtain rfl := Option.some.inj h
    split
    · exact hmove ‹_› (.fresh _ ‹_›)
    · exact hmove ‹_› (.stale _ ‹_›)
  · obtain rfl := Option.some.inj h
    exact hmove ‹_› (.done _)
  · obtain rfl := Option.some.inj h
    exact hmove ‹_› (.load _ _ _ _)
  · obtain rfl := Option.some.inj h
    split
    · exact hmove ‹_› (.shorter _ _ _ _ ‹_›)
    · exact hmove ‹_› (.noShorter _ _ _ _ (not_lt.mp ‹_›))
  · obtain rfl := Option.some.inj h
    split
    · subst ‹_ = _›
      exact .improve _ _ _ _ _ ‹_›
    · exact hmove ‹_› (.fail _ _ _ ‹_›)
  · obtain rfl := Option.some.inj h
    split
    · exact hmove ‹_› (.giveUp _ _ _ ‹_›)
    · exact hmove ‹_› (.retry _ _ _ (not_le.mp ‹_›))
  · split at h
    · obtain rfl := Option.some.inj h
      exact .lowerNext _ _ ‹_› ‹_›
    · obtain rfl := Option.some.inj h
      exact hmove ‹_› (.noBin ‹_›)
  · split at h
    · obtain rfl := Option.some.inj h
      exact .openBarrier t ‹_›
    · cases h
  · obtain rfl := Option.some.inj h
    split
    · exact .reset _ ‹_› ‹_›
    · exact hmove ‹_› (.skip (Bool.eq_false_iff.mpr ‹_›))
  · split at h
    · obtain rfl := Option.some.inj h
      exact .moveBin _ _ ‹_› ‹_›
    · obtain rfl := Option.some.inj h
      exact .endRound _ ‹_› ‹_›
  · split at h
    · obtain rfl := Option.some.inj h
      exact .nextRound _ ‹_›
    · cases h
  · cases h

theorem steps_of_step {edges : Edges max_vid} {delta : ℚ} {s s' : State max_vid team}
    {e : Event team} (h : step edges delta s e = some s') : Steps edges delta s e s' := by
  cases e with
  | run t => exact steps_of_advance h
  | claim t i =>
    simp only [step, claim] at h
    split at h
    · obtain rfl := Option.some.inj h
      exact .claim t i (And.left ‹_›) (And.right ‹_›)
    · cases h

end AVBGraph.SSSP
