import AVBGraph.Framework.Hops
import Mathlib.Data.List.Perm.Basic
import Mathlib.Data.List.Nodup
import Mathlib.Data.List.Range
import Mathlib.Tactic.SplitIfs
import Mathlib.Tactic.ByContra
import Mathlib.Algebra.Order.Ring.Int

namespace AVBGraph

open Framework Function

namespace BFS

/-- The snapshot that a search reads: `max_vid` vertices, the destinations that a scan of a
vertex hands out, and the degrees that check_degree returns. A degree of INT64_MAX would mean
that the vertex does not exist. -/
structure Snapshot where
  maxVid : Nat
  edges : Nat → List Nat
  degree : Nat → Nat
  edges_lt : ∀ u < maxVid, ∀ v ∈ edges u, v < maxVid
  symm : ∀ u < maxVid, ∀ v ∈ edges u, u ∈ edges v
  degree_lt : ∀ v, degree v < 2 ^ 63 - 1

/-- std::numeric_limits<int64_t>::max(). -/
def int64Max : Int := 2 ^ 63 - 1

/-- gapbs::SlidingQueue: all that was pushed, and the window between `outStart` and `outEnd`. -/
structure SlidingQueue where
  shared : List Nat
  outStart : Nat
  outEnd : Nat

namespace SlidingQueue

def new : SlidingQueue := ⟨[], 0, 0⟩

def pushBack (q : SlidingQueue) (v : Nat) : SlidingQueue := { q with shared := q.shared ++ [v] }

def slideWindow (q : SlidingQueue) : SlidingQueue :=
  { q with outStart := q.outEnd, outEnd := q.shared.length }

def window (q : SlidingQueue) : List Nat := (q.shared.take q.outEnd).drop q.outStart

def size (q : SlidingQueue) : Nat := q.outEnd - q.outStart

def empty (q : SlidingQueue) : Bool := q.outStart = q.outEnd

end SlidingQueue

/-- The order in which the threads of a step happen to work: the edges of a top-down step, the
pushes of their buffers, the vertices of a bottom-up step and the edges of each of them. A step
is named by its distance. -/
structure Schedule where
  pairs : Nat → List (Nat × Nat) → List (Nat × Nat)
  pushes : Nat → List Nat → List Nat
  vertices : Nat → List Nat → List Nat
  edges : Nat → Nat → List Nat → List Nat
  pairs_perm : ∀ d l, (pairs d l).Perm l
  pushes_perm : ∀ d l, (pushes d l).Perm l
  vertices_perm : ∀ d l, (vertices d l).Perm l
  edges_perm : ∀ d u l, (edges d u l).Perm l

structure State where
  distances : Nat → Int
  queue : SlidingQueue
  front : Nat → Bool
  curr : Nat → Bool
  scoutCount : Int
  edgesToCheck : Int
  distance : Nat

/-- The loop of init_distance and the number that it returns. -/
def initDistance (g : Snapshot) : (Nat → Int) × Int :=
  let mark := fun n : Nat =>
    if (g.degree n : Int) = int64Max then (g.degree n : Int)
    else if g.degree n ≠ 0 then -(g.degree n : Int) else -1
  let total := ((List.range g.maxVid).map fun n =>
    if (g.degree n : Int) = int64Max then 0 else g.degree n).sum
  (mark, (total / 2 : Nat))

/-- What a top-down step has done: its pushes and its scout count. -/
structure TDStep where
  distances : Nat → Int
  discovered : List Nat
  scoutCount : Int

/-- The callback of do_bfs_TDStep for one edge; the compare-and-swap is one step. -/
def tdEdge (distance : Nat) (t : TDStep) (edge : Nat × Nat) : TDStep :=
  let currVal := t.distances edge.2
  if currVal < 0 then
    ⟨update t.distances edge.2 distance, t.discovered ++ [edge.2], t.scoutCount + -currVal⟩
  else t

/-- do_bfs_TDStep. -/
def doBfsTDStep (g : Snapshot) (sched : Schedule) (s : State) : State :=
  let work := s.queue.window.flatMap fun u => (g.edges u).map fun v => (u, v)
  let t := (sched.pairs s.distance work).foldl (tdEdge s.distance) ⟨s.distances, [], 0⟩
  { s with
    distances := t.distances
    queue := (sched.pushes s.distance t.discovered).foldl .pushBack s.queue
    scoutCount := t.scoutCount }

/-- What a bottom-up step has done. -/
structure BUStep where
  distances : Nat → Int
  next : Nat → Bool
  awakeCount : Nat

/-- The round of do_bfs_BUStep for one vertex; its scan stops at the first neighbour in
`front`. -/
def buVertex (g : Snapshot) (sched : Schedule) (distance : Nat) (front : Nat → Bool) (t : BUStep)
    (u : Nat) : BUStep :=
  if t.distances u = int64Max then t
  else if t.distances u < 0 then
    if (sched.edges distance u (g.edges u)).any front then
      ⟨update t.distances u distance, update t.next u true, t.awakeCount + 1⟩
    else t
  else t

/-- do_bfs_BUStep with the swap of the bitmaps behind it; `next` is reset first. -/
def doBfsBUStep (g : Snapshot) (sched : Schedule) (s : State) : Nat × State :=
  let t := (sched.vertices s.distance (List.range g.maxVid)).foldl
    (buVertex g sched s.distance s.front) ⟨s.distances, fun _ => false, 0⟩
  (t.awakeCount, { s with
    distances := t.distances
    front := t.next
    curr := s.front
    distance := s.distance + 1 })

/-- The do-while loop of the bottom-up phase; `none` when the fuel runs out. -/
def buLoop (g : Snapshot) (sched : Schedule) (numVertices beta : Nat) :
    Nat → Nat → State → Option State
  | 0, _, _ => none
  | fuel + 1, oldAwakeCount, s =>
    let r := doBfsBUStep g sched s
    if oldAwakeCount ≤ r.1 ∨ numVertices / beta < r.1 then
      buLoop g sched numVertices beta fuel r.1 r.2
    else some r.2

/-- The bottom-up phase: queue to bitmap, the loop, and the bitmap back to the queue. -/
def bottomUp (g : Snapshot) (sched : Schedule) (numVertices beta fuel : Nat) (s : State) :
    Option State :=
  let s := { s with front := s.queue.window.foldl (fun f u => update f u true) s.front }
  let awakeCount := s.queue.size
  let s := { s with queue := s.queue.slideWindow }
  (buLoop g sched numVertices beta fuel awakeCount s).map fun s =>
    let found := (List.range g.maxVid).filter s.front
    let queue := (sched.pushes s.distance found).foldl .pushBack s.queue
    { s with queue := queue.slideWindow, scoutCount := 1 }

/-- A top-down round of the main loop. -/
def topDown (g : Snapshot) (sched : Schedule) (s : State) : State :=
  let s := { s with edgesToCheck := s.edgesToCheck - s.scoutCount }
  let s := doBfsTDStep g sched s
  { s with queue := s.queue.slideWindow, distance := s.distance + 1 }

/-- The main loop of bfs; `none` when the fuel runs out. -/
def bfsLoop (g : Snapshot) (sched : Schedule) (numVertices alpha beta fuel : Nat) :
    Nat → State → Option State
  | 0, _ => none
  | rounds + 1, s =>
    if s.queue.empty then some s
    else if s.edgesToCheck.tdiv alpha < s.scoutCount then
      (bottomUp g sched numVertices beta fuel s).bind
        (bfsLoop g sched numVertices alpha beta fuel rounds)
    else bfsLoop g sched numVertices alpha beta fuel rounds (topDown g sched s)

/-- The state before the main loop of bfs. -/
def start (g : Snapshot) (root : Nat) : State :=
  let r := initDistance g
  { distances := update r.1 root 0
    queue := (SlidingQueue.new.pushBack root).slideWindow
    front := fun _ => false
    curr := fun _ => false
    scoutCount := g.degree root
    edgesToCheck := r.2
    distance := 1 }

/-- bfs, with the fuel of its two loops. -/
def bfs (g : Snapshot) (sched : Schedule) (numVertices alpha beta root fuel : Nat) :
    Option State :=
  bfsLoop g sched numVertices alpha beta fuel fuel (start g root)

/-! ### The distances that a round leaves -/

section Levels

variable (g : Snapshot) (root : Nat)

/-- The vertices at `k` edges from the root. -/
def Level (k v : Nat) : Prop := Hop (fun u v => v ∈ g.edges u) root k v

/-- The distances once all levels up to `k` are known. -/
structure Marked (k : Nat) (distances : Nat → Int) : Prop where
  level : ∀ j ≤ k, ∀ v, Level g root j v → distances v = j
  visited : ∀ v < g.maxVid, 0 ≤ distances v → ∃ j ≤ k, Level g root j v

end Levels

variable {g : Snapshot} {sched : Schedule} {root k v : Nat} {distances : Nat → Int} {s : State}

theorem Level.lt (hroot : root < g.maxVid) (h : Level g root k v) : v < g.maxVid := by
  obtain ⟨hwalk, -⟩ := h
  induction hwalk with
  | root => exact hroot
  | step _ huv ih => exact g.edges_lt _ ih _ huv

theorem Marked.neg_iff (h : Marked g root k distances) (hv : v < g.maxVid) :
    distances v < 0 ↔ ∀ j ≤ k, ¬Level g root j v := by
  constructor
  · intro hneg j hj hlevel
    have := h.level j hj v hlevel
    omega
  · intro hno
    by_contra hpos
    obtain ⟨j, hj, hlevel⟩ := h.visited v hv (by omega)
    exact hno j hj hlevel

/-- The next level is what a step can newly reach. -/
theorem Marked.level_succ (h : Marked g root k distances) (hv : v < g.maxVid) :
    Level g root (k + 1) v ↔ (∃ u, Level g root k u ∧ v ∈ g.edges u) ∧ distances v < 0 := by
  rw [h.neg_iff hv]
  exact hop_succ

/-- A step that gives the next level its distance and leaves the others alone. -/
theorem Marked.next (h : Marked g root k distances) {distances' : Nat → Int}
    (hin : ∀ v, Level g root (k + 1) v → distances' v = (k + 1 : Nat))
    (hout : ∀ v, ¬Level g root (k + 1) v → distances' v = distances v) :
    Marked g root (k + 1) distances' := by
  constructor
  · intro j hj v hlevel
    rcases Nat.le_succ_iff.mp hj with hle | rfl
    · rw [hout v fun hnext => by have := hlevel.unique hnext; omega]
      exact h.level j hle v hlevel
    · exact hin v hlevel
  · intro v hv hpos
    by_cases hnext : Level g root (k + 1) v
    · exact ⟨k + 1, Nat.le_refl _, hnext⟩
    · rw [hout v hnext] at hpos
      obtain ⟨j, hj, hlevel⟩ := h.visited v hv hpos
      exact ⟨j, Nat.le_succ_of_le hj, hlevel⟩

/-- A bit of an earlier level finds nothing: all neighbours of its vertex have a distance. -/
theorem Marked.any_front (hroot : root < g.maxVid) (h : Marked g root k distances)
    {front : Nat → Bool} (hlow : ∀ v, front v = true → ∃ j ≤ k, Level g root j v)
    (hall : ∀ v, Level g root k v → front v = true) (hv : v < g.maxVid) :
    (∃ w ∈ g.edges v, front w = true) ∧ distances v < 0 ↔ Level g root (k + 1) v := by
  constructor
  · rintro ⟨⟨w, hw, hfront⟩, hneg⟩
    obtain ⟨j, hj, hlevel⟩ := hlow w hfront
    have hback : v ∈ g.edges w := g.symm v hv w hw
    rcases Nat.lt_or_eq_of_le hj with hlt | rfl
    · obtain ⟨i, hi, hhop⟩ := (hlevel.1.step hback).exists_hop
      exact absurd hhop ((h.neg_iff hv).mp hneg i (by omega))
    · exact (h.level_succ hv).mpr ⟨⟨w, hlevel, hback⟩, hneg⟩
  · intro hnext
    obtain ⟨⟨u, hu, huv⟩, hneg⟩ := (h.level_succ hv).mp hnext
    exact ⟨⟨u, g.symm u (hu.lt hroot) v huv, hall u hu⟩, hneg⟩

/-! ### One step of each kind -/

/-- The edges of a top-down step in any order: the new vertices, each once. -/
theorem tdFold (d : Nat) (l : List (Nat × Nat)) (t : TDStep) :
    ∃ new : List Nat, new.Nodup ∧
      (∀ v, v ∈ new ↔ (∃ u, (u, v) ∈ l) ∧ t.distances v < 0) ∧
      (l.foldl (tdEdge d) t).discovered = t.discovered ++ new ∧
      ∀ v, (l.foldl (tdEdge d) t).distances v = if v ∈ new then (d : Int) else t.distances v := by
  induction l generalizing t with
  | nil => exact ⟨[], List.nodup_nil, by simp, by simp, by simp⟩
  | cons edge l ih =>
    rw [List.foldl_cons]
    by_cases hneg : t.distances edge.2 < 0
    · have htd : tdEdge d t edge = ⟨update t.distances edge.2 d, t.discovered ++ [edge.2],
          t.scoutCount + -t.distances edge.2⟩ := by
        unfold tdEdge
        rw [if_pos hneg]
      obtain ⟨new, hnodup, hmem, hdisc, hdist⟩ := ih (tdEdge d t edge)
      have hfresh : edge.2 ∉ new := by
        rw [hmem, htd]
        simp
      refine ⟨edge.2 :: new, List.nodup_cons.mpr ⟨hfresh, hnodup⟩, fun v => ?_, ?_, fun v => ?_⟩
      · rw [List.mem_cons, hmem, htd]
        by_cases hv : v = edge.2
        · subst hv
          simp only [true_or, true_iff]
          exact ⟨⟨edge.1, List.mem_cons_self⟩, hneg⟩
        · have hne : ∀ u, (u, v) ≠ edge := fun u heq => hv (heq ▸ rfl)
          simp [hv, hne]
      · rw [hdisc, htd, List.append_assoc, List.singleton_append]
      · rw [hdist, htd]
        by_cases hv : v = edge.2
        · subst hv
          simp [hfresh]
        · simp [hv]
    · have htd : tdEdge d t edge = t := by
        unfold tdEdge
        rw [if_neg hneg]
      rw [htd]
      obtain ⟨new, hnodup, hmem, hdisc, hdist⟩ := ih t
      refine ⟨new, hnodup, fun v => ?_, hdisc, hdist⟩
      rw [hmem]
      constructor
      · rintro ⟨⟨u, hu⟩, hv⟩
        exact ⟨⟨u, List.mem_cons_of_mem _ hu⟩, hv⟩
      · rintro ⟨⟨u, hu⟩, hv⟩
        rcases List.mem_cons.mp hu with rfl | hu
        · exact absurd hv hneg
        · exact ⟨⟨u, hu⟩, hv⟩

/-- What a bottom-up step does to one vertex. -/
def awakes (g : Snapshot) (front : Nat → Bool) (distances : Nat → Int) (u : Nat) : Bool :=
  (g.edges u).any front && decide (distances u < 0)

theorem buVertex_eq (d : Nat) (front : Nat → Bool) (t : BUStep) (u : Nat) :
    buVertex g sched d front t u =
      if awakes g front t.distances u = true then
        ⟨update t.distances u d, update t.next u true, t.awakeCount + 1⟩
      else t := by
  have hany : (sched.edges d u (g.edges u)).any front = (g.edges u).any front := by
    rw [Bool.eq_iff_iff, List.any_eq_true, List.any_eq_true]
    simp only [(sched.edges_perm d u (g.edges u)).mem_iff]
  unfold buVertex awakes int64Max
  rw [hany]
  by_cases hneg : t.distances u < 0
  · have hmax : t.distances u ≠ 2 ^ 63 - 1 := by omega
    rw [if_neg hmax, if_pos hneg]
    simp [hneg]
  · simp [hneg]

/-- The vertices of a bottom-up step in any order. -/
theorem buFold (g : Snapshot) (sched : Schedule) (d : Nat) (front : Nat → Bool) (us : List Nat)
    (hus : us.Nodup) (t : BUStep) :
    (us.foldl (buVertex g sched d front) t).awakeCount =
        t.awakeCount + us.countP (awakes g front t.distances) ∧
      ∀ v, (us.foldl (buVertex g sched d front) t).distances v =
          (if v ∈ us ∧ awakes g front t.distances v = true then (d : Int) else t.distances v) ∧
        ((us.foldl (buVertex g sched d front) t).next v = true ↔
          (v ∈ us ∧ awakes g front t.distances v = true) ∨ t.next v = true) := by
  induction us generalizing t with
  | nil => simp
  | cons u us ih =>
    obtain ⟨hfresh, hus⟩ := List.nodup_cons.mp hus
    rw [List.foldl_cons, buVertex_eq]
    by_cases hu : awakes g front t.distances u = true
    · rw [if_pos hu]
      obtain ⟨hcount, hv⟩ := ih hus ⟨update t.distances u d, update t.next u true, t.awakeCount + 1⟩
      have hsame : ∀ v, v ≠ u → awakes g front (update t.distances u (d : Int)) v =
          awakes g front t.distances v := fun v hne => by
        unfold awakes
        rw [update_of_ne hne]
      have hcountP : us.countP (awakes g front (update t.distances u (d : Int))) =
          us.countP (awakes g front t.distances) :=
        List.countP_congr fun v hmem => by rw [hsame v fun heq => hfresh (heq ▸ hmem)]
      refine ⟨?_, fun v => ?_⟩
      · rw [hcount, hcountP, List.countP_cons_of_pos hu, Nat.add_right_comm, Nat.add_assoc]
      · rw [(hv v).1, (hv v).2]
        by_cases heq : v = u
        · subst heq
          simp [hfresh, hu]
        · simp [heq, hsame v heq]
    · rw [if_neg hu]
      obtain ⟨hcount, hv⟩ := ih hus t
      refine ⟨?_, fun v => ?_⟩
      · rw [hcount, List.countP_cons_of_neg hu]
      · rw [(hv v).1, (hv v).2]
        by_cases heq : v = u
        · subst heq
          simp [hfresh, hu]
        · simp [heq]

/-! ### The queue between two rounds -/

namespace SlidingQueue

/-- The window reaches to the end of what was pushed. -/
structure Slid (q : SlidingQueue) : Prop where
  start_le : q.outStart ≤ q.outEnd
  end_eq : q.outEnd = q.shared.length

variable {q : SlidingQueue}

theorem foldl_pushBack (q : SlidingQueue) (l : List Nat) :
    l.foldl pushBack q = { q with shared := q.shared ++ l } := by
  induction l generalizing q with
  | nil => simp
  | cons v l ih =>
    rw [List.foldl_cons, ih]
    simp [pushBack]

theorem Slid.slideWindow (h : q.Slid) : q.slideWindow.Slid :=
  ⟨h.end_eq.le, rfl⟩

theorem Slid.pushAll (h : q.Slid) (l : List Nat) : (l.foldl pushBack q).slideWindow.Slid := by
  rw [foldl_pushBack]
  refine ⟨?_, rfl⟩
  change q.outEnd ≤ (q.shared ++ l).length
  rw [h.end_eq, List.length_append]
  exact Nat.le_add_right _ _

theorem Slid.window_eq (h : q.Slid) : q.window = q.shared.drop q.outStart := by
  unfold window
  rw [h.end_eq, List.take_length]

theorem Slid.window_pushAll (h : q.Slid) (l : List Nat) :
    (l.foldl pushBack q).slideWindow.window = l := by
  rw [(h.pushAll l).window_eq, foldl_pushBack]
  change (q.shared ++ l).drop q.outEnd = l
  rw [h.end_eq, List.drop_left]

theorem Slid.size_eq (h : q.Slid) : q.size = q.window.length := by
  rw [h.window_eq, List.length_drop, ← h.end_eq]
  rfl

theorem Slid.empty_iff (h : q.Slid) : q.empty = true ↔ q.window = [] := by
  rw [← List.length_eq_zero_iff, ← h.size_eq]
  have := h.start_le
  simp only [empty, size, decide_eq_true_eq]
  omega

end SlidingQueue

/-! ### The rounds -/

/-- What has been found once level `k` is known. A bit of `front` may be of an earlier level. -/
structure Searched (g : Snapshot) (root k : Nat) (s : State) : Prop where
  distance : s.distance = k + 1
  marked : Marked g root k s.distances
  front : ∀ v, s.front v = true → ∃ j ≤ k, Level g root j v

/-- The state between two rounds: the window is the last level. -/
structure Inv (g : Snapshot) (root k : Nat) (s : State) : Prop extends Searched g root k s where
  slid : s.queue.Slid
  window : ∀ v, v ∈ s.queue.window ↔ Level g root k v
  pushed : ∀ v ∈ s.queue.shared, ∃ j ≤ k, Level g root j v
  nodup : s.queue.shared.Nodup

/-- Pushing a later level. -/
theorem Inv.push {k' : Nat} {s' : State} {l : List Nat} (h : Inv g root k s) (hk : k < k')
    (hs : Searched g root k' s') (hl : ∀ v, v ∈ l ↔ Level g root k' v) (hnodup : l.Nodup)
    {q : SlidingQueue} (hslid : q.Slid) (hshared : q.shared = s.queue.shared)
    (hq : s'.queue = (l.foldl .pushBack q).slideWindow) : Inv g root k' s' := by
  have hpushed : s'.queue.shared = s.queue.shared ++ l := by
    rw [hq, SlidingQueue.foldl_pushBack, ← hshared]
    rfl
  refine ⟨hs, hq ▸ hslid.pushAll l, fun v => ?_, fun v hv => ?_, ?_⟩
  · rw [hq, hslid.window_pushAll]
    exact hl v
  · rw [hpushed, List.mem_append] at hv
    rcases hv with hv | hv
    · obtain ⟨j, hj, hlevel⟩ := h.pushed v hv
      exact ⟨j, by omega, hlevel⟩
    · exact ⟨k', Nat.le_refl _, (hl v).mp hv⟩
  · rw [hpushed, List.nodup_append]
    refine ⟨h.nodup, hnodup, fun v hv w hw heq => ?_⟩
    subst heq
    obtain ⟨j, hj, hlevel⟩ := h.pushed v hv
    have := hlevel.unique ((hl v).mp hw)
    omega

/-- A top-down round. -/
theorem Inv.topDown (hroot : root < g.maxVid) (h : Inv g root k s) (sched : Schedule) :
    Inv g root (k + 1) (topDown g sched s) := by
  obtain ⟨new, hnodup, hmem, hdisc, hdist⟩ := tdFold s.distance
    (sched.pairs s.distance (s.queue.window.flatMap fun u => (g.edges u).map fun v => (u, v)))
    ⟨s.distances, [], 0⟩
  have hpair : ∀ v, (∃ u, (u, v) ∈ sched.pairs s.distance
      (s.queue.window.flatMap fun u => (g.edges u).map fun v => (u, v))) ↔
      ∃ u, Level g root k u ∧ v ∈ g.edges u := fun v => by
    simp only [(sched.pairs_perm _ _).mem_iff, List.mem_flatMap, List.mem_map, Prod.mk.injEq,
      h.window]
    constructor
    · rintro ⟨u, u', hu', v', hv', rfl, rfl⟩
      exact ⟨u', hu', hv'⟩
    · rintro ⟨u, hu, hv⟩
      exact ⟨u, u, hu, v, hv, rfl, rfl⟩
  have hnew : ∀ v, v ∈ new ↔ Level g root (k + 1) v := fun v => by
    rw [hmem, hpair]
    constructor
    · rintro ⟨⟨u, hu, huv⟩, hneg⟩
      exact (h.marked.level_succ (g.edges_lt u (hu.lt hroot) v huv)).mpr ⟨⟨u, hu, huv⟩, hneg⟩
    · intro hnext
      exact (h.marked.level_succ (hnext.lt hroot)).mp hnext
  have hs : Searched g root (k + 1) (BFS.topDown g sched s) := by
    refine ⟨congrArg (· + 1) h.distance, h.marked.next (fun v hv => ?_) fun v hv => ?_,
      fun v hv => ?_⟩
    · exact (hdist v).trans (by rw [if_pos ((hnew v).mpr hv), h.distance])
    · exact (hdist v).trans (if_neg fun hv' => hv ((hnew v).mp hv'))
    · obtain ⟨j, hj, hlevel⟩ := h.front v hv
      exact ⟨j, Nat.le_succ_of_le hj, hlevel⟩
  refine h.push (Nat.lt_succ_self k) hs
    (l := sched.pushes s.distance new) (fun v => ?_) ?_ h.slid rfl ?_
  · rw [(sched.pushes_perm _ _).mem_iff]
    exact hnew v
  · exact (sched.pushes_perm _ _).nodup_iff.mpr hnodup
  · change SlidingQueue.slideWindow ((sched.pushes s.distance _).foldl _ _) = _
    rw [hdisc]
    rfl

/-- A bottom-up step: `front` becomes exactly the next level, and the count tells whether it is
empty. -/
theorem Searched.doBfsBUStep (hroot : root < g.maxVid) (h : Searched g root k s)
    (sched : Schedule) (hall : ∀ v, Level g root k v → s.front v = true) :
    Searched g root (k + 1) (doBfsBUStep g sched s).2 ∧
      (∀ v, (doBfsBUStep g sched s).2.front v = true ↔ Level g root (k + 1) v) ∧
      (0 < (doBfsBUStep g sched s).1 → ∃ v, Level g root (k + 1) v) := by
  have hperm := sched.vertices_perm s.distance (List.range g.maxVid)
  obtain ⟨hcount, hfold⟩ := buFold g sched s.distance s.front
    (sched.vertices s.distance (List.range g.maxVid)) (hperm.nodup_iff.mpr List.nodup_range)
    ⟨s.distances, fun _ => false, 0⟩
  have hnext : ∀ v, (v ∈ sched.vertices s.distance (List.range g.maxVid) ∧
      awakes g s.front s.distances v = true) ↔ Level g root (k + 1) v := fun v => by
    have hawakes : awakes g s.front s.distances v = true ↔
        (∃ w ∈ g.edges v, s.front w = true) ∧ s.distances v < 0 := by
      unfold awakes
      rw [Bool.and_eq_true, List.any_eq_true, decide_eq_true_eq]
    rw [hperm.mem_iff, List.mem_range, hawakes]
    constructor
    · rintro ⟨hv, hfound⟩
      exact (h.marked.any_front hroot h.front hall hv).mp hfound
    · intro hlevel
      have hv := hlevel.lt hroot
      exact ⟨hv, (h.marked.any_front hroot h.front hall hv).mpr hlevel⟩
  have hfront : ∀ v, (BFS.doBfsBUStep g sched s).2.front v = true ↔ Level g root (k + 1) v :=
    fun v => (hfold v).2.trans (by rw [hnext]; simp)
  refine ⟨⟨congrArg (· + 1) h.distance, h.marked.next (fun v hv => ?_) fun v hv => ?_,
    fun v hv => ⟨k + 1, Nat.le_refl _, (hfront v).mp hv⟩⟩, hfront, fun hpos => ?_⟩
  · exact (hfold v).1.trans (by rw [if_pos ((hnext v).mpr hv), h.distance])
  · exact (hfold v).1.trans (if_neg fun hv' => hv ((hnext v).mp hv'))
  · have hpos' : 0 < 0 + (sched.vertices s.distance (List.range g.maxVid)).countP
        (awakes g s.front s.distances) := hcount ▸ hpos
    rw [Nat.zero_add, List.countP_pos_iff] at hpos'
    obtain ⟨v, hv, hawakes⟩ := hpos'
    exact ⟨v, (hnext v).mp ⟨hv, hawakes⟩⟩

/-- The vertices that no level up to `k` has: what is left to do. -/
noncomputable def unreached (g : Snapshot) (root k : Nat) : Nat :=
  (beyond (fun u v => v ∈ g.edges u) root (Finset.range g.maxVid) k).card

theorem unreached_mono (g : Snapshot) (root : Nat) {k' : Nat} (hk : k ≤ k') :
    unreached g root k' ≤ unreached g root k :=
  Finset.card_le_card (beyond_subset hk)

theorem unreached_lt {k' : Nat} (hroot : root < g.maxVid) (h : Level g root k' v) (hk : k < k') :
    unreached g root k' < unreached g root k :=
  beyond_card_lt (Finset.mem_range.mpr (h.lt hroot)) h hk

theorem unreached_lt_maxVid (hroot : root < g.maxVid) : unreached g root k < g.maxVid :=
  (beyond_card_lt_card (Finset.mem_range.mpr hroot)).trans_eq (Finset.card_range _)

/-- The loop of the bottom-up phase ends: it goes round again only after a step that found
something. -/
theorem buLoop_spec (hroot : root < g.maxVid) (sched : Schedule)
    (numVertices beta fuel oldAwakeCount : Nat) (hold : 0 < oldAwakeCount)
    (h : Searched g root k s) (hall : ∀ v, Level g root k v → s.front v = true)
    (hfuel : unreached g root k < fuel) :
    ∃ k' s', k < k' ∧ buLoop g sched numVertices beta fuel oldAwakeCount s = some s' ∧
      Searched g root k' s' ∧ (∀ v, s'.front v = true ↔ Level g root k' v) ∧
      s'.queue = s.queue := by
  induction fuel generalizing k s oldAwakeCount with
  | zero => exact absurd hfuel (Nat.not_lt_zero _)
  | succ fuel ih =>
    obtain ⟨hnext, hfront, hpos⟩ := h.doBfsBUStep hroot sched hall
    unfold buLoop
    by_cases hmore : oldAwakeCount ≤ (doBfsBUStep g sched s).1 ∨
        numVertices / beta < (doBfsBUStep g sched s).1
    · have hawake : 0 < (doBfsBUStep g sched s).1 :=
        hmore.elim (fun hle => hold.trans_le hle) Nat.zero_lt_of_lt
      obtain ⟨v, hv⟩ := hpos hawake
      have hless := unreached_lt hroot hv (Nat.lt_succ_self k)
      obtain ⟨k', s', hk, hloop, hs', hfront', hqueue⟩ :=
        ih _ hawake hnext (fun v hv => (hfront v).mpr hv) (by omega)
      exact ⟨k', s', by omega, (if_pos hmore).trans hloop, hs', hfront', hqueue⟩
    · exact ⟨k + 1, _, Nat.lt_succ_self k, if_neg hmore, hnext, hfront, rfl⟩

theorem foldl_setBit (l : List Nat) (front : Nat → Bool) :
    l.foldl (fun f u => update f u true) front v = true ↔ v ∈ l ∨ front v = true := by
  induction l generalizing front with
  | nil => simp
  | cons u l ih =>
    rw [List.foldl_cons, ih, List.mem_cons]
    by_cases heq : v = u
    · subst heq
      simp
    · simp [heq]

/-- A bottom-up phase. -/
theorem Inv.bottomUp (hroot : root < g.maxVid) (h : Inv g root k s) (sched : Schedule)
    (numVertices beta fuel : Nat) (hne : s.queue.empty = false) (hfuel : g.maxVid < fuel) :
    ∃ k' s', k < k' ∧ bottomUp g sched numVertices beta fuel s = some s' ∧
      Inv g root k' s' := by
  let s₁ : State := { s with
    front := s.queue.window.foldl (fun f u => update f u true) s.front
    queue := s.queue.slideWindow }
  have hs₁ : Searched g root k s₁ := by
    refine ⟨h.distance, h.marked, fun v hv => ?_⟩
    rcases foldl_setBit s.queue.window s.front |>.mp hv with hmem | hold
    · exact ⟨k, Nat.le_refl k, (h.window v).mp hmem⟩
    · exact h.front v hold
  have hall : ∀ v, Level g root k v → s₁.front v = true := fun v hv =>
    (foldl_setBit _ _).mpr (.inl ((h.window v).mpr hv))
  have hsize : 0 < s.queue.size := by
    rw [h.slid.size_eq, List.length_pos_iff]
    intro hnil
    rw [h.slid.empty_iff.mpr hnil] at hne
    cases hne
  have hless : unreached g root k < g.maxVid := unreached_lt_maxVid hroot
  obtain ⟨k', s', hk, hloop, hs', hfront, hqueue⟩ :=
    buLoop_spec hroot sched numVertices beta fuel _ hsize hs₁ hall (by omega)
  refine ⟨k', _, hk, congrArg (Option.map _) hloop, ?_⟩
  have hfound : ∀ v, v ∈ (List.range g.maxVid).filter s'.front ↔ Level g root k' v := fun v => by
    rw [List.mem_filter, List.mem_range, hfront]
    exact ⟨And.right, fun hv => ⟨hv.lt hroot, hv⟩⟩
  refine h.push hk ⟨hs'.distance, hs'.marked, hs'.front⟩
    (l := sched.pushes s'.distance ((List.range g.maxVid).filter s'.front)) (fun v => ?_) ?_
    (hqueue ▸ h.slid.slideWindow) (by rw [hqueue]; rfl) rfl
  · rw [(sched.pushes_perm _ _).mem_iff]
    exact hfound v
  · exact (sched.pushes_perm _ _).nodup_iff.mpr (List.nodup_range.filter _)

/-- The main loop ends with an empty window: a round empties it or finds a vertex. -/
theorem bfsLoop_spec (hroot : root < g.maxVid) (sched : Schedule)
    (numVertices alpha beta fuel rounds : Nat) (h : Inv g root k s) (hfuel : g.maxVid < fuel)
    (hrounds : unreached g root k + (if s.queue.empty = true then 0 else 1) < rounds) :
    ∃ k' s', bfsLoop g sched numVertices alpha beta fuel rounds s = some s' ∧
      Inv g root k' s' ∧ s'.queue.empty = true := by
  induction rounds generalizing k s with
  | zero => exact absurd hrounds (Nat.not_lt_zero _)
  | succ rounds ih =>
    unfold bfsLoop
    by_cases hempty : s.queue.empty = true
    · exact ⟨k, s, if_pos hempty, h, hempty⟩
    · rw [if_neg hempty]
      rw [if_neg hempty] at hrounds
      have hmeasure : ∀ k' s', k < k' → Inv g root k' s' →
          unreached g root k' + (if s'.queue.empty = true then 0 else 1) < rounds := by
        intro k' s' hk hs'
        by_cases hempty' : s'.queue.empty = true
        · rw [if_pos hempty']
          have := unreached_mono g root hk.le
          omega
        · rw [if_neg hempty']
          rw [hs'.slid.empty_iff] at hempty'
          obtain ⟨v, hv⟩ := List.exists_mem_of_ne_nil _ hempty'
          have := unreached_lt hroot ((hs'.window v).mp hv) hk
          omega
      split_ifs with hheur
      · obtain ⟨k', s', hk, hbu, hs'⟩ :=
          h.bottomUp hroot sched numVertices beta fuel (Bool.eq_false_of_not_eq_true hempty) hfuel
        rw [hbu]
        exact ih hs' (hmeasure k' s' hk hs')
      · have hs' := h.topDown hroot sched
        exact ih hs' (hmeasure _ _ (Nat.lt_succ_self k) hs')

theorem initDistance_neg (g : Snapshot) (v : Nat) : (initDistance g).1 v < 0 := by
  have hlt := g.degree_lt v
  have hexists : (g.degree v : Int) ≠ int64Max := by
    unfold int64Max
    omega
  unfold initDistance
  simp only [if_neg hexists]
  split_ifs <;> omega

theorem start_inv (hroot : root < g.maxVid) : Inv g root 0 (start g root) := by
  have hslid : (start g root).queue.Slid := ⟨Nat.zero_le _, rfl⟩
  have hwindow : (start g root).queue.window = [root] := rfl
  have hzero : ∀ v, Level g root 0 v ↔ v = root := fun v => hop_zero
  have hshared : (start g root).queue.shared = [root] := rfl
  refine ⟨⟨rfl, ⟨fun j hj v hlevel => ?_, fun v hv hpos => ?_⟩, fun v hv => ?_⟩, hslid,
    fun v => ?_, fun v hv => ?_, ?_⟩
  · obtain rfl := Nat.le_zero.mp hj
    obtain rfl := (hzero v).mp hlevel
    exact update_self _ _ _
  · refine ⟨0, Nat.le_refl 0, (hzero v).mpr ?_⟩
    by_contra hne
    have hneg := initDistance_neg g v
    rw [← update_of_ne hne 0 (initDistance g).1] at hneg
    exact absurd hpos (not_le.mpr hneg)
  · cases hv
  · rw [hwindow, List.mem_singleton, hzero]
  · rw [hshared, List.mem_singleton] at hv
    exact ⟨0, Nat.le_refl 0, (hzero v).mpr hv⟩
  · rw [hshared]
    exact List.nodup_singleton root

/-- bfs ends for every order of work and every choice between the two kinds of round. A
reachable vertex then holds its number of edges from the root and any other one a negative
mark, and the queue has had each vertex at most once. -/
theorem bfs_hops (g : Snapshot) (sched : Schedule) (numVertices alpha beta root fuel : Nat)
    (hroot : root < g.maxVid) (hfuel : g.maxVid < fuel) :
    ∃ s, bfs g sched numVertices alpha beta root fuel = some s ∧
      (∀ v k, Level g root k v → s.distances v = k) ∧
      (∀ v < g.maxVid, (∀ k, ¬Walk (fun u v => v ∈ g.edges u) root k v) → s.distances v < 0) ∧
      s.queue.shared.Nodup ∧ s.queue.shared.length ≤ g.maxVid := by
  have hrounds : unreached g root 0 + (if (start g root).queue.empty = true then 0 else 1) <
      fuel := by
    have hless : unreached g root 0 < g.maxVid := unreached_lt_maxVid hroot
    split_ifs <;> omega
  obtain ⟨k, s, hrun, hinv, hempty⟩ :=
    bfsLoop_spec hroot sched numVertices alpha beta fuel fuel (start_inv hroot) hfuel hrounds
  rw [hinv.slid.empty_iff] at hempty
  have hlast : ∀ j v, Level g root j v → j < k := fun j v hlevel => by
    by_contra hge
    obtain ⟨u, hu⟩ := hlevel.exists_of_le (Nat.le_of_not_lt hge)
    have hmem := (hinv.window u).mpr hu
    rw [hempty] at hmem
    cases hmem
  refine ⟨s, hrun, fun v j hlevel => ?_, fun v hv hno => ?_, hinv.nodup, ?_⟩
  · exact hinv.marked.level j (hlast j v hlevel).le v hlevel
  · exact (hinv.marked.neg_iff hv).mpr fun j _ hlevel => hno j hlevel.1
  · have hsub : s.queue.shared ⊆ List.range g.maxVid := fun v hv => by
      obtain ⟨j, -, hlevel⟩ := hinv.pushed v hv
      exact List.mem_range.mpr (hlevel.lt hroot)
    exact (List.subperm_of_subset hinv.nodup hsub).length_le.trans_eq List.length_range

/-- The vertices 0, 1 and 2 on a line, and 3 alone. -/
def line : Snapshot where
  maxVid := 4
  edges
    | 0 => [1]
    | 1 => [0, 2]
    | 2 => [1]
    | _ => []
  degree
    | 1 => 2
    | 3 => 0
    | _ => 1
  edges_lt := by decide
  symm := by decide
  degree_lt v := by split <;> decide

/-- Every step works in the order of its list. -/
def inOrder : Schedule where
  pairs _ l := l
  pushes _ l := l
  vertices _ l := l
  edges _ _ l := l
  pairs_perm _ _ := .refl _
  pushes_perm _ _ := .refl _
  vertices_perm _ _ := .refl _
  edges_perm _ _ _ := .refl _

theorem bfs_hops_line : ∃ s, bfs line inOrder 4 15 18 0 5 = some s ∧
    (∀ v k, Level line 0 k v → s.distances v = k) ∧
    (∀ v < 4, (∀ k, ¬Walk (fun u v => v ∈ line.edges u) 0 k v) → s.distances v < 0) ∧
    s.queue.shared.Nodup ∧ s.queue.shared.length ≤ 4 :=
  bfs_hops line inOrder 4 15 18 0 5 (by decide) (by decide)

end BFS

end AVBGraph
