import AVBGraph.Algorithm.TopDown
import AVBGraph.Algorithm.BottomUp

namespace AVBGraph.BFS

open Framework Function Gapbs

/-- The loops of bfs: its rounds, the steps of a bottom-up phase and the way back to the queue. -/
inductive Phase
  | rounds
  | bottomUp (oldAwakeCount : Nat)
  | toQueue
  deriving DecidableEq

/-- bfs between two of its parallel regions. -/
structure Parallel where
  distances : Nat → Int
  queue : Gapbs.SlidingQueue Nat
  front : Bitmap
  curr : Bitmap
  scoutCount : Int
  edgesToCheck : Int
  distance : Nat
  phase : Phase

/-- A parallel region: what the threads get of its loop and the order of their accesses. -/
inductive Region (ι : Type*)
  | topDown (work : ι → List (Nat × Nat)) (accesses flushes : List ι)
  | toBitmap (work : ι → List Nat) (accesses : List ι)
  | bottomUp (work : ι → List Nat) (accesses : List ι)
  | toQueue (work : ι → List Nat) (flushes : List ι)

namespace Parallel

variable {ι : Type*} [Fintype ι] [DecidableEq ι]

/-- The state before the main loop; queue and bitmaps lie in used memory. -/
def start (g : Snapshot) (root : Nat) (memory : Nat → Nat) (words words' : Nat → BitVec 64) :
    Option Parallel :=
  ((Gapbs.SlidingQueue.new memory g.maxVid).pushBack root).map fun queue =>
    let r := initDistance g
    { distances := update r.1 root 0
      queue := queue.slideWindow
      front := (Bitmap.new words g.maxVid).reset
      curr := (Bitmap.new words' g.maxVid).reset
      scoutCount := g.degree root
      edgesToCheck := r.2
      distance := 1
      phase := .rounds }

/-- A top-down round. The flushes touch nothing that a scan reads, so they stand behind the
scans. -/
def topDown (g : Snapshot) (localSize : Nat) (s : Parallel) (work : ι → List (Nat × Nat))
    (accesses flushes : List ι) : Option Parallel :=
  if ∑ t, (work t : Multiset (Nat × Nat)) =
      (s.queue.window.flatMap fun u => (g.edges u).map fun v => (u, v) : List (Nat × Nat)) then
    (exec (Scanners.step s.distance) (.init s.distances work) accesses).bind fun c =>
      (exec (Gapbs.SlidingQueue.Region.step localSize)
        (.init s.queue fun t => (c.scanner t).discovered) flushes).bind fun r =>
        if (∀ t, (c.scanner t).todo = []) ∧ ∀ t, r.Done t then
          some { s with
            distances := c.distances
            queue := r.sq.slideWindow
            scoutCount := ∑ t, (c.scanner t).scoutCount
            edgesToCheck := s.edgesToCheck - s.scoutCount
            distance := s.distance + 1 }
        else none
  else none

/-- The queue to bitmap conversion. -/
def toBitmap (s : Parallel) (work : ι → List Nat) (accesses : List ι) : Option Parallel :=
  if ∑ t, (work t : Multiset Nat) = s.queue.window then
    (exec (Bitmap.step true) (.init s.front work) accesses).bind fun c =>
      if ∀ t, (c.setter t).todo = [] then
        some { s with
          front := c.bitmap
          queue := s.queue.slideWindow
          phase := .bottomUp s.queue.size }
      else none
  else none

/-- do_bfs_BUStep, the swap of the bitmaps and the test of the do-while loop. -/
def bottomUp (g : Snapshot) (numVertices beta : Nat) (s : Parallel) (oldAwakeCount : Nat)
    (work : ι → List Nat) (accesses : List ι) : Option Parallel :=
  if ∑ t, (work t : Multiset Nat) = List.range g.maxVid then
    (exec (Wakers.step g s.distance s.front) (.init s.distances s.curr work) accesses).bind fun c =>
      if ∀ t, (c.waker t).todo = [] then
        let awakeCount := ∑ t, (c.waker t).awakeCount
        some { s with
          distances := c.distances
          front := c.next
          curr := s.front
          distance := s.distance + 1
          phase := if oldAwakeCount ≤ awakeCount ∨ numVertices / beta < awakeCount
            then .bottomUp awakeCount else .toQueue }
      else none
  else none

/-- The bitmap back to the queue. -/
def toQueue (g : Snapshot) (localSize : Nat) (s : Parallel) (work : ι → List Nat)
    (flushes : List ι) : Option Parallel :=
  if ∑ t, (work t : Multiset Nat) = List.range g.maxVid then
    (exec (Gapbs.SlidingQueue.Region.step localSize)
      (.init s.queue fun t => (work t).filter s.front.getBit) flushes).bind fun r =>
      if ∀ t, r.Done t then
        some { s with queue := r.sq.slideWindow, scoutCount := 1, phase := .rounds }
      else none
  else none

/-- The next region of bfs. -/
def step (g : Snapshot) (localSize numVertices alpha beta : Nat) (s : Parallel) :
    Region ι → Option Parallel
  | .topDown work accesses flushes =>
    if s.phase = .rounds ∧ s.queue.empty = false ∧ ¬s.edgesToCheck.tdiv alpha < s.scoutCount then
      s.topDown g localSize work accesses flushes
    else none
  | .toBitmap work accesses =>
    if s.phase = .rounds ∧ s.queue.empty = false ∧ s.edgesToCheck.tdiv alpha < s.scoutCount then
      s.toBitmap work accesses
    else none
  | .bottomUp work accesses =>
    match s.phase with
    | .bottomUp oldAwakeCount => s.bottomUp g numVertices beta oldAwakeCount work accesses
    | _ => none
  | .toQueue work flushes =>
    if s.phase = .toQueue then s.toQueue g localSize work flushes else none

/-- What the model of one thread knows of the state. -/
def toState (g : Snapshot) (s : Parallel) : State where
  distances := s.distances
  queue := s.queue.toBFS
  front := s.front.toBFS g.maxVid
  curr := s.curr.toBFS g.maxVid
  scoutCount := s.scoutCount
  edgesToCheck := s.edgesToCheck
  distance := s.distance

/-- No word of the bitmap of a bottom-up step gets bits from two threads. -/
def KeepsWords (g : Snapshot) (s : Parallel) : Region ι → Prop
  | .bottomUp work _ =>
    Bitmap.WordsApart fun t => (work t).filter (awakes g (s.front.toBFS g.maxVid) s.distances)
  | _ => True

instance (g : Snapshot) (s : Parallel) : ∀ e : Region ι, Decidable (KeepsWords g s e)
  | .bottomUp work _ => inferInstanceAs (Decidable
    (Bitmap.WordsApart fun t => (work t).filter (awakes g (s.front.toBFS g.maxVid) s.distances)))
  | .topDown _ _ _ | .toBitmap _ _ | .toQueue _ _ => inferInstanceAs (Decidable True)

/-! ### One region after the other -/

/-- The sizes that the arrays of the search keep. -/
structure Sized (g : Snapshot) (s : Parallel) : Prop where
  queue : s.queue.sharedSize = g.maxVid
  front : ∀ v < g.maxVid, Bitmap.wordOffset v < s.front.numWords
  curr : ∀ v < g.maxVid, Bitmap.wordOffset v < s.curr.numWords

variable {g : Snapshot} {root k : Nat} {s s' : Parallel} {localSize : Nat}

omit [Fintype ι] [DecidableEq ι] in
theorem window_toState (h : (s.toState g).queue.Slid) : s.queue.window = (s.toState g).queue.window :=
  (Gapbs.SlidingQueue.toBFS_window (h.end_eq.le.trans_eq (by simp [toState, Gapbs.SlidingQueue.toBFS,
    Gapbs.SlidingQueue.pushed]))).symm

theorem topDown_spec (hroot : root < g.maxVid) (hsized : s.Sized g)
    (h : Inv g root k (s.toState g)) {work : ι → List (Nat × Nat)} {accesses flushes : List ι}
    (hstep : s.topDown g localSize work accesses flushes = some s') :
    s'.Sized g ∧ Inv g root (k + 1) (s'.toState g) ∧ s'.phase = s.phase := by
  unfold topDown at hstep
  split_ifs at hstep with hwork
  obtain ⟨c, hc, hstep⟩ := Option.bind_eq_some_iff.mp hstep
  obtain ⟨r, hr, hstep⟩ := Option.bind_eq_some_iff.mp hstep
  split_ifs at hstep with hend
  obtain rfl := Option.some.inj hstep
  obtain ⟨log, hlog⟩ := Gapbs.SlidingQueue.Region.logged_of_exec hr
  rw [window_toState h.slid] at hwork
  obtain ⟨sched, hsched⟩ := doBfsTDStep_refines
    (s := { s.toState g with edgesToCheck := s.edgesToCheck - s.scoutCount }) hwork hc hend.1 rfl hr
    hend.2
  have hnext := h.topDown hroot sched
  unfold BFS.topDown at hnext
  simp only [toState] at hsched hnext
  rw [hsched] at hnext
  refine ⟨⟨hlog.size.trans hsized.queue, hsized.front, hsized.curr⟩, ?_, rfl⟩
  simpa only [toState, Gapbs.SlidingQueue.toBFS_slideWindow] using hnext

theorem toBitmap_spec (hroot : root < g.maxVid) (hsized : s.Sized g)
    (h : Inv g root k (s.toState g)) {work : ι → List Nat} {accesses : List ι}
    (hstep : s.toBitmap work accesses = some s') :
    s'.Sized g ∧ Searched g root k (s'.toState g) ∧
      (∀ v, Level g root k v → (s'.toState g).front v = true) ∧
      s'.queue = s.queue.slideWindow ∧ s'.phase = .bottomUp s.queue.size := by
  unfold toBitmap at hstep
  split_ifs at hstep with hwork
  obtain ⟨c, hc, hstep⟩ := Option.bind_eq_some_iff.mp hstep
  split_ifs at hstep with hend
  obtain rfl := Option.some.inj hstep
  have hexact := Bitmap.exact_of_exec hc
  have hbits (v : Nat) : c.bitmap.getBit v = true ↔ s.front.getBit v = true ∨ Level g root k v := by
    rw [hexact.bits, ← h.window, ← window_toState h.slid, ← Multiset.mem_coe, ← hwork,
      Multiset.mem_sum]
    simp [Bitmap.finished, hend]
  have hfront (v : Nat) : c.bitmap.toBFS g.maxVid v = true ↔
      (s.toState g).front v = true ∨ Level g root k v := by
    simp only [toState, Bitmap.toBFS, Bool.and_eq_true, decide_eq_true_iff, hbits, and_or_left]
    exact or_congr_right (and_iff_right_of_imp fun hv => hv.lt hroot)
  have hsize (v : Nat) (hv : v < g.maxVid) : Bitmap.wordOffset v < c.bitmap.numWords := by
    rw [hexact.size]
    exact hsized.front v hv
  refine ⟨⟨hsized.queue, hsize, hsized.curr⟩, ⟨h.distance, h.marked, fun v hv => ?_⟩,
    fun v hv => (hfront v).mpr (.inr hv), rfl, rfl⟩
  exact ((hfront v).mp hv).elim (h.front v) fun hlevel => ⟨k, Nat.le_refl k, hlevel⟩

/-- The threads of a bottom-up step; `awakeCount` tells whether the next level is empty. -/
theorem bottomUp_spec (hroot : root < g.maxVid) (hsized : s.Sized g)
    (h : Searched g root k (s.toState g))
    (hall : ∀ v, Level g root k v → (s.toState g).front v = true)
    {numVertices beta oldAwakeCount : Nat} {work : ι → List Nat} {accesses : List ι}
    (hapart : KeepsWords g s (.bottomUp work accesses))
    (hstep : s.bottomUp g numVertices beta oldAwakeCount work accesses = some s') :
    s'.Sized g ∧ Searched g root (k + 1) (s'.toState g) ∧
      (∀ v, (s'.toState g).front v = true ↔ Level g root (k + 1) v) ∧ s'.queue = s.queue ∧
      ∃ awakeCount, (0 < awakeCount → ∃ v, Level g root (k + 1) v) ∧
        s'.phase = if oldAwakeCount ≤ awakeCount ∨ numVertices / beta < awakeCount
          then .bottomUp awakeCount else .toQueue := by
  unfold bottomUp at hstep
  split_ifs at hstep with hwork
  obtain ⟨c, hc, hstep⟩ := Option.bind_eq_some_iff.mp hstep
  rw [Option.ite_none_right_eq_some] at hstep
  obtain ⟨hend, hstep⟩ := hstep
  obtain rfl := Option.some.inj hstep
  obtain ⟨done, hdone⟩ := woken_of_share (s := s.toState g) hwork rfl hapart hc
  have hseq := doBfsBUStep_refines (s := s.toState g) rfl hsized.curr hwork hapart hc hend inOrder
  obtain ⟨hnext, hfront, hpos⟩ := h.doBfsBUStep hroot inOrder hall
  rw [hseq] at hnext hfront hpos
  have hsize (v : Nat) (hv : v < g.maxVid) : Bitmap.wordOffset v < c.next.numWords := by
    rw [hdone.size]
    exact hsized.curr v hv
  exact ⟨⟨hsized.queue, hsize, hsized.front⟩, ⟨hnext.distance, hnext.marked, hnext.front⟩, hfront,
    rfl, _, hpos, rfl⟩

theorem toQueue_spec {k₀ : Nat} {s₀ : State} (hsized : s.Sized g)
    (h₀ : Inv g root k₀ s₀) (hqueue : s.queue.toBFS = s₀.queue.slideWindow) (hk : k₀ < k)
    (h : Searched g root k (s.toState g))
    (hfront : ∀ v, (s.toState g).front v = true ↔ Level g root k v) {work : ι → List Nat}
    {flushes : List ι} (hstep : s.toQueue g localSize work flushes = some s') :
    s'.Sized g ∧ Inv g root k (s'.toState g) ∧ s'.phase = .rounds := by
  unfold toQueue at hstep
  split_ifs at hstep with hwork
  obtain ⟨r, hr, hstep⟩ := Option.bind_eq_some_iff.mp hstep
  split_ifs at hstep with hend
  obtain rfl := Option.some.inj hstep
  obtain ⟨log, hlog⟩ := Gapbs.SlidingQueue.Region.logged_of_exec hr
  obtain ⟨l, hl, hpushed⟩ := Gapbs.SlidingQueue.toBFS_region hr hend
  have hperm := Multiset.coe_eq_coe.mp (hl.trans (sum_filter hwork s.front.getBit))
  refine ⟨⟨hlog.size.trans hsized.queue, hsized.front, hsized.curr⟩, ?_, rfl⟩
  refine h₀.push hk ⟨h.distance, h.marked, h.front⟩ (l := l) (fun v => ?_) ?_
    (hqueue ▸ h₀.slid.slideWindow) (by rw [hqueue]; rfl) ?_
  · rw [hperm.mem_iff, List.mem_filter, List.mem_range, ← hfront]
    simp [toState, Bitmap.toBFS]
  · exact hperm.nodup_iff.mpr (List.nodup_range.filter _)
  · rw [← hpushed, ← Gapbs.SlidingQueue.toBFS_slideWindow]
    rfl

omit [Fintype ι] [DecidableEq ι] in
theorem start_spec {memory : Nat → Nat} {words words' : Nat → BitVec 64} (hroot : root < g.maxVid)
    (h : start g root memory words words' = some s) :
    s.Sized g ∧ Inv g root 0 (s.toState g) ∧ s.phase = .rounds := by
  obtain ⟨queue, hqueue, rfl⟩ := Option.map_eq_some_iff.mp h
  have hclear (words : Nat → BitVec 64) :
      (Bitmap.new words g.maxVid).reset.toBFS g.maxVid = fun _ => false := by
    funext v
    by_cases hv : v < g.maxVid
    · simp [Bitmap.toBFS, Bitmap.getBit_reset (Bitmap.wordOffset_lt hv)]
    · simp [Bitmap.toBFS, hv]
  have hpush := Gapbs.SlidingQueue.toBFS_pushBack hqueue
  have hsize : queue.sharedSize = g.maxVid := by
    unfold Gapbs.SlidingQueue.pushBack at hqueue
    obtain ⟨shared, -, rfl⟩ := Option.map_eq_some_iff.mp hqueue
    rfl
  refine ⟨⟨hsize, fun v => Bitmap.wordOffset_lt, fun v => Bitmap.wordOffset_lt⟩, ?_, rfl⟩
  have hstart := start_inv hroot
  have hnew : (Gapbs.SlidingQueue.new memory g.maxVid).toBFS = .new := rfl
  unfold BFS.start at hstart
  simpa [toState, hclear, Gapbs.SlidingQueue.toBFS_slideWindow, hpush, hnew] using hstart

/-! ### The whole search -/

/-- What is known of the levels in each loop, and `left`: three regions for every vertex that may
still be found, and those of the phase under way. -/
inductive Searching (g : Snapshot) (root : Nat) (s : Parallel) (left : Nat) : Prop
  | rounds {k : Nat} (hphase : s.phase = .rounds) (hinv : Inv g root k (s.toState g))
      (hleft : s.queue.empty = false → 3 * unreached g root k + 3 ≤ left)
  | bottomUp {k₀ k oldAwakeCount : Nat} {s₀ : State} (hphase : s.phase = .bottomUp oldAwakeCount)
      (hold : 0 < oldAwakeCount) (hinv : Inv g root k₀ s₀)
      (hqueue : s.queue.toBFS = s₀.queue.slideWindow) (hk : k₀ ≤ k)
      (hs : Searched g root k (s.toState g))
      (hall : ∀ v, Level g root k v → (s.toState g).front v = true)
      (hleft : 3 * unreached g root k + 2 ≤ left)
  | toQueue {k₀ k : Nat} {s₀ : State} (hphase : s.phase = .toQueue) (hinv : Inv g root k₀ s₀)
      (hqueue : s.queue.toBFS = s₀.queue.slideWindow) (hk : k₀ < k)
      (hs : Searched g root k (s.toState g))
      (hfront : ∀ v, (s.toState g).front v = true ↔ Level g root k v)
      (hleft : 1 ≤ left ∧ ((∃ v, Level g root k v) → 3 * unreached g root k + 4 ≤ left))

omit [Fintype ι] [DecidableEq ι] in
theorem exists_level (h : Inv g root k (s.toState g)) (hne : s.queue.empty = false) :
    ∃ v, Level g root k v := by
  have hne' : (s.toState g).queue.window ≠ [] := by
    rw [Ne, ← h.slid.empty_iff]
    exact Bool.eq_false_iff.mp hne
  obtain ⟨v, hv⟩ := List.exists_mem_of_ne_nil _ hne'
  exact ⟨v, (h.window v).mp hv⟩

variable {numVertices alpha beta left : Nat}

omit [Fintype ι] [DecidableEq ι] in
theorem Searching.of_rounds (h : s.Searching g root left) (hphase : s.phase = .rounds) :
    ∃ k, Inv g root k (s.toState g) ∧
      (s.queue.empty = false → 3 * unreached g root k + 3 ≤ left) := by
  cases h with
  | rounds _ hinv hleft => exact ⟨_, hinv, hleft⟩
  | bottomUp hphase' | toQueue hphase' =>
    rw [hphase] at hphase'
    cases hphase'

theorem searching_step (hroot : root < g.maxVid) (hsized : s.Sized g)
    (h : s.Searching g root left) {e : Region ι} (hapart : KeepsWords g s e)
    (hstep : step g localSize numVertices alpha beta s e = some s') :
    ∃ left' < left, s'.Sized g ∧ s'.Searching g root left' := by
  unfold step at hstep
  cases e with
  | topDown work accesses flushes =>
    simp only at hstep
    split_ifs at hstep with hguard
    obtain ⟨hphase, hne, -⟩ := hguard
    obtain ⟨k, hinv, hleft⟩ := h.of_rounds hphase
    have hleft := hleft hne
    obtain ⟨hsized', hinv', hphase'⟩ := topDown_spec hroot hsized hinv hstep
    refine ⟨left - 1, by omega, hsized', .rounds (hphase'.trans hphase) hinv' fun hne' => ?_⟩
    obtain ⟨v, hv⟩ := exists_level hinv' hne'
    have := unreached_lt hroot hv (Nat.lt_succ_self k)
    omega
  | toBitmap work accesses =>
    simp only at hstep
    split_ifs at hstep with hguard
    obtain ⟨hphase, hne, -⟩ := hguard
    obtain ⟨k, hinv, hleft⟩ := h.of_rounds hphase
    have hleft := hleft hne
    obtain ⟨hsized', hs, hall, hqueue, hphase'⟩ := toBitmap_spec hroot hsized hinv hstep
    have hold : 0 < s.queue.size := by
      have hpos : 0 < (s.toState g).queue.size := by
        rw [hinv.slid.size_eq, List.length_pos_iff]
        intro hnil
        rw [← hinv.slid.empty_iff] at hnil
        exact Bool.eq_false_iff.mp hne hnil
      exact hpos
    refine ⟨left - 1, by omega, hsized', .bottomUp hphase' hold hinv ?_ le_rfl hs hall (by omega)⟩
    rw [hqueue, Gapbs.SlidingQueue.toBFS_slideWindow]
    rfl
  | bottomUp work accesses =>
    cases h with
    | rounds hphase => simp [hphase] at hstep
    | @bottomUp k₀ k old s₀ hphase hold hinv hqueue hk hs hall hleft =>
      simp only [hphase] at hstep
      obtain ⟨hsized', hs', hfront, hqueue', awakeCount, hpos, hphase'⟩ :=
        bottomUp_spec hroot hsized hs hall hapart hstep
      rw [← hqueue'] at hqueue
      have hless (v : Nat) (hv : Level g root (k + 1) v) :
          unreached g root (k + 1) < unreached g root k :=
        unreached_lt hroot hv (Nat.lt_succ_self k)
      refine ⟨left - 1, by omega, hsized', ?_⟩
      split_ifs at hphase' with hmore
      · have hawake : 0 < awakeCount :=
          hmore.elim (fun hle => hold.trans_le hle) Nat.zero_lt_of_lt
        obtain ⟨v, hv⟩ := hpos hawake
        have := hless v hv
        exact .bottomUp hphase' hawake hinv hqueue (by omega) hs' (fun v => (hfront v).mpr)
          (by omega)
      · refine .toQueue hphase' hinv hqueue (by omega) hs' hfront ⟨by omega, ?_⟩
        rintro ⟨v, hv⟩
        have := hless v hv
        omega
    | toQueue hphase => simp [hphase] at hstep
  | toQueue work flushes =>
    simp only at hstep
    split_ifs at hstep with hphase
    cases h with
    | rounds hphase' | bottomUp hphase' =>
      rw [hphase] at hphase'
      cases hphase'
    | toQueue _ hinv hqueue hk hs hfront hleft =>
      obtain ⟨hsized', hinv', hphase'⟩ := toQueue_spec hsized hinv hqueue hk hs hfront hstep
      refine ⟨left - 1, by omega, hsized', .rounds hphase' hinv' fun hne => ?_⟩
      have := hleft.2 (exists_level hinv' hne)
      omega

/-! ### No region is stuck -/

theorem shared_length_le {s : State} (hroot : root < g.maxVid) (h : Inv g root k s) :
    s.queue.shared.length ≤ g.maxVid := by
  have hsub : s.queue.shared ⊆ List.range g.maxVid := by
    intro v hv
    obtain ⟨j, -, hlevel⟩ := h.pushed v hv
    exact List.mem_range.mpr (hlevel.lt hroot)
  exact (List.subperm_of_subset h.nodup hsub).length_le.trans_eq List.length_range

/-- The queue has room for what a top-down round finds. -/
theorem discovered_fit (hroot : root < g.maxVid) (h : Inv g root k (s.toState g))
    {work : ι → List (Nat × Nat)}
    (hwork : ∑ t, (work t : Multiset (Nat × Nat)) =
      (s.queue.window.flatMap fun u => (g.edges u).map fun v => (u, v) : List (Nat × Nat)))
    {accesses : List ι} {c : Scanners ι}
    (hc : exec (Scanners.step s.distance) (.init s.distances work) accesses = some c)
    (hend : ∀ t, (c.scanner t).todo = []) :
    s.queue.sharedIn + ∑ t, (c.scanner t).discovered.length ≤ g.maxVid := by
  obtain ⟨order, horder⟩ := Scanners.ordered_of_exec hc
  rw [window_toState h.slid] at hwork
  have hpairs := Multiset.coe_eq_coe.mp ((horder.multiset_eq hend).trans hwork)
  have hnext := h.topDown hroot (.ofOrder _ _ [] [] hpairs (List.Perm.refl []))
  have hlen := shared_length_le hroot hnext
  have hcard := congrArg Multiset.card horder.discovered
  simp only [Multiset.card_sum, Multiset.coe_card, Scanners.inOrder] at hcard
  have hpushes (l : List Nat) : (if l = [] then [] else l) = l := by
    split_ifs with hl
    · exact hl.symm
    · rfl
  simp only [BFS.topDown, doBfsTDStep, Schedule.ofOrder, if_true, toState, hpushes,
    BFS.SlidingQueue.foldl_pushBack, BFS.SlidingQueue.slideWindow, List.length_append,
    Gapbs.SlidingQueue.toBFS, Gapbs.SlidingQueue.pushed, List.length_map, List.length_range] at hlen
  omega

section Alone

variable [Nonempty ι]

theorem exists_toBitmap (hroot : root < g.maxVid) (hsized : s.Sized g)
    (h : Inv g root k (s.toState g)) :
    ∃ (work : ι → List Nat) (accesses : List ι) (s' : Parallel),
      s.toBitmap work accesses = some s' := by
  obtain ⟨t₀⟩ := ‹Nonempty ι›
  have hwork := sum_alone s.queue.window t₀
  obtain ⟨accesses, c, hc, hend⟩ := Bitmap.exists_end s.front
    (fun t => if t = t₀ then s.queue.window else []) fun t pos hpos => by
      have hmem : pos ∈ s.queue.window := by
        split_ifs at hpos
        · exact hpos
        · cases hpos
      rw [window_toState h.slid, h.window] at hmem
      exact hsized.front pos (hmem.lt hroot)
  refine ⟨fun t => if t = t₀ then s.queue.window else [], accesses, ?_⟩
  rw [toBitmap, if_pos hwork, hc, Option.bind_some, if_pos hend]
  exact ⟨_, rfl⟩

theorem exists_topDown (hroot : root < g.maxVid) (hsize : 0 < localSize) (hsized : s.Sized g)
    (h : Inv g root k (s.toState g)) :
    ∃ (work : ι → List (Nat × Nat)) (accesses flushes : List ι) (s' : Parallel),
      s.topDown g localSize work accesses flushes = some s' := by
  obtain ⟨t₀⟩ := ‹Nonempty ι›
  let edges := s.queue.window.flatMap fun u => (g.edges u).map fun v => (u, v)
  have hwork := sum_alone edges t₀
  obtain ⟨accesses, c, hc, hend⟩ :=
    Scanners.exists_end s.distance (.init s.distances fun t => if t = t₀ then edges else [])
  have hfit := discovered_fit hroot h hwork hc hend
  rw [← hsized.queue] at hfit
  obtain ⟨flushes, r, hr, hdone⟩ := Gapbs.SlidingQueue.Region.exists_end s.queue
    (fun t => (c.scanner t).discovered) hsize hfit
  refine ⟨fun t => if t = t₀ then edges else [], accesses, flushes, ?_⟩
  rw [topDown, if_pos hwork, hc, Option.bind_some, hr, Option.bind_some, if_pos ⟨hend, hdone⟩]
  exact ⟨_, rfl⟩

theorem exists_bottomUp (hsized : s.Sized g) (numVertices beta oldAwakeCount : Nat) :
    ∃ (work : ι → List Nat) (accesses : List ι), KeepsWords g s (.bottomUp work accesses) ∧
      ∃ s', s.bottomUp g numVertices beta oldAwakeCount work accesses = some s' := by
  obtain ⟨t₀⟩ := ‹Nonempty ι›
  have hwork := sum_alone (List.range g.maxVid) t₀
  have hapart (awake : Nat → Bool) : Bitmap.WordsApart fun t =>
      (if t = t₀ then List.range g.maxVid else []).filter awake := by
    intro t u htu p hp q hq
    by_cases ht : t = t₀
    · have hu : u ≠ t₀ := fun hu => htu (ht.trans hu.symm)
      simp [hu] at hq
    · simp [ht] at hp
  obtain ⟨accesses, c, hc, hend⟩ := Wakers.exists_end (nodup_share hwork)
    (fun t u hu => (exists_mem_work hwork u).mp ⟨t, hu⟩) (hapart _) hsized.curr hsized.front
  refine ⟨fun t => if t = t₀ then List.range g.maxVid else [], accesses, hapart _, ?_⟩
  rw [bottomUp, if_pos hwork, hc, Option.bind_some, if_pos hend]
  exact ⟨_, rfl⟩

theorem exists_toQueue {k₀ : Nat} {s₀ : State} (hroot : root < g.maxVid) (hsize : 0 < localSize)
    (hsized : s.Sized g) (h₀ : Inv g root k₀ s₀)
    (hqueue : s.queue.toBFS = s₀.queue.slideWindow) (hk : k₀ < k)
    (h : Searched g root k (s.toState g))
    (hfront : ∀ v, (s.toState g).front v = true ↔ Level g root k v) :
    ∃ (work : ι → List Nat) (flushes : List ι) (s' : Parallel),
      s.toQueue g localSize work flushes = some s' := by
  obtain ⟨t₀⟩ := ‹Nonempty ι›
  have hwork := sum_alone (List.range g.maxVid) t₀
  have hfit : s.queue.sharedIn + ∑ t, ((if t = t₀ then List.range g.maxVid else []).filter
      s.front.getBit).length ≤ s.queue.sharedSize := by
    have hnext : Inv g root k { s.toState g with queue :=
        (((List.range g.maxVid).filter s.front.getBit).foldl .pushBack s.queue.toBFS).slideWindow } :=
      h₀.push hk ⟨h.distance, h.marked, h.front⟩ (fun v => ?_) (List.nodup_range.filter _)
        (hqueue ▸ h₀.slid.slideWindow) (by rw [hqueue]; rfl) rfl
    · have hlen := shared_length_le hroot hnext
      have hcard := congrArg Multiset.card (sum_filter hwork s.front.getBit)
      simp only [Multiset.card_sum, Multiset.coe_card] at hcard
      simp only [BFS.SlidingQueue.foldl_pushBack, BFS.SlidingQueue.slideWindow, List.length_append,
        Gapbs.SlidingQueue.toBFS, Gapbs.SlidingQueue.pushed, List.length_map,
        List.length_range] at hlen
      rw [hsized.queue]
      omega
    · rw [List.mem_filter, List.mem_range, ← hfront]
      simp [toState, Bitmap.toBFS]
  obtain ⟨flushes, r, hr, hdone⟩ := Gapbs.SlidingQueue.Region.exists_end s.queue _ hsize hfit
  refine ⟨fun t => if t = t₀ then List.range g.maxVid else [], flushes, ?_⟩
  rw [toQueue, if_pos hwork, hr, Option.bind_some, if_pos hdone]
  exact ⟨_, rfl⟩

/-- The region that is next can be run to its end. -/
theorem exists_step (numVertices alpha beta : Nat) (hroot : root < g.maxVid) (hsize : 0 < localSize)
    (hsized : s.Sized g) (h : s.Searching g root left)
    (hne : s.phase = .rounds → s.queue.empty = false) :
    ∃ (e : Region ι) (s' : Parallel), KeepsWords g s e ∧
      step g localSize numVertices alpha beta s e = some s' := by
  cases h with
  | rounds hphase hinv =>
    by_cases hheur : s.edgesToCheck.tdiv alpha < s.scoutCount
    · obtain ⟨work, accesses, s', hs'⟩ := exists_toBitmap (ι := ι) hroot hsized hinv
      exact ⟨.toBitmap work accesses, s', trivial, (if_pos ⟨hphase, hne hphase, hheur⟩).trans hs'⟩
    · obtain ⟨work, accesses, flushes, s', hs'⟩ := exists_topDown (ι := ι) hroot hsize hsized hinv
      exact ⟨.topDown work accesses flushes, s', trivial,
        (if_pos ⟨hphase, hne hphase, hheur⟩).trans hs'⟩
  | @bottomUp _ _ old _ hphase =>
    obtain ⟨work, accesses, hapart, s', hs'⟩ :=
      exists_bottomUp (ι := ι) hsized numVertices beta old
    refine ⟨.bottomUp work accesses, s', hapart, ?_⟩
    simp only [step, hphase, hs']
  | toQueue hphase hinv hqueue hk hs hfront =>
    obtain ⟨work, flushes, s', hs'⟩ :=
      exists_toQueue (ι := ι) hroot hsize hsized hinv hqueue hk hs hfront
    exact ⟨.toQueue work flushes, s', trivial, (if_pos hphase).trans hs'⟩

end Alone

theorem distances_of_empty {s : State} (h : Inv g root k s) (hempty : s.queue.empty = true) :
    (∀ v j, Level g root j v → s.distances v = j) ∧
    ∀ v < g.maxVid, (∀ j, ¬Walk (fun u v => v ∈ g.edges u) root j v) → s.distances v < 0 := by
  rw [h.slid.empty_iff] at hempty
  have hlast (j v : Nat) (hlevel : Level g root j v) : j < k := by
    by_contra hge
    obtain ⟨u, hu⟩ := hlevel.exists_of_le (Nat.le_of_not_lt hge)
    have hmem := (h.window u).mpr hu
    rw [hempty] at hmem
    cases hmem
  refine ⟨fun v j hlevel => h.marked.level j (hlast j v hlevel).le v hlevel, fun v hv hno => ?_⟩
  exact (h.marked.neg_iff hv).mpr fun j _ hlevel => hno j hlevel.1

/-- A run pays one of its regions for each step. -/
theorem searching_of_exec {memory : Nat → Nat} {words words' : Nat → BitVec 64} {s₀ s : Parallel}
    {es : List (Region ι)} (hroot : root < g.maxVid)
    (hstart : start g root memory words words' = some s₀)
    (hok : Along (step g localSize numVertices alpha beta) (KeepsWords g) s₀ es)
    (hrun : exec (step g localSize numVertices alpha beta) s₀ es = some s) :
    ∃ left, es.length + left ≤ 3 * unreached g root 0 + 3 ∧ s.Sized g ∧ s.Searching g root left := by
  obtain ⟨hsized₀, hinv₀, hphase₀⟩ := start_spec hroot hstart
  have hranked : ∀ s (e : Region ι) s' left, s.Sized g ∧ s.Searching g root left →
      KeepsWords g s e → step g localSize numVertices alpha beta s e = some s' →
      ∃ left' < left, s'.Sized g ∧ s'.Searching g root left' :=
    fun _ _ _ _ h => searching_step hroot h.1 h.2
  exact Along.exists_ranked hranked
    ⟨hsized₀, .rounds hphase₀ hinv₀ fun _ => le_refl (3 * unreached g root 0 + 3)⟩ hok hrun

/-- bfs on any number of threads, with its loops shared and all accesses ordered in any way, as long
as the threads of a bottom-up step keep to their own words: no region is ever stuck or leaves an
array, after boundedly many regions the queue is empty, and then a reachable vertex has its number
of edges from the root and any other one a negative mark. -/
theorem parallelBfs_spec [Nonempty ι] (g : Snapshot) (root localSize numVertices alpha beta : Nat)
    (hroot : root < g.maxVid) (hsize : 0 < localSize) {memory : Nat → Nat}
    {words words' : Nat → BitVec 64} {s₀ s : Parallel} {es : List (Region ι)}
    (hstart : start g root memory words words' = some s₀)
    (hok : Along (step g localSize numVertices alpha beta) (KeepsWords g) s₀ es)
    (hrun : exec (step g localSize numVertices alpha beta) s₀ es = some s) :
    es.length ≤ 3 * g.maxVid ∧
    (¬(s.phase = .rounds ∧ s.queue.empty = true) → ∃ (e : Region ι) (s' : Parallel),
      KeepsWords g s e ∧ step g localSize numVertices alpha beta s e = some s') ∧
    (s.phase = .rounds ∧ s.queue.empty = true →
      (∀ v k, Level g root k v → s.distances v = k) ∧
      ∀ v < g.maxVid, (∀ k, ¬Walk (fun u v => v ∈ g.edges u) root k v) → s.distances v < 0) := by
  obtain ⟨left, hlen, hsized, hs⟩ := searching_of_exec hroot hstart hok hrun
  refine ⟨?_, fun hnot => ?_, fun hend => ?_⟩
  · have hless : unreached g root 0 < g.maxVid := unreached_lt_maxVid hroot
    omega
  · refine exists_step numVertices alpha beta hroot hsize hsized hs fun hphase => ?_
    by_contra hne
    exact hnot ⟨hphase, Bool.eq_true_of_not_eq_false hne⟩
  · obtain ⟨k, hinv, -⟩ := hs.of_rounds hend.1
    exact distances_of_empty hinv hend.2

/-- Two threads, each with two vertices of the line: two levels are found bottom-up. -/
def lineRegions : List (Region Bool) :=
  let share : Bool → List Nat := fun t => if t then [2, 3] else [0, 1]
  [.toBitmap (fun t => if t then [] else [0]) [false, false],
    .bottomUp share
      [false, true, false, true, true, false, false, true, false, true, false],
    .bottomUp share [false, false, true, true, true, true, true, true, true],
    .bottomUp share [false, false, true, true, true],
    .toQueue share [false, false, true, true]]

theorem parallelBfs_spec_line :
    ∃ s₀ s : Parallel, start line 0 (fun _ => 0) (fun _ => 7#64) (fun _ => 7#64) = some s₀ ∧
      exec (step line 2 4 15 18) s₀ lineRegions = some s ∧
      (∀ v k, Level line 0 k v → s.distances v = k) ∧
      ∀ v < 4, (∀ k, ¬Walk (fun u v => v ∈ line.edges u) 0 k v) → s.distances v < 0 := by
  obtain ⟨s₀, hstart, hok, hends⟩ :
      ∃ s₀, start line 0 (fun _ => 0) (fun _ => 7#64) (fun _ => 7#64) = some s₀ ∧
        Along (step line 2 4 15 18) (KeepsWords line) s₀ lineRegions ∧
        (exec (step line 2 4 15 18) s₀ lineRegions).any
          (fun s => s.phase = .rounds ∧ s.queue.empty = true) :=
    ⟨_, rfl, by decide +kernel, by decide +kernel⟩
  obtain ⟨s, hrun, hend⟩ :=
    exists_exec (P := fun s : Parallel => s.phase = .rounds ∧ s.queue.empty = true) hends
  exact ⟨s₀, s, hstart, hrun,
    (parallelBfs_spec line 0 2 4 15 18 (by decide) (by decide) hstart hok hrun).2.2 hend⟩

end Parallel

end AVBGraph.BFS
