import AVBGraph.Framework.Run
import AVBGraph.Framework.Interleaving
import AVBGraph.Algorithm.Bitmap
import AVBGraph.Algorithm.BFS
import Mathlib.Tactic

namespace AVBGraph

/-- The bits of the vertices, as the searches use them. -/
def Gapbs.Bitmap.toBFS (b : Gapbs.Bitmap) (maxVid v : Nat) : Bool := decide (v < maxVid) && b.getBit v

namespace BFS

open Framework Function

/-- Where a thread of do_bfs_BUStep is with its vertex; `load` and `store` are the accesses of
set_bit. -/
inductive Position
  | test
  | scan (edges : List Nat)
  | found
  | load
  | store (oldVal : BitVec 64)
  deriving DecidableEq

/-- A thread of do_bfs_BUStep: the vertices of its share that are left, where it is with the first
one, and its share of the awake count. -/
structure Waker where
  todo : List Nat
  position : Position
  awakeCount : Nat
  deriving DecidableEq

/-- The threads of a bottom-up step over the shared distances and the bitmap `next`. -/
structure Wakers (ι : Type*) where
  distances : Nat → Int
  next : Gapbs.Bitmap
  waker : ι → Waker

namespace Wakers

open Gapbs.Bitmap (wordOffset mask WordsApart)

variable {ι : Type*}

/-- The step before its first access to `next`, which has been reset. -/
def init (distances : Nat → Int) (next : Gapbs.Bitmap) (work : ι → List Nat) : Wakers ι :=
  ⟨distances, next.reset, fun t => ⟨work t, .test, 0⟩⟩

/-- The threads with one of them changed. -/
def setWaker [DecidableEq ι] (s : Wakers ι) (t : ι) (b : Waker) : Wakers ι :=
  { s with waker := update s.waker t b }

/-- At most one shared access of a thread; the two reads of its distance are one step, since no
other thread writes it. An access outside of a bitmap is no step. -/
def step [DecidableEq ι] (g : Snapshot) (distance : Nat) (front : Gapbs.Bitmap) (s : Wakers ι)
    (t : ι) : Option (Wakers ι) :=
  match s.waker t with
  | ⟨[], _, _⟩ => none
  | ⟨u :: todo, .test, count⟩ =>
    if s.distances u = int64Max then some (s.setWaker t ⟨todo, .test, count⟩)
    else if s.distances u < 0 then some (s.setWaker t ⟨u :: todo, .scan (g.edges u), count⟩)
    else some (s.setWaker t ⟨todo, .test, count⟩)
  | ⟨_ :: todo, .scan [], count⟩ => some (s.setWaker t ⟨todo, .test, count⟩)
  | ⟨u :: todo, .scan (v :: edges), count⟩ =>
    (Framework.load front.numWords front.start (wordOffset v)).map fun _ =>
      s.setWaker t ⟨u :: todo, if front.getBit v then .found else .scan edges, count⟩
  | ⟨u :: todo, .found, count⟩ =>
    some (setWaker { s with distances := update s.distances u distance } t
      ⟨u :: todo, .load, count + 1⟩)
  | ⟨u :: todo, .load, count⟩ =>
    (Framework.load s.next.numWords s.next.start (wordOffset u)).map fun word =>
      s.setWaker t ⟨u :: todo, .store word, count⟩
  | ⟨u :: todo, .store oldVal, count⟩ =>
    (Framework.store s.next.numWords s.next.start (wordOffset u) (oldVal ||| mask u)).map
      fun start => setWaker { s with next := ⟨s.next.numWords, start⟩ } t ⟨todo, .test, count⟩

/-! ### What a step does -/

variable [DecidableEq ι] {g : Snapshot} {distance : Nat} {front : Gapbs.Bitmap} {s s' : Wakers ι}
  {t : ι}

inductive Event (g : Snapshot) (distance : Nat) (front : Gapbs.Bitmap) (s : Wakers ι) (t : ι) :
    Wakers ι → Prop
  | visited {u : Nat} {todo : List Nat} {count : Nat} (ht : s.waker t = ⟨u :: todo, .test, count⟩)
      (hpos : 0 ≤ s.distances u) :
      Event g distance front s t (s.setWaker t ⟨todo, .test, count⟩)
  | begins {u : Nat} {todo : List Nat} {count : Nat} (ht : s.waker t = ⟨u :: todo, .test, count⟩)
      (hneg : s.distances u < 0) :
      Event g distance front s t (s.setWaker t ⟨u :: todo, .scan (g.edges u), count⟩)
  | misses {u : Nat} {todo : List Nat} {count : Nat}
      (ht : s.waker t = ⟨u :: todo, .scan [], count⟩) :
      Event g distance front s t (s.setWaker t ⟨todo, .test, count⟩)
  | passes {u v : Nat} {edges todo : List Nat} {count : Nat}
      (ht : s.waker t = ⟨u :: todo, .scan (v :: edges), count⟩) (hclear : front.getBit v = false) :
      Event g distance front s t (s.setWaker t ⟨u :: todo, .scan edges, count⟩)
  | finds {u v : Nat} {edges todo : List Nat} {count : Nat}
      (ht : s.waker t = ⟨u :: todo, .scan (v :: edges), count⟩) (hset : front.getBit v = true) :
      Event g distance front s t (s.setWaker t ⟨u :: todo, .found, count⟩)
  | marks {u : Nat} {todo : List Nat} {count : Nat} (ht : s.waker t = ⟨u :: todo, .found, count⟩) :
      Event g distance front s t
        (setWaker { s with distances := update s.distances u distance } t
          ⟨u :: todo, .load, count + 1⟩)
  | loads {u : Nat} {todo : List Nat} {count : Nat} (ht : s.waker t = ⟨u :: todo, .load, count⟩) :
      Event g distance front s t
        (s.setWaker t ⟨u :: todo, .store (s.next.start (wordOffset u)), count⟩)
  | stores {u : Nat} {todo : List Nat} {oldVal : BitVec 64} {count : Nat}
      (ht : s.waker t = ⟨u :: todo, .store oldVal, count⟩) :
      Event g distance front s t
        (setWaker { s with next :=
          ⟨s.next.numWords, update s.next.start (wordOffset u) (oldVal ||| mask u)⟩ } t
          ⟨todo, .test, count⟩)

theorem event_of_step (h : step g distance front s t = some s') :
    Event g distance front s t s' := by
  unfold step Framework.load Framework.store at h
  rcases ht : s.waker t with ⟨todo, position, count⟩
  rw [ht] at h
  rcases todo with - | ⟨u, todo⟩
  · cases position <;> cases h
  · cases position with
    | test =>
      simp only at h
      split_ifs at h with hmax hneg
      · obtain rfl := Option.some.inj h
        exact .visited ht (by rw [hmax, int64Max]; norm_num)
      · obtain rfl := Option.some.inj h
        exact .begins ht hneg
      · obtain rfl := Option.some.inj h
        exact .visited ht (Int.not_lt.mp hneg)
    | scan edges =>
      cases edges with
      | nil =>
        obtain rfl := Option.some.inj h
        exact .misses ht
      | cons v edges =>
        obtain ⟨word, -, rfl⟩ := Option.map_eq_some_iff.mp h
        cases hbit : front.getBit v with
        | false => simpa using Event.passes ht hbit
        | true => simpa using Event.finds ht hbit
    | found =>
      obtain rfl := Option.some.inj h
      exact .marks ht
    | load =>
      obtain ⟨word, hword, rfl⟩ := Option.map_eq_some_iff.mp h
      split_ifs at hword
      obtain rfl := Option.some.inj hword
      exact .loads ht
    | store oldVal =>
      obtain ⟨start, hstart, rfl⟩ := Option.map_eq_some_iff.mp h
      split_ifs at hstart
      obtain rfl := Option.some.inj hstart
      exact .stores ht

/-! ### The vertices that are done -/

/-- The vertex whose distance is set and whose bit is not. -/
def current : Waker → List Nat
  | ⟨u :: _, .load, _⟩ | ⟨u :: _, .store _, _⟩ => [u]
  | _ => []

/-- What a thread knows at its position, with the distances `distances` of the start. -/
def PositionOk (g : Snapshot) (front next : Gapbs.Bitmap) (distances : Nat → Int) : Waker → Prop
  | ⟨u :: _, .scan edges, _⟩ =>
    distances u < 0 ∧ (g.edges u).any front.getBit = edges.any front.getBit ∧ edges <:+ g.edges u
  | ⟨u :: _, .found, _⟩ | ⟨u :: _, .load, _⟩ => awakes g front.getBit distances u = true
  | ⟨u :: _, .store oldVal, _⟩ =>
    awakes g front.getBit distances u = true ∧ next.start (wordOffset u) = oldVal
  | _ => True

/-- The vertex awakes, and its thread has given it its distance. -/
def Reached (g : Snapshot) (front : Gapbs.Bitmap) (distances : Nat → Int) (s : Wakers ι)
    (done : ι → List Nat) (v : Nat) : Prop :=
  awakes g front.getBit distances v = true ∧ ∃ t, v ∈ done t ++ current (s.waker t)

/-- Every thread is done with a part of its work, and exactly the vertices there that awake have
their distance and their bit. -/
structure Woken (g : Snapshot) (distance : Nat) (front : Gapbs.Bitmap) (numWords : Nat)
    (distances : Nat → Int) (work : ι → List Nat) (s : Wakers ι) (done : ι → List Nat) : Prop where
  size : s.next.numWords = numWords
  parts : ∀ t, done t ++ (s.waker t).todo = work t
  reached : ∀ v, Reached g front distances s done v → s.distances v = distance
  unreached : ∀ v, ¬Reached g front distances s done v → s.distances v = distances v
  bits : ∀ v, wordOffset v < numWords → (s.next.getBit v = true ↔
    awakes g front.getBit distances v = true ∧ ∃ t, v ∈ done t)
  counts : ∀ t, (s.waker t).awakeCount =
    (done t).countP (awakes g front.getBit distances) + (current (s.waker t)).length
  position : ∀ t, PositionOk g front s.next distances (s.waker t)

variable {numWords : Nat} {distances : Nat → Int} {work done : ι → List Nat}

theorem current_test (todo : List Nat) (count : Nat) : current ⟨todo, .test, count⟩ = [] := by
  cases todo <;> rfl

theorem positionOk_test (next : Gapbs.Bitmap) (todo : List Nat) (count : Nat) :
    PositionOk g front next distances ⟨todo, .test, count⟩ := by
  cases todo <;> trivial

omit [DecidableEq ι] in
theorem woken_init (g : Snapshot) (distance : Nat) (front next : Gapbs.Bitmap)
    (distances : Nat → Int) (work : ι → List Nat) :
    Woken g distance front next.numWords distances work (init distances next work) fun _ => [] where
  size := rfl
  parts := fun _ => rfl
  reached := by
    rintro v ⟨-, t, ht⟩
    simp [init, current_test] at ht
  unreached := fun _ _ => rfl
  bits := by
    intro v hv
    simp [init, Gapbs.Bitmap.getBit_reset hv]
  counts := by simp [init, current_test]
  position := fun t => positionOk_test _ _ _

/-- A thread goes on with the same vertex. -/
theorem Woken.move (h : Woken g distance front numWords distances work s done) {b : Waker}
    (htodo : b.todo = (s.waker t).todo) (hcurrent : current b = current (s.waker t))
    (hcount : b.awakeCount = (s.waker t).awakeCount)
    (hposition : PositionOk g front s.next distances b) :
    Woken g distance front numWords distances work (s.setWaker t b) done := by
  have hsame (u : ι) : ((s.setWaker t b).waker u).todo = (s.waker u).todo ∧
      current ((s.setWaker t b).waker u) = current (s.waker u) ∧
      ((s.setWaker t b).waker u).awakeCount = (s.waker u).awakeCount := by
    by_cases hu : u = t
    · subst u
      simp [setWaker, htodo, hcurrent, hcount]
    · simp [setWaker, hu]
  have hreached (v : Nat) : Reached g front distances (s.setWaker t b) done v ↔
      Reached g front distances s done v := by
    simp only [Reached, (hsame _).2.1]
  refine ⟨h.size, fun u => ?_, fun v hv => h.reached v ((hreached v).mp hv),
    fun v hv => h.unreached v (mt (hreached v).mpr hv), h.bits, fun u => ?_, ?_⟩
  · rw [(hsame u).1]
    exact h.parts u
  · rw [(hsame u).2.1, (hsame u).2.2]
    exact h.counts u
  · exact forall_update.mpr ⟨hposition, fun u _ => h.position u⟩

/-- A thread is done with its vertex. -/
theorem parts_done (h : ∀ u, done u ++ (s.waker u).todo = work u) {u : Nat} {todo : List Nat}
    {position : Position} {count count' : Nat} (ht : s.waker t = ⟨u :: todo, position, count⟩)
    (v : ι) : update done t (done t ++ [u]) v ++
      (update s.waker t ⟨todo, .test, count'⟩ v).todo = work v := by
  have hv := h v
  by_cases hvt : v = t
  · subst v
    simpa [ht] using hv
  · simpa [hvt] using hv

theorem mem_update_done {u v : Nat} : (∃ t', v ∈ update done t (done t ++ [u]) t') ↔
    v = u ∨ ∃ t', v ∈ done t' := by
  constructor
  · rintro ⟨t', ht'⟩
    by_cases heq : t' = t
    · subst t'
      rw [update_self, List.mem_append, List.mem_singleton] at ht'
      exact ht'.symm.imp_right fun h => ⟨t, h⟩
    · rw [update_of_ne heq] at ht'
      exact .inr ⟨t', ht'⟩
  · rintro (rfl | ⟨t', ht'⟩)
    · exact ⟨t, by simp⟩
    · refine ⟨t', ?_⟩
      by_cases heq : t' = t
      · subst t'
        simp [ht']
      · simpa [heq] using ht'

/-- A vertex that does not awake is done without a trace. -/
theorem Woken.pass (h : Woken g distance front numWords distances work s done) {u : Nat}
    {todo : List Nat} {position : Position} {count : Nat}
    (ht : s.waker t = ⟨u :: todo, position, count⟩) (hcurrent : current (s.waker t) = [])
    (hasleep : awakes g front.getBit distances u = false) :
    Woken g distance front numWords distances work (s.setWaker t ⟨todo, .test, count⟩)
      (update done t (done t ++ [u])) := by
  have hcur (v : ι) : current ((s.setWaker t ⟨todo, .test, count⟩).waker v) = current (s.waker v) := by
    by_cases hv : v = t
    · subst v
      rw [hcurrent]
      simp [setWaker, current_test]
    · simp [setWaker, hv]
  have hne {v : Nat} (hv : awakes g front.getBit distances v = true) : v ≠ u := by
    rintro rfl
    rw [hasleep] at hv
    cases hv
  have hreached (v : Nat) :
      Reached g front distances (s.setWaker t ⟨todo, .test, count⟩) (update done t (done t ++ [u])) v ↔
        Reached g front distances s done v := by
    refine and_congr_right fun hawake => ?_
    simp only [hcur, List.mem_append, exists_or, mem_update_done, hne hawake, false_or]
  refine ⟨h.size, parts_done h.parts ht, fun v hv => h.reached v ((hreached v).mp hv),
    fun v hv => h.unreached v (mt (hreached v).mpr hv), fun v hv => ?_, fun v => ?_, ?_⟩
  · refine (h.bits v hv).trans (and_congr_right fun hawake => ?_)
    rw [mem_update_done]
    simp [hne hawake]
  · have hv := h.counts v
    rw [hcur]
    by_cases hvt : v = t
    · subst v
      rw [ht] at hv
      simpa [setWaker, hasleep, ht] using hv
    · simpa [setWaker, hvt] using hv
  · exact forall_update.mpr ⟨positionOk_test _ _ _, fun v _ => h.position v⟩

/-- Nobody else works at the vertex of a thread. -/
theorem Woken.not_reached [Fintype ι] (hwork : (∑ t, (work t : Multiset Nat)).Nodup)
    (h : Woken g distance front numWords distances work s done) {u : Nat} {todo : List Nat}
    {position : Position} {count : Nat} (ht : s.waker t = ⟨u :: todo, position, count⟩)
    (hcurrent : current (s.waker t) = []) :
    ¬Reached g front distances s done u := by
  rintro ⟨-, t', ht'⟩
  have hmine : u ∈ work t := by
    rw [← h.parts t, ht]
    simp
  have hpart : ∀ v, current (s.waker v) ⊆ (s.waker v).todo := by
    intro v w hw
    rcases hv : s.waker v with ⟨_ | ⟨x, todo⟩, position, count⟩
    · cases position <;> simp [hv, current] at hw
    · cases position <;> simp_all [current]
  have htheirs : u ∈ work t' := by
    rw [← h.parts t']
    exact List.append_subset.mpr ⟨List.subset_append_left _ _,
      List.subset_append_of_subset_right _ (hpart t')⟩ ht'
  obtain rfl := party_unique hwork hmine htheirs
  rw [hcurrent, List.append_nil] at ht'
  have hnodup := nodup_of_sum_nodup hwork t
  rw [← h.parts t, ht] at hnodup
  exact List.disjoint_of_nodup_append hnodup ht' List.mem_cons_self

theorem Woken.distances_eq [Fintype ι] (hwork : (∑ t, (work t : Multiset Nat)).Nodup)
    (h : Woken g distance front numWords distances work s done) {u : Nat} {todo : List Nat}
    {position : Position} {count : Nat} (ht : s.waker t = ⟨u :: todo, position, count⟩)
    (hcurrent : current (s.waker t) = []) : s.distances u = distances u :=
  h.unreached u (h.not_reached hwork ht hcurrent)

/-- The vertex of a thread gets its distance. -/
theorem Woken.mark (h : Woken g distance front numWords distances work s done) {u : Nat}
    {todo : List Nat} {count : Nat} (ht : s.waker t = ⟨u :: todo, .found, count⟩) :
    Woken g distance front numWords distances work
      (setWaker { s with distances := update s.distances u distance } t
        ⟨u :: todo, .load, count + 1⟩) done := by
  have hawake : awakes g front.getBit distances u = true := by
    have := h.position t
    rwa [ht] at this
  have hcurrent : current (s.waker t) = [] := by rw [ht]; rfl
  have hreached (v : Nat) : Reached g front distances
      (setWaker { s with distances := update s.distances u distance } t
        ⟨u :: todo, .load, count + 1⟩) done v ↔ v = u ∨ Reached g front distances s done v := by
    constructor
    · rintro ⟨hv, t', ht'⟩
      by_cases heq : t' = t
      · subst t'
        simp only [setWaker, update_self, current, List.mem_append, List.mem_singleton] at ht'
        exact ht'.symm.imp_right fun hdone => ⟨hv, t, List.mem_append_left _ hdone⟩
      · exact .inr ⟨hv, t', by simpa [setWaker, heq] using ht'⟩
    · rintro (rfl | ⟨hv, t', ht'⟩)
      · exact ⟨hawake, t, by simp [setWaker, current]⟩
      · refine ⟨hv, t', ?_⟩
        by_cases heq : t' = t
        · subst t'
          rw [hcurrent, List.append_nil] at ht'
          exact List.mem_append_left _ ht'
        · simpa [setWaker, heq] using ht'
  refine ⟨h.size, fun v => ?_, fun v hv => ?_, fun v hv => ?_, h.bits, fun v => ?_, ?_⟩
  · have hv := h.parts v
    by_cases hvt : v = t
    · subst v
      simpa [setWaker, ht] using hv
    · simpa [setWaker, hvt] using hv
  · by_cases heq : v = u
    · simp [setWaker, heq]
    · have hold := ((hreached v).mp hv).resolve_left heq
      simpa [setWaker, heq] using h.reached v hold
  · rw [hreached, not_or] at hv
    simpa [setWaker, hv.1] using h.unreached v hv.2
  · have hv := h.counts v
    by_cases hvt : v = t
    · subst v
      rw [ht] at hv
      simpa [setWaker, current] using hv
    · simpa [setWaker, hvt] using hv
  · exact forall_update.mpr ⟨hawake, fun v _ => h.position v⟩

/-- The bit of a vertex is set; the other threads hold other words. -/
theorem Woken.store (h : Woken g distance front numWords distances work s done)
    (hapart : WordsApart fun t => (work t).filter (awakes g front.getBit distances)) {u : Nat}
    {todo : List Nat} {oldVal : BitVec 64} {count : Nat}
    (ht : s.waker t = ⟨u :: todo, .store oldVal, count⟩) :
    Woken g distance front numWords distances work
      (setWaker { s with next :=
        ⟨s.next.numWords, update s.next.start (wordOffset u) (oldVal ||| mask u)⟩ } t
        ⟨todo, .test, count⟩) (update done t (done t ++ [u])) := by
  obtain ⟨hawake, hword⟩ : awakes g front.getBit distances u = true ∧
      s.next.start (wordOffset u) = oldVal := by
    have := h.position t
    rwa [ht] at this
  -- the vertex moves from `current` to `done`
  have hcur (v : ι) : update done t (done t ++ [u]) v ++
      current (update s.waker t ⟨todo, .test, count⟩ v) = done v ++ current (s.waker v) := by
    by_cases hv : v = t
    · subst v
      simp [ht, current]
    · simp [hv]
  have hreached (v : Nat) : Reached g front distances
      (setWaker { s with next :=
        ⟨s.next.numWords, update s.next.start (wordOffset u) (oldVal ||| mask u)⟩ } t
        ⟨todo, .test, count⟩) (update done t (done t ++ [u])) v ↔
        Reached g front distances s done v := by
    simp only [Reached, setWaker, hcur]
  refine ⟨h.size, parts_done h.parts ht, fun v hv => h.reached v ((hreached v).mp hv),
    fun v hv => h.unreached v (mt (hreached v).mpr hv), fun v hv => ?_, fun v => ?_, ?_⟩
  · have hbit := Gapbs.Bitmap.getBit_store s.next u v
    rw [hword] at hbit
    simp only [setWaker, hbit, Bool.or_eq_true, decide_eq_true_iff, h.bits v hv, mem_update_done]
    constructor
    · rintro (⟨hv, hdone⟩ | rfl)
      · exact ⟨hv, .inr hdone⟩
      · exact ⟨hawake, .inl rfl⟩
    · rintro ⟨hv, rfl | hdone⟩
      · exact .inr rfl
      · exact .inl ⟨hv, hdone⟩
  · have hv := h.counts v
    by_cases hvt : v = t
    · subst v
      rw [ht] at hv
      simpa [setWaker, current, current_test, hawake] using hv
    · simpa [setWaker, hvt] using hv
  · refine forall_update.mpr ⟨positionOk_test _ _ _, fun v hv => ?_⟩
    have hpos := h.position v
    rcases hwaker : s.waker v with ⟨_ | ⟨w, rest⟩, position, count'⟩
    · trivial
    · rw [hwaker] at hpos
      cases position with
      | store oldVal' =>
        obtain ⟨hawake', hword'⟩ := hpos
        have hmem {x : ι} {a : Nat} {l : List Nat} {p : Position} {c : Nat}
            (hx : s.waker x = ⟨a :: l, p, c⟩) : a ∈ work x := by
          rw [← h.parts x, hx]
          simp
        have hne : wordOffset w ≠ wordOffset u :=
          hapart v t hv w (List.mem_filter.mpr ⟨hmem hwaker, hawake'⟩) u
            (List.mem_filter.mpr ⟨hmem ht, hawake⟩)
        exact ⟨hawake', by simpa [setWaker, hne] using hword'⟩
      | _ => exact hpos

theorem Woken.event [Fintype ι] (hwork : (∑ t, (work t : Multiset Nat)).Nodup)
    (hapart : WordsApart fun t => (work t).filter (awakes g front.getBit distances))
    (h : Woken g distance front numWords distances work s done)
    (hevent : Event g distance front s t s') :
    ∃ done', Woken g distance front numWords distances work s' done' := by
  have hposition := h.position t
  cases hevent with
  | @visited u todo count ht hpos =>
    have hcurrent : current (s.waker t) = [] := by rw [ht]; rfl
    rw [h.distances_eq hwork ht hcurrent] at hpos
    refine ⟨_, h.pass ht hcurrent ?_⟩
    simp [awakes, Int.not_lt.mpr hpos]
  | @begins u todo count ht hneg =>
    have hcurrent : current (s.waker t) = [] := by rw [ht]; rfl
    rw [h.distances_eq hwork ht hcurrent] at hneg
    exact ⟨done, h.move (by rw [ht]) (by rw [hcurrent]; rfl) (by rw [ht])
      ⟨hneg, rfl, List.suffix_rfl⟩⟩
  | @misses u todo count ht =>
    rw [ht] at hposition
    refine ⟨_, h.pass ht (by rw [ht]; rfl) ?_⟩
    simp [awakes, hposition.2.1]
  | @passes u v edges todo count ht hclear =>
    rw [ht] at hposition
    obtain ⟨hneg, hany, hsuffix⟩ := hposition
    refine ⟨done, h.move (by rw [ht]) (by rw [ht]; rfl) (by rw [ht])
      ⟨hneg, ?_, (List.suffix_cons v edges).trans hsuffix⟩⟩
    simp [hany, hclear]
  | @finds u v edges todo count ht hset =>
    rw [ht] at hposition
    refine ⟨done, h.move (by rw [ht]) (by rw [ht]; rfl) (by rw [ht]) ?_⟩
    simp [PositionOk, awakes, hposition.1, hposition.2.1, hset]
  | marks ht => exact ⟨done, h.mark ht⟩
  | @loads u todo count ht =>
    rw [ht] at hposition
    exact ⟨done, h.move (by rw [ht]) (by rw [ht]; rfl) (by rw [ht]) ⟨hposition, rfl⟩⟩
  | stores ht => exact ⟨_, h.store hapart ht⟩

theorem woken_of_step [Fintype ι] (hwork : (∑ t, (work t : Multiset Nat)).Nodup)
    (hapart : WordsApart fun t => (work t).filter (awakes g front.getBit distances))
    (h : ∃ done, Woken g distance front numWords distances work s done)
    (hstep : step g distance front s t = some s') :
    ∃ done, Woken g distance front numWords distances work s' done := by
  obtain ⟨done, hdone⟩ := h
  exact hdone.event hwork hapart (event_of_step hstep)

theorem woken_of_exec [Fintype ι] (hwork : (∑ t, (work t : Multiset Nat)).Nodup)
    (hapart : WordsApart fun t => (work t).filter (awakes g front.getBit distances))
    {next : Gapbs.Bitmap} {es : List ι}
    (hrun : exec (step g distance front) (init distances next work) es = some s) :
    ∃ done, Woken g distance front next.numWords distances work s done :=
  invariant_of_step (fun _ _ _ h _ => woken_of_step hwork hapart h)
    ⟨_, woken_init g distance front next distances work⟩ (along_true _ _ _) hrun

/-- The accesses that a thread still makes, at most. -/
def weight (g : Snapshot) : Waker → Nat
  | ⟨[], _, _⟩ => 0
  | ⟨u :: todo, position, _⟩ =>
    (match position with
      | .test => (g.edges u).length + 5
      | .scan edges => edges.length + 4
      | .found => 3
      | .load => 2
      | .store _ => 1) + (todo.map fun v => (g.edges v).length + 5).sum

theorem weight_test (todo : List Nat) (count : Nat) : weight g ⟨todo, .test, count⟩ =
    (todo.map fun v => (g.edges v).length + 5).sum := by
  cases todo <;> rfl

theorem weight_step [Fintype ι] (hstep : step g distance front s t = some s') :
    ∑ u, weight g (s'.waker u) < ∑ u, weight g (s.waker u) := by
  have hless {s₁ : Wakers ι} {b : Waker} (hs : s₁.waker = s.waker)
      (hb : weight g b < weight g (s.waker t)) :
      ∑ u, weight g ((s₁.setWaker t b).waker u) < ∑ u, weight g (s.waker u) := by
    have := sum_update_add s.waker (weight g) t b
    simp only [setWaker, hs]
    omega
  cases event_of_step hstep with
  | visited ht _ | misses ht | stores ht =>
    refine hless rfl ?_
    rw [ht, weight_test]
    simp only [weight]
    omega
  | begins ht _ | passes ht _ | finds ht _ | marks ht | loads ht =>
    refine hless rfl ?_
    simp only [ht, weight, List.length_cons]
    omega

/-- No access leaves a bitmap. -/
theorem Woken.exists_step (h : Woken g distance front numWords distances work s done)
    (hlt : ∀ u ∈ work t, u < g.maxVid) (hnext : ∀ v < g.maxVid, wordOffset v < numWords)
    (hfront : ∀ v < g.maxVid, wordOffset v < front.numWords) (htodo : (s.waker t).todo ≠ []) :
    ∃ s', step g distance front s t = some s' := by
  have hposition := h.position t
  have hpart := h.parts t
  unfold step Framework.load Framework.store
  rcases ht : s.waker t with ⟨_ | ⟨u, todo⟩, position, count⟩
  · exact absurd (by rw [ht]) htodo
  · rw [ht] at hposition hpart
    have hu : u < g.maxVid := hlt u (by rw [← hpart]; simp)
    have hword : wordOffset u < s.next.numWords := h.size ▸ hnext u hu
    cases position with
    | test =>
      simp only
      split_ifs <;> exact ⟨_, rfl⟩
    | scan edges =>
      cases edges with
      | nil => exact ⟨_, rfl⟩
      | cons v edges =>
        have hv : v < g.maxVid := g.edges_lt u hu v (hposition.2.2.subset List.mem_cons_self)
        simp [hfront v hv]
    | found => exact ⟨_, rfl⟩
    | load => simp [hword]
    | store oldVal => simp [hword]

/-- The threads can always come to their ends. -/
theorem exists_end [Fintype ι] (hwork : (∑ t, (work t : Multiset Nat)).Nodup)
    (hlt : ∀ t, ∀ u ∈ work t, u < g.maxVid)
    (hapart : WordsApart fun t => (work t).filter (awakes g front.getBit distances))
    {next : Gapbs.Bitmap} (hnext : ∀ v < g.maxVid, wordOffset v < next.numWords)
    (hfront : ∀ v < g.maxVid, wordOffset v < front.numWords) :
    ∃ es s, exec (step g distance front) (init distances next work) es = some s ∧
      ∀ t, (s.waker t).todo = [] := by
  have hstep : ∀ s, (∃ done, Woken g distance front next.numWords distances work s done) →
      ¬(∀ t, (s.waker t).todo = []) → ∃ t s', step g distance front s t = some s' ∧
        (∃ done, Woken g distance front next.numWords distances work s' done) ∧
        ∑ u, weight g (s'.waker u) < ∑ u, weight g (s.waker u) := by
    rintro s ⟨done, hdone⟩ hnot
    obtain ⟨t, ht⟩ := not_forall.mp hnot
    obtain ⟨s', hs'⟩ := hdone.exists_step (hlt t) hnext hfront ht
    exact ⟨t, s', hs', woken_of_step hwork hapart ⟨done, hdone⟩ hs', weight_step hs'⟩
  exact exists_exec_end hstep ⟨_, woken_init g distance front next distances work⟩

end Wakers

/-! ### The step of the search -/

variable {g : Snapshot} {s : State} {front : Gapbs.Bitmap}

/-- The scan of a vertex asks for no bit beyond the vertices. -/
theorem awakes_congr (hbits : s.front = front.toBFS g.maxVid) {v : Nat} (hv : v < g.maxVid) :
    awakes g s.front s.distances v = awakes g front.getBit s.distances v := by
  have hany : (g.edges v).any s.front = (g.edges v).any front.getBit := by
    rw [Bool.eq_iff_iff, List.any_eq_true, List.any_eq_true]
    refine exists_congr fun w => and_congr_right fun hw => ?_
    simp [hbits, Gapbs.Bitmap.toBFS, g.edges_lt v hv w hw]
  unfold awakes
  rw [hany]

section Share

variable {ι : Type*} [Fintype ι] {work : ι → List Nat}
  (hwork : ∑ t, (work t : Multiset Nat) = List.range g.maxVid)

include hwork

theorem exists_mem_work (v : Nat) : (∃ t, v ∈ work t) ↔ v < g.maxVid := by
  rw [← List.mem_range, ← Multiset.mem_coe, ← hwork, Multiset.mem_sum]
  simp

theorem nodup_share : (∑ t, (work t : Multiset Nat)).Nodup := by
  rw [hwork, Multiset.coe_nodup]
  exact List.nodup_range

theorem woken_of_share [DecidableEq ι] (hbits : s.front = front.toBFS g.maxVid)
    {next : Gapbs.Bitmap}
    (hapart : Gapbs.Bitmap.WordsApart fun t => (work t).filter (awakes g s.front s.distances))
    {es : List ι} {c : Wakers ι}
    (hrun : exec (Wakers.step g s.distance front) (.init s.distances next work) es = some c) :
    ∃ done, Wakers.Woken g s.distance front next.numWords s.distances work c done := by
  have hawakes (t : ι) : (work t).filter (awakes g s.front s.distances) =
      (work t).filter (awakes g front.getBit s.distances) :=
    List.filter_congr fun v hv => awakes_congr hbits ((exists_mem_work hwork v).mp ⟨t, hv⟩)
  simp only [hawakes] at hapart
  exact Wakers.woken_of_exec (nodup_share hwork) hapart hrun

end Share

/-- The threads of a bottom-up step do what one thread does in any order of the vertices. -/
theorem doBfsBUStep_refines {ι : Type*} [Fintype ι] [DecidableEq ι]
    (hbits : s.front = front.toBFS g.maxVid) {next : Gapbs.Bitmap}
    (hnext : ∀ v < g.maxVid, Gapbs.Bitmap.wordOffset v < next.numWords) {work : ι → List Nat}
    (hwork : ∑ t, (work t : Multiset Nat) = List.range g.maxVid)
    (hapart : Gapbs.Bitmap.WordsApart fun t => (work t).filter (awakes g s.front s.distances))
    {es : List ι} {c : Wakers ι}
    (hrun : exec (Wakers.step g s.distance front) (.init s.distances next work) es = some c)
    (hend : ∀ t, (c.waker t).todo = []) (sched : Schedule) :
    doBfsBUStep g sched s = (∑ t, (c.waker t).awakeCount, { s with
      distances := c.distances
      front := c.next.toBFS g.maxVid
      curr := s.front
      distance := s.distance + 1 }) := by
  have hmem := exists_mem_work hwork
  obtain ⟨done, hdone⟩ := woken_of_share hwork hbits hapart hrun
  have hall (t : ι) : done t = work t := by
    simpa [hend t] using hdone.parts t
  have hcurrent (t : ι) : Wakers.current (c.waker t) = [] := by
    have ht := hend t
    revert ht
    rcases c.waker t with ⟨todo, position, count⟩
    rintro rfl
    cases position <;> rfl
  have hreached (v : Nat) : Wakers.Reached g front s.distances c done v ↔
      v < g.maxVid ∧ awakes g s.front s.distances v = true := by
    simp only [Wakers.Reached, hcurrent, hall, List.append_nil, hmem]
    constructor
    · rintro ⟨hawake, hv⟩
      exact ⟨hv, by rwa [awakes_congr hbits hv]⟩
    · rintro ⟨hv, hawake⟩
      exact ⟨by rwa [← awakes_congr hbits hv], hv⟩
  have hperm := sched.vertices_perm s.distance (List.range g.maxVid)
  obtain ⟨hcount, hfold⟩ := buFold g sched s.distance s.front
    (sched.vertices s.distance (List.range g.maxVid)) (hperm.nodup_iff.mpr List.nodup_range)
    ⟨s.distances, fun _ => false, 0⟩
  have hin (v : Nat) : v ∈ sched.vertices s.distance (List.range g.maxVid) ∧
      awakes g s.front s.distances v = true ↔ Wakers.Reached g front s.distances c done v := by
    rw [hperm.mem_iff, List.mem_range, hreached]
  refine Prod.ext ?_ (State.mk.injEq .. |>.mpr ⟨?_, rfl, ?_, rfl, rfl, rfl, rfl⟩)
  · refine hcount.trans ?_
    have hpart (t : ι) : (c.waker t).awakeCount =
        Multiset.countPAddMonoidHom (fun v => awakes g s.front s.distances v = true) (work t) := by
      rw [hdone.counts t, hcurrent, hall]
      simp only [Multiset.coe_countPAddMonoidHom, Multiset.coe_countP, List.length_nil, Nat.add_zero]
      refine List.countP_congr fun v hv => ?_
      rw [awakes_congr hbits ((hmem v).mp ⟨t, hv⟩)]
      simp
    simp only [hpart, ← map_sum, hwork, Nat.zero_add]
    simpa using hperm.countP_eq (awakes g s.front s.distances)
  · funext v
    refine (hfold v).1.trans ?_
    split_ifs with hv
    · exact (hdone.reached v ((hin v).mp hv)).symm
    · exact (hdone.unreached v (mt (hin v).mpr hv)).symm
  · funext v
    rw [Bool.eq_iff_iff]
    refine (hfold v).2.trans ?_
    have hbit (hv : v < g.maxVid) := hdone.bits v (hnext v hv)
    simp only [hall, hmem] at hbit
    simp only [hin, hreached, Gapbs.Bitmap.toBFS, Bool.and_eq_true, decide_eq_true_iff,
      Bool.false_eq_true, or_false]
    refine and_congr_right fun hv => ?_
    rw [hbit hv, awakes_congr hbits hv]
    simp [hv]

end BFS

end AVBGraph
