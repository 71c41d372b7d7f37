import AVBGraph.Framework.Run
import AVBGraph.Framework.Bounded
import AVBGraph.Framework.Interleaving
import AVBGraph.Algorithm.BFS
import Mathlib.Tactic

namespace AVBGraph.Gapbs

open Framework Function

/-- gapbs::SlidingQueue: the array `shared` and the indices into it. -/
structure SlidingQueue (α : Type*) where
  sharedSize : Nat
  shared : Nat → α
  sharedIn : Nat
  sharedOutStart : Nat
  sharedOutEnd : Nat

namespace SlidingQueue

variable {α ι : Type*}

/-- The constructor leaves the array as the memory was. -/
def new (memory : Nat → α) (sharedSize : Nat) : SlidingQueue α := ⟨sharedSize, memory, 0, 0, 0⟩

def pushBack (q : SlidingQueue α) (toAdd : α) : Option (SlidingQueue α) :=
  (store q.sharedSize q.shared q.sharedIn toAdd).map fun shared =>
    { q with shared, sharedIn := q.sharedIn + 1 }

def empty (q : SlidingQueue α) : Bool := q.sharedOutStart = q.sharedOutEnd

def size (q : SlidingQueue α) : Nat := q.sharedOutEnd - q.sharedOutStart

def slideWindow (q : SlidingQueue α) : SlidingQueue α :=
  { q with sharedOutStart := q.sharedOutEnd, sharedOutEnd := q.sharedIn }

/-- All that was pushed. -/
def pushed (q : SlidingQueue α) : List α := (List.range q.sharedIn).map q.shared

/-- What a loop from `begin()` to `end()` reads. -/
def window (q : SlidingQueue α) : List α :=
  (List.range' q.sharedOutStart (q.sharedOutEnd - q.sharedOutStart)).map q.shared

/-- The list that the searches work with. -/
def toBFS (q : SlidingQueue Nat) : BFS.SlidingQueue := ⟨q.pushed, q.sharedOutStart, q.sharedOutEnd⟩

/-- A gapbs::QueueBuffer and the thread that owns it: the `in` elements of `local_queue`, the
elements that the thread still pushes, the std::copy of a flush that is under way (its next cell and
what it still copies), and whether the flush at the end of the thread has begun. -/
structure QueueBuffer (α : Type*) where
  localQueue : List α
  todo : List α
  copying : Option (Nat × List α)
  flushed : Bool

/-- What the thread has pushed and no flush has reserved cells for. -/
def QueueBuffer.unreserved (b : QueueBuffer α) : List α :=
  if b.copying.isNone then b.localQueue else []

/-- The threads of a parallel region over one queue. -/
structure Region (ι α : Type*) where
  sq : SlidingQueue α
  buffer : ι → QueueBuffer α

namespace Region

def init (sq : SlidingQueue α) (work : ι → List α) : Region ι α :=
  ⟨sq, fun t => ⟨[], work t, none, false⟩⟩

/-- `local_queue[in++] = to_add`. -/
def put (localSize : Nat) (localQueue : List α) (toAdd : α) : Option (List α) :=
  if localQueue.length < localSize then some (localQueue ++ [toAdd]) else none

/-- The threads with the buffer of one of them changed. -/
def setBuffer [DecidableEq ι] (s : Region ι α) (t : ι) (b : QueueBuffer α) : Region ι α :=
  ⟨s.sq, update s.buffer t b⟩

/-- The fetch_and_add of flush: the thread goes on with the copy of its `in` elements. -/
def reserve [DecidableEq ι] (s : Region ι α) (t : ι) (localQueue todo : List α) (flushed : Bool) :
    Region ι α :=
  setBuffer ⟨{ s.sq with sharedIn := s.sq.sharedIn + localQueue.length }, s.buffer⟩ t
    ⟨localQueue, todo, some (s.sq.sharedIn, localQueue), flushed⟩

/-- One step of a thread, at most one shared access; `none` for a thread at its end and for an
access outside of an array. -/
def step [DecidableEq ι] (localSize : Nat) (s : Region ι α) (t : ι) : Option (Region ι α) :=
  match s.buffer t with
  | ⟨localQueue, todo, some (copyStart, x :: rest), flushed⟩ =>
    (store s.sq.sharedSize s.sq.shared copyStart x).map fun shared =>
      setBuffer ⟨{ s.sq with shared }, s.buffer⟩ t
        ⟨localQueue, todo, some (copyStart + 1, rest), flushed⟩
  | ⟨_, [], some (_, []), flushed⟩ => some (s.setBuffer t ⟨[], [], none, flushed⟩)
  | ⟨_, x :: todo, some (_, []), flushed⟩ =>
    (put localSize [] x).map fun localQueue => s.setBuffer t ⟨localQueue, todo, none, flushed⟩
  | ⟨localQueue, x :: todo, none, flushed⟩ =>
    if localQueue.length = localSize then some (s.reserve t localQueue (x :: todo) flushed)
    else (put localSize localQueue x).map fun localQueue =>
      s.setBuffer t ⟨localQueue, todo, none, flushed⟩
  | ⟨localQueue, [], none, flushed⟩ =>
    if flushed then none else some (s.reserve t localQueue [] true)

/-- The thread has left the parallel region. -/
def Done (s : Region ι α) (t : ι) : Prop :=
  (s.buffer t).flushed = true ∧ (s.buffer t).copying = none

instance (s : Region ι α) (t : ι) : Decidable (s.Done t) :=
  inferInstanceAs (Decidable ((s.buffer t).flushed = true ∧ (s.buffer t).copying = none))

/-! ### What a step does -/

variable [DecidableEq ι] {localSize : Nat} {s s' : Region ι α} {t : ι}

inductive Event (localSize : Nat) (s : Region ι α) (t : ι) : Region ι α → Prop
  | copies {localQueue todo : List α} {copyStart : Nat} {x : α} {rest : List α} {flushed : Bool}
      (hb : s.buffer t = ⟨localQueue, todo, some (copyStart, x :: rest), flushed⟩)
      (hlt : copyStart < s.sq.sharedSize) :
      Event localSize s t (setBuffer
        ⟨{ s.sq with shared := update s.sq.shared copyStart x }, s.buffer⟩ t
        ⟨localQueue, todo, some (copyStart + 1, rest), flushed⟩)
  | copied {localQueue : List α} {copyStart : Nat} {flushed : Bool}
      (hb : s.buffer t = ⟨localQueue, [], some (copyStart, []), flushed⟩) :
      Event localSize s t (s.setBuffer t ⟨[], [], none, flushed⟩)
  | restarts {localQueue todo : List α} {x : α} {copyStart : Nat} {flushed : Bool}
      (hb : s.buffer t = ⟨localQueue, x :: todo, some (copyStart, []), flushed⟩)
      (hsize : 0 < localSize) :
      Event localSize s t (s.setBuffer t ⟨[x], todo, none, flushed⟩)
  | reserves {localQueue todo : List α} {x : α} {flushed : Bool}
      (hb : s.buffer t = ⟨localQueue, x :: todo, none, flushed⟩)
      (hfull : localQueue.length = localSize) :
      Event localSize s t (s.reserve t localQueue (x :: todo) flushed)
  | puts {localQueue todo : List α} {x : α} {flushed : Bool}
      (hb : s.buffer t = ⟨localQueue, x :: todo, none, flushed⟩)
      (hlt : localQueue.length < localSize) :
      Event localSize s t (s.setBuffer t ⟨localQueue ++ [x], todo, none, flushed⟩)
  | finishes {localQueue : List α} (hb : s.buffer t = ⟨localQueue, [], none, false⟩) :
      Event localSize s t (s.reserve t localQueue [] true)

theorem event_of_step (h : step localSize s t = some s') : Event localSize s t s' := by
  unfold step store put at h
  rcases hb : s.buffer t with ⟨localQueue, todo, copying, flushed⟩
  rw [hb] at h
  rcases copying with - | ⟨copyStart, rest⟩
  · rcases todo with - | ⟨x, todo⟩
    · cases flushed with
      | false =>
        obtain rfl := Option.some.inj h
        exact .finishes hb
      | true => cases h
    · simp only at h
      split at h
      · rename_i hfull
        obtain rfl := Option.some.inj h
        exact .reserves hb hfull
      · split at h
        · rename_i hlt
          obtain rfl := Option.some.inj h
          exact .puts hb hlt
        · cases h
  · rcases rest with - | ⟨x, rest⟩
    · rcases todo with - | ⟨x, todo⟩
      · obtain rfl := Option.some.inj h
        exact .copied hb
      · simp only at h
        split at h
        · rename_i hsize
          obtain rfl := Option.some.inj h
          exact .restarts hb hsize
        · cases h
    · simp only at h
      split at h
      · rename_i hlt
        obtain rfl := Option.some.inj h
        exact .copies hb hlt
      · cases h

/-! ### The order of the reservations -/

/-- A flush under way still writes the cell. -/
def Copying (s : Region ι α) (t : ι) (cell : Nat) : Prop :=
  ∃ copyStart rest, (s.buffer t).copying = some (copyStart, rest) ∧ copyStart ≤ cell ∧
    cell < copyStart + rest.length

/-- The log of all reserved elements, in the order of their fetch_and_add: every cell holds its
entry or waits for it, and a thread's entries are what it has flushed. -/
structure Logged (q : SlidingQueue α) (work : ι → List α) (localSize : Nat) (s : Region ι α)
    (log : List (ι × α)) : Prop where
  size : s.sq.sharedSize = q.sharedSize
  outStart : s.sq.sharedOutStart = q.sharedOutStart
  outEnd : s.sq.sharedOutEnd = q.sharedOutEnd
  reserved : s.sq.sharedIn = q.sharedIn + log.length
  old : ∀ i < q.sharedIn, s.sq.shared i = q.shared i
  cells : ∀ i x, (log.map Prod.snd)[i]? = some x →
    s.sq.shared (q.sharedIn + i) = x ∨ ∃ t, Copying s t (q.sharedIn + i)
  copies : ∀ t copyStart rest, (s.buffer t).copying = some (copyStart, rest) →
    ∃ i, copyStart = q.sharedIn + i ∧ rest <+: (log.map Prod.snd).drop i
  parts : ∀ t, entriesOf log t ++ (s.buffer t).unreserved ++ (s.buffer t).todo = work t
  ended : ∀ t, (s.buffer t).flushed = true → (s.buffer t).todo = [] ∧ (s.buffer t).unreserved = []
  length_le : ∀ t, (s.buffer t).localQueue.length ≤ localSize

variable {q : SlidingQueue α} {work : ι → List α} {log : List (ι × α)}

theorem logged_init (q : SlidingQueue α) (work : ι → List α) (localSize : Nat) :
    Logged q work localSize (init q work) [] where
  size := rfl
  outStart := rfl
  outEnd := rfl
  reserved := rfl
  old := fun _ _ => rfl
  cells := by simp
  copies := by simp [init]
  parts := by simp [init, QueueBuffer.unreserved]
  ended := by simp [init]
  length_le := by simp [init]

theorem copying_setBuffer_of_ne {b : QueueBuffer α} {u : ι} (hu : u ≠ t) {cell : Nat} :
    Copying (s.setBuffer t b) u cell ↔ Copying s u cell := by
  simp [Copying, setBuffer, hu]

/-- A thread between two flushes moves elements from its work to its buffer. -/
theorem Logged.setBuffer (h : Logged q work localSize s log) {b : QueueBuffer α}
    (hcopy : b.copying = none) (hold : ∀ cell, ¬Copying s t cell)
    (hparts : b.localQueue ++ b.todo = (s.buffer t).unreserved ++ (s.buffer t).todo)
    (hended : b.flushed = true → b.todo = [] ∧ b.localQueue = [])
    (hlen : b.localQueue.length ≤ localSize) :
    Logged q work localSize (s.setBuffer t b) log where
  size := h.size
  outStart := h.outStart
  outEnd := h.outEnd
  reserved := h.reserved
  old := h.old
  cells := by
    intro i x hx
    rcases h.cells i x hx with hcell | ⟨u, hu⟩
    · exact .inl hcell
    · refine .inr ⟨u, (copying_setBuffer_of_ne ?_).mpr hu⟩
      rintro rfl
      exact hold _ hu
  copies := by
    intro u copyStart rest hu
    by_cases hut : u = t
    · subst u
      simp [Region.setBuffer, hcopy] at hu
    · exact h.copies u copyStart rest (by simpa [Region.setBuffer, hut] using hu)
  parts := by
    intro u
    by_cases hut : u = t
    · subst u
      have hmine : b.unreserved = b.localQueue := by simp [QueueBuffer.unreserved, hcopy]
      rw [← h.parts t, List.append_assoc, List.append_assoc, ← hparts]
      simp [Region.setBuffer, hmine]
    · simpa [Region.setBuffer, hut] using h.parts u
  ended := by
    intro u hu
    by_cases hut : u = t
    · subst u
      simpa [Region.setBuffer, QueueBuffer.unreserved, hcopy] using
        hended (by simpa [Region.setBuffer] using hu)
    · simpa [Region.setBuffer, hut] using h.ended u (by simpa [Region.setBuffer, hut] using hu)
  length_le := by
    intro u
    by_cases hut : u = t
    · subst u
      simpa [Region.setBuffer] using hlen
    · simpa [Region.setBuffer, hut] using h.length_le u

/-- A flush begins: the log grows by the buffer. -/
theorem Logged.reserve (h : Logged q work localSize s log) {localQueue todo : List α}
    {flushed flushed' : Bool} (hb : s.buffer t = ⟨localQueue, todo, none, flushed⟩)
    (hended : flushed' = true → todo = []) :
    Logged q work localSize (s.reserve t localQueue todo flushed')
      (log ++ localQueue.map fun x => (t, x)) := by
  have hnot (cell : Nat) : ¬Copying s t cell := by simp [Copying, hb]
  have hsnd : (log ++ localQueue.map fun x => (t, x)).map Prod.snd =
      log.map Prod.snd ++ localQueue := by simp [Function.comp_def]
  refine ⟨h.size, h.outStart, h.outEnd, ?_, h.old, ?_, ?_, ?_, ?_, ?_⟩
  · simp only [Region.reserve, Region.setBuffer, h.reserved, List.length_append, List.length_map]
    omega
  · intro i x hx
    rw [hsnd] at hx
    by_cases hi : i < log.length
    · rw [List.getElem?_append_left (by simpa using hi)] at hx
      rcases h.cells i x hx with hcell | ⟨u, hu⟩
      · exact .inl hcell
      · refine .inr ⟨u, (copying_setBuffer_of_ne ?_).mpr hu⟩
        rintro rfl
        exact hnot _ hu
    · rw [List.getElem?_append_right (by simpa using hi)] at hx
      have hlt := (List.getElem?_eq_some_iff.mp hx).1
      rw [List.length_map] at hlt
      refine .inr ⟨t, s.sq.sharedIn, localQueue, by simp [Region.reserve, Region.setBuffer], ?_, ?_⟩
      · rw [h.reserved]; omega
      · rw [h.reserved]; omega
  · intro u copyStart rest hu
    rw [hsnd]
    by_cases hut : u = t
    · subst u
      simp only [Region.reserve, Region.setBuffer, update_self, Option.some.injEq,
        Prod.mk.injEq] at hu
      obtain ⟨rfl, rfl⟩ := hu
      refine ⟨log.length, h.reserved, ?_⟩
      rw [List.drop_left' (by simp)]
    · obtain ⟨i, hi, hpre⟩ :=
        h.copies u copyStart rest (by simpa [Region.reserve, Region.setBuffer, hut] using hu)
      refine ⟨i, hi, hpre.trans ?_⟩
      rw [List.drop_append]
      exact List.prefix_append _ _
  · intro u
    rw [entriesOf_append, entriesOf_batch]
    by_cases hut : u = t
    · subst u
      have := h.parts t
      rw [hb] at this
      simpa [Region.reserve, Region.setBuffer, QueueBuffer.unreserved] using this
    · simpa [Region.reserve, Region.setBuffer, hut] using h.parts u
  · intro u hu
    by_cases hut : u = t
    · subst u
      simpa [Region.reserve, Region.setBuffer, QueueBuffer.unreserved] using
        hended (by simpa [Region.reserve, Region.setBuffer] using hu)
    · simpa [Region.reserve, Region.setBuffer, hut] using
        h.ended u (by simpa [Region.reserve, Region.setBuffer, hut] using hu)
  · intro u
    by_cases hut : u = t
    · subst u
      simpa [Region.reserve, Region.setBuffer, hb] using h.length_le t
    · simpa [Region.reserve, Region.setBuffer, hut] using h.length_le u

/-- One element is copied to the cell that the log has for it. -/
theorem Logged.copy (h : Logged q work localSize s log) {localQueue todo : List α} {copyStart : Nat}
    {x : α} {rest : List α} {flushed : Bool}
    (hb : s.buffer t = ⟨localQueue, todo, some (copyStart, x :: rest), flushed⟩) :
    Logged q work localSize (Region.setBuffer
      ⟨{ s.sq with shared := update s.sq.shared copyStart x }, s.buffer⟩ t
      ⟨localQueue, todo, some (copyStart + 1, rest), flushed⟩) log := by
  obtain ⟨i₀, rfl, hpre⟩ := h.copies t copyStart (x :: rest) (by rw [hb])
  obtain ⟨tail, htail⟩ := hpre
  have hx : (log.map Prod.snd)[i₀]? = some x := by
    have := congrArg (·[0]?) htail
    simpa using this.symm
  refine ⟨h.size, h.outStart, h.outEnd, h.reserved, ?_, ?_, ?_, ?_, ?_, ?_⟩
  · intro i hi
    simp only [Region.setBuffer]
    rw [update_of_ne (by omega)]
    exact h.old i hi
  · intro i y hy
    by_cases hi : i = i₀
    · subst i
      obtain rfl : x = y := by simpa [hx] using hy
      exact .inl (by simp [Region.setBuffer])
    · rcases h.cells i y hy with hcell | ⟨u, hu⟩
      · refine .inl ?_
        simp only [Region.setBuffer]
        rw [update_of_ne (by omega)]
        exact hcell
      · refine .inr ⟨u, ?_⟩
        by_cases hut : u = t
        · subst u
          obtain ⟨copyStart, rest', hcopy, hle, hlt⟩ := hu
          simp only [hb, Option.some.injEq, Prod.mk.injEq] at hcopy
          obtain ⟨rfl, rfl⟩ := hcopy
          refine ⟨q.sharedIn + i₀ + 1, rest, by simp [Region.setBuffer], by omega, ?_⟩
          rw [List.length_cons] at hlt
          omega
        · simpa [Copying, Region.setBuffer, hut] using hu
  · intro u copyStart rest' hu
    by_cases hut : u = t
    · subst u
      simp only [Region.setBuffer, update_self, Option.some.injEq, Prod.mk.injEq] at hu
      obtain ⟨rfl, rfl⟩ := hu
      refine ⟨i₀ + 1, by omega, tail, ?_⟩
      rw [← List.drop_drop, ← htail]
      rfl
    · exact h.copies u copyStart rest' (by simpa [Region.setBuffer, hut] using hu)
  · intro u
    by_cases hut : u = t
    · subst u
      have := h.parts t
      rw [hb] at this
      simpa [Region.setBuffer, QueueBuffer.unreserved] using this
    · simpa [Region.setBuffer, hut] using h.parts u
  · intro u hu
    by_cases hut : u = t
    · subst u
      have := h.ended t
      rw [hb] at this
      simpa [Region.setBuffer, QueueBuffer.unreserved] using
        this (by simpa [Region.setBuffer] using hu)
    · simpa [Region.setBuffer, hut] using h.ended u (by simpa [Region.setBuffer, hut] using hu)
  · intro u
    by_cases hut : u = t
    · subst u
      simpa [Region.setBuffer, hb] using h.length_le t
    · simpa [Region.setBuffer, hut] using h.length_le u

theorem Logged.event (h : Logged q work localSize s log) (hevent : Event localSize s t s') :
    ∃ log', Logged q work localSize s' log' := by
  have hended := h.ended t
  cases hevent with
  | copies hb _ => exact ⟨log, h.copy hb⟩
  | @copied localQueue copyStart flushed hb =>
    refine ⟨log, h.setBuffer rfl (fun cell => ?_) ?_ (fun _ => ⟨rfl, rfl⟩) (Nat.zero_le _)⟩
    · simp only [Copying, hb, Option.some.injEq, Prod.mk.injEq]
      rintro ⟨_, _, ⟨rfl, rfl⟩, hle, hlt⟩
      simp only [List.length_nil] at hlt
      omega
    · simp [hb, QueueBuffer.unreserved]
  | @restarts localQueue todo x copyStart flushed hb hsize =>
    refine ⟨log, h.setBuffer rfl (fun cell => ?_) ?_ (fun hflushed => ?_) hsize⟩
    · simp only [Copying, hb, Option.some.injEq, Prod.mk.injEq]
      rintro ⟨_, _, ⟨rfl, rfl⟩, hle, hlt⟩
      simp only [List.length_nil] at hlt
      omega
    · simp [hb, QueueBuffer.unreserved]
    · simp only [hb] at hended
      exact absurd (hended hflushed).1 (List.cons_ne_nil _ _)
  | reserves hb _ =>
    simp only [hb] at hended
    exact ⟨_, h.reserve hb fun hflushed => (hended hflushed).1⟩
  | @puts localQueue todo x flushed hb hlt =>
    refine ⟨log, h.setBuffer rfl (fun cell => ?_) ?_ (fun hflushed => ?_) ?_⟩
    · simp [Copying, hb]
    · simp [hb, QueueBuffer.unreserved]
    · simp only [hb] at hended
      exact absurd (hended hflushed).1 (List.cons_ne_nil _ _)
    · simpa using hlt
  | finishes hb => exact ⟨_, h.reserve hb fun _ => rfl⟩

/-! ### A region from its start to its end -/

theorem Logged.length_log_le [Fintype ι] (h : Logged q work localSize s log) :
    log.length ≤ ∑ t, (work t).length := by
  rw [length_eq_sum_entriesOf]
  refine Finset.sum_le_sum fun t _ => ?_
  rw [← h.parts t, List.append_assoc, List.length_append]
  omega

/-- A thread inside the region has a next step. -/
theorem Logged.exists_step [Fintype ι] (h : Logged q work localSize s log) (hsize : 0 < localSize)
    (hfit : q.sharedIn + ∑ t, (work t).length ≤ q.sharedSize) (ht : ¬Done s t) :
    ∃ s', step localSize s t = some s' := by
  have hlen := h.length_le t
  unfold step store put
  rcases hb : s.buffer t with ⟨localQueue, todo, copying, flushed⟩
  rw [hb] at hlen
  rcases copying with - | ⟨copyStart, rest⟩
  · rcases todo with - | ⟨x, todo⟩
    · cases flushed with
      | false => exact ⟨_, rfl⟩
      | true => exact absurd ⟨by rw [hb], by rw [hb]⟩ ht
    · by_cases hfull : localQueue.length = localSize
      · simp [hfull]
      · have hlt : localQueue.length < localSize := lt_of_le_of_ne hlen hfull
        simp [hfull, hlt]
  · rcases rest with - | ⟨x, rest⟩
    · rcases todo with - | ⟨x, todo⟩
      · exact ⟨_, rfl⟩
      · simp [hsize]
    · obtain ⟨i, rfl, hpre⟩ := h.copies t copyStart (x :: rest) (by rw [hb])
      have hle := hpre.length_le
      have hlog := h.length_log_le
      simp only [List.length_cons, List.length_drop, List.length_map] at hle
      have hlt : q.sharedIn + i < s.sq.sharedSize := by rw [h.size]; omega
      simp [hlt]

/-- The accesses that a thread still makes, at most. -/
def weight (b : QueueBuffer α) : Nat :=
  4 * b.todo.length + (if b.flushed then 0 else 3) +
    match b.copying with
    | none => 3 * b.localQueue.length
    | some (_, rest) => rest.length + 1

theorem weight_setBuffer [Fintype ι] {b : QueueBuffer α} {sq : SlidingQueue α}
    (hlt : weight b < weight (s.buffer t)) :
    ∑ u, weight ((setBuffer ⟨sq, s.buffer⟩ t b).buffer u) < ∑ u, weight (s.buffer u) := by
  have := sum_update_add s.buffer weight t b
  simp only [setBuffer]
  omega

theorem weight_step [Fintype ι] (hsize : 0 < localSize) (hstep : step localSize s t = some s') :
    ∑ u, weight (s'.buffer u) < ∑ u, weight (s.buffer u) := by
  cases event_of_step hstep with
  | copies hb _ => exact weight_setBuffer (by simp [hb, weight])
  | copied hb => exact weight_setBuffer (by simp [hb, weight])
  | restarts hb _ =>
    refine weight_setBuffer ?_
    simp only [hb, weight, List.length_cons, List.length_nil]
    omega
  | reserves hb hfull =>
    refine weight_setBuffer ?_
    simp only [hb, weight]
    omega
  | puts hb _ =>
    refine weight_setBuffer ?_
    simp only [hb, weight, List.length_append, List.length_cons, List.length_nil]
    omega
  | finishes hb =>
    refine weight_setBuffer ?_
    simp only [hb, weight, Bool.false_eq_true, if_false, if_true]
    omega

/-- The elements of all threads are behind those pushed before. -/
theorem Logged.pushed_of_done [Fintype ι] (h : Logged q work localSize s log)
    (hdone : ∀ t, Done s t) :
    s.sq.pushed = q.pushed ++ log.map Prod.snd ∧
      ((log.map Prod.snd : List α) : Multiset α) = ∑ t, (work t : Multiset α) ∧
      ∀ t, (work t).Sublist (log.map Prod.snd) := by
  have hwork (t : ι) : entriesOf log t = work t := by
    obtain ⟨htodo, hlocal⟩ := h.ended t (hdone t).1
    simpa [htodo, hlocal] using h.parts t
  refine ⟨?_, ?_, fun t => hwork t ▸ entriesOf_sublist log t⟩
  · refine List.ext_getElem (by simp [pushed, h.reserved]) fun i hi _ => ?_
    have hi : i < q.sharedIn + log.length := by simpa [pushed, h.reserved] using hi
    by_cases hold : i < q.sharedIn
    · rw [List.getElem_append_left (by simpa [pushed] using hold)]
      simpa [pushed] using h.old i hold
    · obtain ⟨j, rfl⟩ := Nat.exists_eq_add_of_le (Nat.le_of_not_lt hold)
      rw [List.getElem_append_right (by simp [pushed])]
      have hj : j < (log.map Prod.snd).length := by rw [List.length_map]; omega
      rcases h.cells j _ (List.getElem?_eq_getElem hj) with heq | ⟨t, _, _, hcopy, _, _⟩
      · simpa [pushed] using heq
      · rw [(hdone t).2] at hcopy
        cases hcopy
  · rw [← sum_entriesOf]
    exact Finset.sum_congr rfl fun t _ => by rw [hwork t]

theorem logged_of_step (h : ∃ log, Logged q work localSize s log)
    (hstep : step localSize s t = some s') : ∃ log, Logged q work localSize s' log := by
  obtain ⟨log, hlog⟩ := h
  exact hlog.event (event_of_step hstep)

theorem logged_of_exec {es : List ι} (hrun : exec (step localSize) (init q work) es = some s) :
    ∃ log, Logged q work localSize s log :=
  invariant_of_step (fun _ _ _ h _ => logged_of_step h) ⟨[], logged_init q work localSize⟩
    (along_true _ _ _) hrun

/-- The threads can always come to their ends. -/
theorem exists_end [Fintype ι] (q : SlidingQueue α) (work : ι → List α) (hsize : 0 < localSize)
    (hfit : q.sharedIn + ∑ t, (work t).length ≤ q.sharedSize) :
    ∃ es s, exec (step localSize) (init q work) es = some s ∧ ∀ t, s.Done t := by
  have hstep : ∀ s : Region ι α, (∃ log, Logged q work localSize s log) → ¬(∀ t, s.Done t) →
      ∃ t s', step localSize s t = some s' ∧ (∃ log, Logged q work localSize s' log) ∧
        ∑ u, weight (s'.buffer u) < ∑ u, weight (s.buffer u) := by
    rintro s ⟨log, hlog⟩ hnot
    obtain ⟨t, ht⟩ := not_forall.mp hnot
    obtain ⟨s', hs'⟩ := hlog.exists_step hsize hfit ht
    exact ⟨t, s', hs', logged_of_step ⟨log, hlog⟩ hs', weight_step hsize hs'⟩
  exact exists_exec_end hstep ⟨[], logged_init q work localSize⟩

end Region

theorem window_slideWindow (q : SlidingQueue α) : q.slideWindow.window = q.pushed.drop q.sharedOutEnd := by
  simp [window, slideWindow, pushed, List.range_eq_range', ← List.map_drop, List.drop_range']

/-- QueueBuffers from any number of threads, in every order of their accesses: the window that the
threads read from does not change, no thread is ever stuck or writes outside of the array, all of
them come to their ends, and then the next window has what was pushed before and all that the
threads have pushed, each thread's elements in its order. -/
theorem queueBuffer_spec [Fintype ι] [DecidableEq ι] (q : SlidingQueue α) (work : ι → List α)
    (localSize : Nat) (hsize : 0 < localSize) (hwindow : q.sharedOutEnd ≤ q.sharedIn)
    (hfit : q.sharedIn + ∑ t, (work t).length ≤ q.sharedSize) {es : List ι} {s : Region ι α}
    (hrun : exec (Region.step localSize) (.init q work) es = some s) :
    s.sq.window = q.window ∧
    (∀ t, ¬s.Done t → ∃ s', Region.step localSize s t = some s') ∧
    es.length ≤ 4 * ∑ t, (work t).length + 3 * Fintype.card ι ∧
    ((∀ t, s.Done t) → ∃ l : List α, s.sq.slideWindow.window = q.pushed.drop q.sharedOutEnd ++ l ∧
      (l : Multiset α) = ∑ t, (work t : Multiset α) ∧ ∀ t, (work t).Sublist l) := by
  obtain ⟨log, hlog⟩ := Region.logged_of_exec hrun
  refine ⟨?_, fun t => hlog.exists_step hsize hfit, ?_, fun hdone => ?_⟩
  · unfold window
    rw [hlog.outStart, hlog.outEnd]
    refine List.map_congr_left fun i hi => hlog.old i ?_
    have := List.mem_range'_1.mp hi
    omega
  · have hpaid := exec_length_add_le (fun _ _ _ => Region.weight_step hsize) hrun
    have hstart : ∑ t, Region.weight ((Region.init q work).buffer t) =
        4 * ∑ t, (work t).length + 3 * Fintype.card ι := by
      simp [Region.weight, Region.init, Finset.sum_add_distrib, Finset.mul_sum, Nat.mul_comm]
    omega
  · obtain ⟨hpushed, hsum, hsub⟩ := hlog.pushed_of_done hdone
    refine ⟨_, ?_, hsum, hsub⟩
    rw [window_slideWindow, hpushed, hlog.outEnd, List.drop_append_of_le_length]
    simpa [pushed] using hwindow

/-- Three threads, the buffers of two elements; the first thread flushes twice. -/
theorem queueBuffer_spec_three :
    let q : SlidingQueue Nat := ⟨8, fun _ => 0, 1, 0, 1⟩
    let work : Fin 3 → List Nat := fun t => if t = 0 then [1, 2, 3] else if t = 1 then [4] else []
    ∃ s, exec (Region.step 2) (.init q work)
        [0, 0, 1, 0, 1, 0, 0, 1, 0, 1, 0, 0, 0, 2, 2] = some s ∧ s.sq.window = q.window ∧
      ∃ l : List Nat, s.sq.slideWindow.window = l ∧ (l : Multiset Nat) = ∑ t, (work t : Multiset Nat) := by
  intro q work
  obtain ⟨s, hs, hdone⟩ := exists_exec (P := fun s : Region (Fin 3) Nat => ∀ t, s.Done t) (by decide :
    (exec (Region.step 2) (.init q work) [0, 0, 1, 0, 1, 0, 0, 1, 0, 1, 0, 0, 0, 2, 2]).any
      (fun s : Region (Fin 3) Nat => decide (∀ t, s.Done t)) = true)
  have h := queueBuffer_spec q work 2 (by decide) (by decide) (by decide) hs
  obtain ⟨l, hwindow, hsum, -⟩ := h.2.2.2 hdone
  exact ⟨s, hs, h.1, l, hwindow, hsum⟩

/-! ### The queue of the search -/

theorem toBFS_slideWindow (q : SlidingQueue Nat) : q.slideWindow.toBFS = q.toBFS.slideWindow := by
  simp [toBFS, slideWindow, BFS.SlidingQueue.slideWindow, pushed]

theorem toBFS_pushBack {q q' : SlidingQueue Nat} {v : Nat} (h : q.pushBack v = some q') :
    q'.toBFS = q.toBFS.pushBack v := by
  unfold pushBack store at h
  split at h
  · obtain rfl := Option.some.inj h
    have hold : (List.range q.sharedIn).map (update q.shared q.sharedIn v) =
        (List.range q.sharedIn).map q.shared :=
      List.map_congr_left fun i hi => update_of_ne (List.mem_range.mp hi).ne _ _
    simp [toBFS, pushed, BFS.SlidingQueue.pushBack, List.range_succ, hold]
  · cases h

theorem toBFS_window {q : SlidingQueue Nat} (h : q.sharedOutEnd ≤ q.sharedIn) :
    q.toBFS.window = q.window := by
  simp [toBFS, BFS.SlidingQueue.window, pushed, window, ← List.map_take, ← List.map_drop, h,
    List.range_eq_range', List.drop_range']

/-- The threads' flushes are the pushes of one thread in some order. -/
theorem toBFS_region [Fintype ι] [DecidableEq ι] {q : SlidingQueue Nat} {work : ι → List Nat}
    {localSize : Nat} {es : List ι} {s : Region ι Nat}
    (hrun : exec (Region.step localSize) (.init q work) es = some s) (hdone : ∀ t, s.Done t) :
    ∃ l : List Nat, (l : Multiset Nat) = ∑ t, (work t : Multiset Nat) ∧
      s.sq.toBFS = l.foldl .pushBack q.toBFS := by
  obtain ⟨log, hlog⟩ := Region.logged_of_exec hrun
  obtain ⟨hpushed, hsum, -⟩ := hlog.pushed_of_done hdone
  refine ⟨_, hsum, ?_⟩
  rw [BFS.SlidingQueue.foldl_pushBack]
  unfold toBFS
  rw [hpushed, hlog.outStart, hlog.outEnd]

end SlidingQueue

end AVBGraph.Gapbs
