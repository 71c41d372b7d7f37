import AVBGraph.Transaction.Locks
import AVBGraph.Vertex.History

namespace AVBGraph

open Framework

namespace System

variable {b : Build} {S : StdSort} {s s' : System} {e : Event} {vertices : Nat → VertexEdges}

/-- A call is not for a vertex whose lock the transaction holds itself, nor for one whose
holder waits, directly or through others, for the transaction. -/
def CallOk (s : System) : Event → Prop
  | .call t c => ¬s.locking.ClosesCycle t c.src
  | _ => True

/-- A transaction has committed when it has released the last lock. -/
def AllCommitted (s : System) : Prop := ∀ t x, s.txns t = some x → x.pc = .committing []

theorem locksHeld_start : LocksHeld (start vertices) :=
  ⟨fun _ => List.nodup_nil, fun v t => by simp [start, heldBy]⟩

theorem deadlockFree_start : (start vertices).locking.DeadlockFree :=
  Locking.deadlockFree_of_idle fun _ => rfl

theorem callOk_iff (h : s.locking.DeadlockFree) (hstep : s.step b S e = some s') :
    CallOk s e ↔ s'.locking.DeadlockFree := by
  constructor
  · intro hok
    refine deadlockFree_move h (lockMove_step hstep) ?_
    rintro t c rfl
    exact hok
  · intro hfree
    cases e with
    | call t c =>
      intro hcycle
      obtain ⟨hw, hl, -⟩ := step_call hstep
      rw [hl] at hfree
      exact hcycle.deadlock hw hfree
    | _ => trivial

theorem locksHeld_run {es : List Event} (hrun : exec (step b S) (start vertices) es = some s) :
    LocksHeld s :=
  invariant_of_step (fun _ _ _ h _ hstep => h.move (lockMove_step hstep)) locksHeld_start
    (along_true ..) hrun

theorem AllCommitted.free (h : s.AllCommitted) (hl : LocksHeld s) (v : Nat) : s.holder v = none := by
  cases hv : s.holder v with
  | none => rfl
  | some t =>
    have hmem := (hl.holder v t).mp hv
    cases hx : s.txns t with
    | none => simp [hx, heldBy] at hmem
    | some x => simp [hx, heldBy, Txn.held, h t x hx] at hmem

/-- No state of a run has a cycle in its waits-for graph if and only if no call of the run closes
one. After the commits every lock is free. -/
theorem deadlockFree_iff {es : List Event} (hrun : exec (step b S) (start vertices) es = some s) :
    (Along (step b S) CallOk (start vertices) es ↔
      ∀ fs u, fs <+: es → exec (step b S) (start vertices) fs = some u → u.locking.DeadlockFree) ∧
    (s.AllCommitted → ∀ v, s.holder v = none) := by
  constructor
  · refine along_iff_prefixes (I := fun _ => True) (P := fun s => s.locking.DeadlockFree) ?_ trivial
      deadlockFree_start (along_true ..) hrun
    intro s e s' _ hs _ hstep
    exact ⟨callOk_iff hs hstep, fun _ => trivial⟩
  · intro hall v
    exact hall.free (locksHeld_run hrun) v

section Rank

variable {β : Type*} [Preorder β] {rank : Nat → β}

/-- Every transaction calls the vertices in an order that all transactions share. -/
def InOrder (rank : Nat → β) (s : System) : Event → Prop
  | .call t c => ∀ v, s.holder v = some t → rank v < rank c.src
  | _ => True

/-- While the calls are in order, whoever waits waits for a vertex above those that it holds. -/
theorem ranked_step (h : s.locking.Ranked rank) (hok : InOrder rank s e)
    (hstep : s.step b S e = some s') : s'.locking.Ranked rank := by
  have hm := lockMove_step hstep
  cases hm with
  | silent hl _ =>
    rw [hl]
    exact h
  | request t c he _ hl _ =>
    subst he
    rw [hl]
    intro u r r' hw hu
    by_cases hut : u = t
    · subst hut
      obtain rfl : c.src = r := by simpa [Locking.request] using hw
      exact hok r' hu
    · exact h u r r' (by simpa [Locking.request, hut] using hw) hu
  | acquire t v _ hl _ =>
    rw [hl]
    intro u r r' hw hu
    by_cases hut : u = t
    · subst hut
      simp at hw
    · have hne : r' ≠ v := by
        rintro rfl
        simp [Ne.symm hut] at hu
      exact h u r r' (by simpa [locking, hut] using hw) (by simpa [locking, hne] using hu)
  | release t v rest _ hl _ =>
    rw [hl]
    intro u r r' hw hu
    have hne : r' ≠ v := by
      rintro rfl
      simp at hu
    exact h u r r' hw (by simpa [locking, hne] using hu)

/-- Calls in a common order of the vertices close no cycle. -/
theorem callOk_of_inOrder {es : List Event} (hs : s.locking.Ranked rank)
    (hok : Along (step b S) (InOrder rank) s es) : Along (step b S) CallOk s es := by
  induction es generalizing s with
  | nil => trivial
  | cons e es ih =>
    refine ⟨?_, fun t ht => ih (ranked_step hs hok.1 ht) (hok.2 t ht)⟩
    cases e with
    | call t c => exact hs.not_closesCycle hok.1
    | _ => trivial

end Rank

section Runs

def writer (threadid : Nat) (h : threadid < vbVectorLength) : Txn :=
  ⟨true, 0, 1, 0, threadid, 0, [], .ready, Nat.one_pos, Write.one_lt_epoch, h⟩

def insertCall (src dst : Nat) (h : dst < 2 ^ 63) : Call := ⟨false, src, dst, 1, h⟩

/-- Two transactions that share vertex 2; the second one waits for the first. -/
theorem deadlockFree_iff_shared : ∃ es s,
    exec (step .fineGrain .stable) (start fun _ => History.fresh.state) es = some s ∧ s.accepted.length = 3 ∧
      (Along (step .fineGrain .stable) CallOk (start fun _ => History.fresh.state) es ↔
        ∀ fs u, fs <+: es → exec (step .fineGrain .stable) (start fun _ => History.fresh.state) fs = some u →
          u.locking.DeadlockFree) := by
  obtain ⟨s, hrun, hlen⟩ : ∃ s, exec (step .fineGrain .stable) (start fun _ => History.fresh.state)
      [.register 0 (writer 0 (by decide)), .register 1 (writer 1 (by decide)),
        .call 0 (insertCall 1 7 (by decide)), .lock 0, .run 0 History.freshEnv,
        .call 0 (insertCall 2 7 (by decide)), .lock 0, .run 0 History.freshEnv,
        .call 1 (insertCall 2 8 (by decide)), .commit 0, .unlock 0, .unlock 0, .lock 1,
        .run 1 History.freshEnv, .commit 1, .unlock 1] = some s ∧ s.accepted.length = 3 := by
    refine exists_exec ?_
    decide +kernel
  exact ⟨_, s, hrun, hlen, (deadlockFree_iff hrun).1⟩

/-- The second write of a transaction to vertex 5 waits for the lock of the first one. -/
theorem second_write_waits : ¬∀ (S : StdSort) (vertices : Nat → VertexEdges) (es : List Event)
    (s : System), exec (step .fineGrain S) (start vertices) es = some s → s.locking.DeadlockFree := by
  intro hall
  obtain ⟨s, hrun, hw, hh⟩ : ∃ s, exec (step .fineGrain .stable) (start fun _ => History.fresh.state)
      [.register 0 (writer 0 (by decide)), .call 0 (insertCall 5 7 (by decide)), .lock 0,
        .run 0 History.freshEnv, .call 0 (insertCall 5 8 (by decide))] = some s ∧
      wantedBy (s.txns 0) = some 5 ∧ s.holder 5 = some 0 := by
    refine exists_exec ?_
    decide +kernel
  have hself : s.locking.WaitsFor 0 0 := ⟨5, hw, hh⟩
  exact hall _ _ _ s hrun 0 (Relation.TransGen.single hself)

end Runs

end System

end AVBGraph
