import AVBGraph.Transaction.Ordered

namespace AVBGraph

open Framework

namespace Journal

/-- What a vertex may expect of its callers: write-only insertions that it can take, and
Transforms of its oldest pending epoch. -/
def Disciplined (S : StdSort) (j : Journal) : Event → Prop
  | .run t env => j.system.Inside t fun x c => x.writeOnly = true ∧ j.WellPlaced S env x c
  | .handOver epoch i _ => ∀ p ∈ (j.system.vbData epoch).todo.bind fun todo => todo[i]?,
      j.OldestFirst p
  | _ => True

/-- The write of a step finds the newest version of its edge. -/
def WritesNewest (S : StdSort) (j : Journal) : Event → Prop
  | .run t env => j.system.Inside t (j.FindsNewest S env)
  | _ => True

/-- Every vertex that was written has published all its epochs. -/
def AllPublished (j : Journal) : Prop :=
  ∀ r ∈ j.returned, ∀ slot < 16, ((j.system.vertices r.src).tmpVb slot).entries = []

def Committed (j : Journal) (t : Nat) : Prop :=
  ∃ rest, (j.system.txns t).map Txn.pc = some (.committing rest)

/-- Once everything is published, a reader at the end of the epoch of a committed transaction is
given, for every edge that the transaction wrote, its write or a later one of the epoch. -/
def AllOrNothing (j : Journal) : Prop :=
  j.AllPublished → ∀ r ∈ j.returned, j.Committed r.txn → ∃ q ∈ j.returned,
    q.accepted = true ∧ q.src = r.src ∧ q.write.dst = r.write.dst ∧
    (q = r ∨ r.write.time < q.write.time) ∧ q.write.time ≤ ⟨r.write.epoch, intraMax⟩ ∧
    j.weights ⟨r.write.epoch, intraMax⟩ r.src r.write.dst = [q.write.weight]

section Run

variable {S : StdSort} {malloc tmp : Nat → Nat → EdgeWithIndex} {j j' : Journal} {e : Event}

theorem whole_step (h : Ordered malloc tmp j ∧ ∀ r ∈ j.returned, r.accepted = true)
    (hd : Disciplined S j e) (hf : WritesNewest S j e) (hstep : j.step .fineGrain S e = some j') :
    Ordered malloc tmp j' ∧ ∀ r ∈ j'.returned, r.accepted = true := by
  obtain ⟨ho, hall⟩ := h
  have hsilent : (∀ t env, e ≠ .run t env) → (∀ epoch i vb, e ≠ .handOver epoch i vb) →
      Ordered malloc tmp j' ∧ ∀ r ∈ j'.returned, r.accepted = true := by
    intro hrun hhand
    obtain ⟨hvert, hret⟩ := step_silent hstep hrun hhand
    rw [hret]
    exact ⟨ho.silent hvert hret, hall⟩
  cases e with
  | run t env =>
    obtain ⟨x, c, r, hx, hpc, hr, hsys, hret⟩ := step_run hstep
    obtain ⟨hwo, hplaced⟩ := hd x hx c hpc
    obtain ⟨ho', hacc⟩ := ho.run hplaced (hf x hx c hpc) hr hsys hret
    refine ⟨ho', fun q hq => ?_⟩
    rw [hret, List.mem_append, List.mem_singleton] at hq
    rcases hq with hq | rfl
    · exact hall q hq
    · exact hacc hwo
  | handOver epoch i vb =>
    obtain ⟨-, -, -, -, -, -, -, -, -, -, hret⟩ := step_handOver hstep
    rw [hret]
    exact ⟨ho.handOver hd hstep, hall⟩
  | register t x => exact hsilent (by simp) (by simp)
  | call t c => exact hsilent (by simp) (by simp)
  | lock t => exact hsilent (by simp) (by simp)
  | commit t => exact hsilent (by simp) (by simp)
  | unlock t => exact hsilent (by simp) (by simp)
  | collect epoch => exact hsilent (by simp) (by simp)

/-- The newest version of the epoch is what a reader at its end is given. -/
theorem Ordered.allOrNothing (h : Ordered malloc tmp j)
    (hall : ∀ r ∈ j.returned, r.accepted = true) : AllOrNothing j := by
  intro hdone r hr _
  have hw : r.write ∈ j.writesAt r.src := mem_writesAt.mpr ⟨r, hr, rfl, hall r hr, rfl⟩
  have hscan := h.weights_eq (hdone r hr) r.write.epoch r.write.dst
  set ws := (j.writesAt r.src).filter fun w => w.dst = r.write.dst ∧ w.epoch ≤ r.write.epoch with hws
  have hmem : r.write ∈ ws := List.mem_filter.mpr ⟨hw, by simp⟩
  obtain ⟨u, hu⟩ := Option.isSome_iff_exists.mp (List.getLast?_isSome.mpr (List.ne_nil_of_mem hmem))
  have hrising : (ws.map Write.time).Pairwise (· < ·) := by
    refine ((h.timely r.src).rising r.write.dst).sublist (List.Sublist.map _ ?_)
    have hsub : ws = ((j.writesAt r.src).filter fun w => w.dst = r.write.dst).filter
        fun w => w.epoch ≤ r.write.epoch := by
      rw [List.filter_filter]
      exact List.filter_congr fun w _ => by simp [Bool.and_comm]
    rw [hsub]
    exact List.filter_sublist
  obtain ⟨husrc, hudst⟩ := List.mem_filter.mp (List.mem_of_getLast? hu)
  obtain ⟨hudst, hule⟩ := of_decide_eq_true hudst
  have hlt := (h.timely r.src).below u husrc
  have htime : u.time ≤ ⟨r.write.epoch, intraMax⟩ := by
    rcases Nat.lt_or_eq_of_le hule with hlt' | heq
    · exact Or.inl (Or.inl hlt')
    · exact Or.inl (Or.inr ⟨heq, hlt⟩)
  rw [hu] at hscan
  by_cases heq : r.write = u
  · exact ⟨r, hr, hall r hr, rfl, rfl, Or.inl rfl, heq ▸ htime, heq ▸ hscan⟩
  · obtain ⟨q, hq, hqs, hqa, rfl⟩ := mem_writesAt.mp husrc
    refine ⟨q, hq, hqa, hqs, hudst, Or.inr ?_, htime, hscan⟩
    rw [← List.dropLast_append_getLast? _ hu] at hmem hrising
    rcases List.mem_append.mp hmem with hmem | hmem
    · rw [List.map_append, List.pairwise_append] at hrising
      exact hrising.2.2 _ (List.mem_map_of_mem hmem) _ (by simp)
    · exact absurd (List.mem_singleton.mp hmem) heq

/-- In every run whose writes find the newest version of their edges and are later, committed
transactions are all or nothing. -/
theorem all_or_nothing {es : List Event}
    (hok : Along (step .fineGrain S) (fun j e => Disciplined S j e ∧ WritesNewest S j e)
      (start (built malloc tmp)) es)
    (hrun : exec (step .fineGrain S) (start (built malloc tmp)) es = some j) : AllOrNothing j := by
  let Inv : Journal → Prop := fun j => Ordered malloc tmp j ∧ ∀ r ∈ j.returned, r.accepted = true
  have hinv : Inv j := invariant_of_step
    (fun _ _ _ h hok hstep => whole_step h hok.1 hok.2 hstep) ⟨ordered_start, by simp [start]⟩ hok hrun
  exact hinv.1.allOrNothing hinv.2

end Run

section Runs

instance (j : Journal) : Decidable j.AllPublished :=
  inferInstanceAs (Decidable (∀ r ∈ j.returned, ∀ slot < 16, _))

instance (S : StdSort) (j : Journal) : ∀ e, Decidable (Disciplined S j e)
  | .run t _ => inferInstanceAs (Decidable (j.system.Inside t _))
  | .handOver epoch _ _ => inferInstanceAs (Decidable (∀ p ∈ (j.system.vbData epoch).todo.bind _, _))
  | .register _ _ | .call _ _ | .lock _ | .commit _ | .unlock _ | .collect _ => isTrue trivial

instance (S : StdSort) (j : Journal) : ∀ e, Decidable (WritesNewest S j e)
  | .run t _ => inferInstanceAs (Decidable (j.system.Inside t _))
  | .register _ _ | .call _ _ | .lock _ | .commit _ | .unlock _ | .collect _ | .handOver _ _ _ =>
    isTrue trivial

/-- A write-only transaction of an epoch. -/
private def writeOnly (epoch : Nat) (h : 0 < epoch ∧ epoch < 2 ^ 31) : Txn :=
  ⟨true, 0, epoch, 0, 0, 0, [], .ready, Write.pos_of_epoch h, Write.lt_of_epoch h, vbVectorLength_pos⟩

private def insertion (src dst weight : Nat) (h : dst < 2 ^ 63) : Call := ⟨false, src, dst, weight, h⟩

/-- insertedge of a transaction, from the call to its return. -/
private def insertedge (t : Nat) (c : Call) : List Event :=
  [.call t c, .lock t, .run t History.freshEnv]

private def noise : Nat → Nat → EdgeWithIndex := fun _ _ => ⟨0, 0, 0⟩

/-- Transactions 0 and 1 of the epochs 1 and 2 write edge 2->7 one after the other. -/
private def oldFirst : List Event :=
  [[.register 0 (writeOnly 1 Write.epoch_one), .register 1 (writeOnly 2 Write.epoch_two)],
    insertedge 0 (insertion 1 7 4 Write.seven_lt), insertedge 0 (insertion 2 7 5 Write.seven_lt),
    [.commit 0, .unlock 0, .unlock 0], insertedge 1 (insertion 2 7 6 Write.seven_lt),
    [.commit 1, .unlock 1, .collect 1, .handOver 1 0 100, .handOver 1 0 100, .collect 2,
      .handOver 2 0 200]].flatten

theorem all_or_nothing_oldFirst : ∃ j,
    exec (step .fineGrain .stable) (start (built noise noise)) oldFirst = some j ∧ j.AllPublished ∧
      j.returned.length = 3 ∧ AllOrNothing j := by
  obtain ⟨j, hrun, hpub, hlen⟩ : ∃ j,
      exec (step .fineGrain .stable) (start (built noise noise)) oldFirst = some j ∧ j.AllPublished ∧
        j.returned.length = 3 := by
    refine exists_exec ?_
    decide +kernel
  exact ⟨j, hrun, hpub, hlen, all_or_nothing (by decide +kernel) hrun⟩

/-- The same writes, but transaction 1 comes first: the vertex refuses the second write of
transaction 0, which commits. -/
private def newFirst : List Event :=
  [[.register 0 (writeOnly 1 Write.epoch_one), .register 1 (writeOnly 2 Write.epoch_two)],
    insertedge 1 (insertion 2 7 6 Write.seven_lt), [.commit 1, .unlock 1],
    insertedge 0 (insertion 1 7 4 Write.seven_lt), insertedge 0 (insertion 2 7 5 Write.seven_lt),
    [.commit 0, .unlock 0, .collect 1, .handOver 1 0 100, .handOver 1 0 100, .collect 2,
      .handOver 2 0 200]].flatten

/-- At the end of its epoch only the first write of transaction 0 is there. -/
theorem half_transaction : ¬∀ (S : StdSort) (malloc tmp : Nat → Nat → EdgeWithIndex)
    (es : List Event) (j : Journal),
    Along (step .fineGrain S) (Disciplined S) (start (built malloc tmp)) es →
    exec (step .fineGrain S) (start (built malloc tmp)) es = some j → AllOrNothing j := by
  intro hall
  obtain ⟨j, hrun, hpub, hpc, hfirst, r, hr, htxn, hsrc, hnil⟩ : ∃ j,
      exec (step .fineGrain .stable) (start (built noise noise)) newFirst = some j ∧ j.AllPublished ∧
        (j.system.txns 0).map Txn.pc = some (.committing []) ∧
        j.weights ⟨1, intraMax⟩ 1 7 = [4] ∧
        ∃ r ∈ j.returned, r.txn = 0 ∧ r.src = 2 ∧
          j.weights ⟨r.write.epoch, intraMax⟩ 2 r.write.dst = [] := by
    refine exists_exec ?_
    decide +kernel
  obtain ⟨q, -, -, -, -, -, -, hq⟩ := hall .stable _ _ _ j (by decide +kernel) hrun hpub r hr
    ⟨[], htxn ▸ hpc⟩
  rw [hsrc, hnil] at hq
  cases hq

end Runs

end Journal

end AVBGraph
