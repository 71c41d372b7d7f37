import AVBGraph.Framework.WaitsFor
import AVBGraph.Transaction.System

namespace AVBGraph

open Framework Function

namespace Txn

/-- The vertices whose locks a transaction holds. -/
def held (x : Txn) : List Nat :=
  match x.pc with
  | .inside c => c.src :: x.ebVec
  | .committing rest => rest
  | _ => x.ebVec

/-- The vertex whose lock a transaction waits for. -/
def wants (x : Txn) : Option Nat :=
  match x.pc with
  | .waiting c => some c.src
  | _ => none

end Txn

namespace System

variable {b : Build} {S : StdSort} {s s' : System} {e : Event}

def heldBy (x : Option Txn) : List Nat := x.elim [] Txn.held

def wantedBy (x : Option Txn) : Option Nat := x.bind Txn.wants

/-- The write locks as a locking state. -/
def locking (s : System) : Locking Nat Nat := ⟨s.holder, wantedBy ∘ s.txns⟩

/-- The locks that a transaction holds by its own state are those that name it. -/
structure LocksHeld (s : System) : Prop where
  nodup : ∀ t, (heldBy (s.txns t)).Nodup
  holder : ∀ v t, s.holder v = some t ↔ v ∈ heldBy (s.txns t)

/-- What a step does to the locks and to the lists of held locks. -/
inductive LockMove (s : System) (e : Event) (s' : System) : Prop
  | silent (h : s'.locking = s.locking) (hp : ∀ t, (heldBy (s'.txns t)).Perm (heldBy (s.txns t)))
  | request (t : Nat) (c : Call) (he : e = .call t c) (hw : wantedBy (s.txns t) = none)
      (h : s'.locking = s.locking.request t c.src) (hp : heldBy ∘ s'.txns = heldBy ∘ s.txns)
  | acquire (t v : Nat) (hv : s.holder v = none)
      (h : s'.locking = ⟨update s.holder v (some t), update (wantedBy ∘ s.txns) t none⟩)
      (hp : heldBy ∘ s'.txns = update (heldBy ∘ s.txns) t (v :: heldBy (s.txns t)))
  | release (t v : Nat) (rest : List Nat) (hv : heldBy (s.txns t) = v :: rest)
      (h : s'.locking = ⟨update s.holder v none, wantedBy ∘ s.txns⟩)
      (hp : heldBy ∘ s'.txns = update (heldBy ∘ s.txns) t rest)

section Update

variable {t : Nat} {x y : Txn}

/-- A transaction that neither starts nor stops to wait. -/
theorem wantedBy_update (hx : wantedBy (s.txns t) = x.wants) :
    wantedBy ∘ update s.txns t (some x) = wantedBy ∘ s.txns := by
  rw [comp_update]
  exact update_eq_self_iff.mpr hx.symm

theorem heldBy_update (hx : heldBy (s.txns t) = x.held) :
    heldBy ∘ update s.txns t (some x) = heldBy ∘ s.txns := by
  rw [comp_update]
  exact update_eq_self_iff.mpr hx.symm

theorem heldBy_perm (hx : x.held.Perm (heldBy (s.txns t))) (u : Nat) :
    (heldBy (update s.txns t (some x) u)).Perm (heldBy (s.txns u)) := by
  by_cases hu : u = t
  · subst hu
    rw [update_self]
    exact hx
  · rw [update_of_ne hu]

end Update

theorem LockMove.of_eq (hh : s'.holder = s.holder) (ht : s'.txns = s.txns) :
    LockMove s e s' := by
  refine .silent ?_ fun t => ?_
  · simp only [locking, hh, ht]
  · rw [ht]

/-- A call waits for the lock of its vertex. -/
theorem step_call {t : Nat} {c : Call} (h : s.step b S (.call t c) = some s') :
    wantedBy (s.txns t) = none ∧ s'.locking = s.locking.request t c.src ∧
      heldBy ∘ s'.txns = heldBy ∘ s.txns := by
  simp only [step, Option.bind_eq_bind, Option.bind_eq_some_iff] at h
  obtain ⟨x, hx, h⟩ := h
  split_ifs at h with hpc
  obtain rfl := Option.some.inj h
  refine ⟨by simp [wantedBy, hx, Txn.wants, hpc], ?_, ?_⟩
  · simp only [locking, Locking.request, comp_update]
    rfl
  · apply heldBy_update
    simp [heldBy, hx, Txn.held, hpc]

/-- A write keeps its lock when it is accepted and gives it back otherwise. -/
theorem lockMove_finish {t : Nat} {x : Txn} {c : Call} {env : Env} {r : WriteResult}
    (hx : s.txns t = some x) (hpc : x.pc = .inside c) :
    LockMove s e (s.finish b S env t x c r) := by
  have hheld : heldBy (s.txns t) = c.src :: x.ebVec := by simp [heldBy, hx, Txn.held, hpc]
  have hwants : wantedBy (s.txns t) = none := by simp [wantedBy, hx, Txn.wants, hpc]
  have hrelease : ∀ s' : System, s'.holder = update s.holder c.src none →
      s'.txns = update s.txns t (some { x with pc := .ready }) → LockMove s e s' := by
    intro s' hh ht
    refine .release t c.src x.ebVec hheld ?_ ?_
    · simp only [locking, hh, ht]
      rw [wantedBy_update (by rw [hwants]; rfl)]
    · rw [ht, comp_update]
      rfl
  cases hacc : r.accepted with
  | true =>
    simp only [finish, hacc, if_true]
    cases b with
    | fineGrain =>
      refine .silent ?_ (heldBy_perm ?_)
      · simp only [locking]
        rw [wantedBy_update (by rw [hwants]; rfl)]
      · rw [hheld]
        exact List.perm_append_singleton c.src x.ebVec
    | coarse => exact hrelease _ rfl rfl
  | false =>
    simp only [finish, hacc, Bool.false_eq_true, if_false]
    exact hrelease _ rfl rfl

theorem lockMove_step (h : s.step b S e = some s') : LockMove s e s' := by
  cases e with
  | register t x =>
    simp only [step] at h
    split_ifs at h with ht
    obtain rfl := Option.some.inj h
    refine .silent ?_ (heldBy_perm ?_)
    · simp only [locking]
      rw [wantedBy_update (by simp [wantedBy, ht, Txn.wants])]
    · simp [heldBy, ht, Txn.held]
  | call t c =>
    obtain ⟨hw, hl, hp⟩ := step_call h
    exact .request t c rfl hw hl hp
  | lock t =>
    simp only [step, Option.bind_eq_bind, Option.bind_eq_some_iff] at h
    obtain ⟨x, hx, h⟩ := h
    split at h
    · next c hpc =>
      split_ifs at h with hv
      obtain rfl := Option.some.inj h
      refine .acquire t c.src hv ?_ ?_
      · simp only [locking, comp_update]
        rfl
      · have hheld : heldBy (s.txns t) = x.ebVec := by simp [heldBy, hx, Txn.held, hpc]
        rw [comp_update, hheld]
        rfl
    · simp at h
  | run t env =>
    simp only [step, Option.bind_eq_bind, Option.bind_eq_some_iff] at h
    obtain ⟨x, hx, h⟩ := h
    split at h
    · next c hpc =>
      obtain ⟨r, -, rfl⟩ := Option.map_eq_some_iff.mp h
      exact lockMove_finish hx hpc
    · simp at h
  | commit t =>
    simp only [step, Option.bind_eq_bind, Option.bind_eq_some_iff] at h
    obtain ⟨x, hx, h⟩ := h
    split_ifs at h with hpc
    have hheld : heldBy (s.txns t) = x.ebVec := by simp [heldBy, hx, Txn.held, hpc]
    have hwants : wantedBy (s.txns t) = none := by simp [wantedBy, hx, Txn.wants, hpc]
    have hsilent : ∀ s' : System, s'.holder = s.holder → (∃ y : Txn, y.held = x.ebVec ∧
        y.wants = none ∧ s'.txns = update s.txns t (some y)) → LockMove s (.commit t) s' := by
      rintro s' hh ⟨y, hy, hyw, ht⟩
      refine .silent ?_ ?_
      · simp only [locking, hh, ht]
        rw [wantedBy_update (by rw [hwants, hyw])]
      · rw [ht]
        apply heldBy_perm
        rw [hheld, hy]
    cases b with
    | fineGrain =>
      obtain rfl := Option.some.inj h
      exact hsilent _ rfl ⟨_, rfl, rfl, rfl⟩
    | coarse =>
      obtain rfl := Option.some.inj h
      exact hsilent _ rfl ⟨_, rfl, rfl, rfl⟩
  | unlock t =>
    simp only [step, Option.bind_eq_bind, Option.bind_eq_some_iff] at h
    obtain ⟨x, hx, h⟩ := h
    split at h
    · next v rest hpc =>
      obtain rfl := Option.some.inj h
      refine .release t v rest (by simp [heldBy, hx, Txn.held, hpc]) ?_ ?_
      · simp only [locking]
        rw [wantedBy_update (by simp [wantedBy, hx, Txn.wants, hpc])]
      · rw [comp_update]
        rfl
    · simp at h
  | collect epoch =>
    simp only [step] at h
    split_ifs at h
    obtain rfl := Option.some.inj h
    exact .of_eq rfl rfl
  | handOver epoch i vb =>
    simp only [step, Option.bind_eq_bind, Option.bind_eq_some_iff] at h
    obtain ⟨todo, -, p, -, h⟩ := h
    split_ifs at h
    obtain ⟨r, -, h⟩ := Option.bind_eq_some_iff.mp h
    obtain rfl := Option.some.inj h
    exact .of_eq rfl rfl

theorem LocksHeld.move (h : LocksHeld s) (hm : LockMove s e s') : LocksHeld s' := by
  have hholder : s'.holder = s'.locking.holder := rfl
  cases hm with
  | silent hl hp =>
    refine ⟨fun t => (hp t).nodup_iff.mpr (h.nodup t), fun v t => ?_⟩
    rw [hholder, hl, (hp t).mem_iff]
    exact h.holder v t
  | request t c _ _ hl hp =>
    refine ⟨fun u => ?_, fun w u => ?_⟩
    · rw [show heldBy (s'.txns u) = _ from congrFun hp u]
      exact h.nodup u
    · rw [hholder, hl, show heldBy (s'.txns u) = _ from congrFun hp u]
      exact h.holder w u
  | acquire t v hv hl hp =>
    have hfree : ∀ u, v ∉ heldBy (s.txns u) := by
      intro u hu
      rw [(h.holder v u).mpr hu] at hv
      simp at hv
    refine ⟨fun u => ?_, fun w u => ?_⟩
    · rw [show heldBy (s'.txns u) = _ from congrFun hp u]
      by_cases hu : u = t
      · subst hu
        rw [update_self]
        exact List.nodup_cons.mpr ⟨hfree u, h.nodup u⟩
      · rw [update_of_ne hu]
        exact h.nodup u
    · rw [hholder, hl, show heldBy (s'.txns u) = _ from congrFun hp u]
      have hw := h.holder w u
      by_cases hu : u = t
      · subst hu
        by_cases hwv : w = v
        · simp [hwv]
        · simp [hwv, hw]
      · by_cases hwv : w = v
        · subst hwv
          simpa [hu, Ne.symm hu] using hfree u
        · simpa [hu, hwv] using hw
  | release t v rest hheld hl hp =>
    have hnd : v ∉ rest ∧ rest.Nodup := by
      have := h.nodup t
      rwa [hheld, List.nodup_cons] at this
    have hv : s.holder v = some t := (h.holder v t).mpr (by simp [hheld])
    refine ⟨fun u => ?_, fun w u => ?_⟩
    · rw [show heldBy (s'.txns u) = _ from congrFun hp u]
      by_cases hu : u = t
      · subst hu
        rw [update_self]
        exact hnd.2
      · rw [update_of_ne hu]
        exact h.nodup u
    · rw [hholder, hl, show heldBy (s'.txns u) = _ from congrFun hp u]
      have hw := h.holder w u
      by_cases hu : u = t
      · subst hu
        by_cases hwv : w = v
        · subst hwv
          simpa using hnd.1
        · simp only [hheld, List.mem_cons, hwv, false_or] at hw
          simpa [hwv] using hw
      · by_cases hwv : w = v
        · subst hwv
          have : w ∉ heldBy (s.txns u) := by
            rw [← h.holder w u, hv]
            simpa using Ne.symm hu
          simpa [hu] using this
        · simpa [hu, hwv] using hw

/-- A step other than a call closes no cycle. -/
theorem deadlockFree_move (h : s.locking.DeadlockFree) (hm : LockMove s e s')
    (hc : ∀ t c, e = .call t c → ¬s.locking.ClosesCycle t c.src) :
    s'.locking.DeadlockFree := by
  cases hm with
  | silent hl _ =>
    rw [hl]
    exact h
  | request t c he _ hl _ =>
    rw [hl]
    exact h.request (hc t c he)
  | acquire t v hv hl _ =>
    rw [hl]
    refine h.sink (t := t) (update_self ..) ?_
    rintro a b ⟨r, ha, hb⟩
    by_cases hr : r = v
    · subst hr
      right
      simpa using hb.symm
    · by_cases hat : a = t
      · subst hat
        simp at ha
      · left
        exact ⟨r, by simpa [hat, locking] using ha, by simpa [hr, locking] using hb⟩
  | release t v rest _ hl _ =>
    rw [hl]
    apply h.mono
    rintro a b ⟨r, ha, hb⟩
    by_cases hr : r = v
    · subst hr
      simp at hb
    · exact ⟨r, ha, by simpa [hr, locking] using hb⟩

end System

end AVBGraph
