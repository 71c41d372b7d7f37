import AVBGraph.Transaction.System
import AVBGraph.Vertex.Effects

namespace AVBGraph

open Framework Function

/-- A call of insertedge or deletedge that has returned: the write that it made, and the answer
of the vertex, which insertedge and deletedge drop. -/
structure Returned where
  txn : Nat
  src : Nat
  delete : Bool
  write : Write
  accepted : Bool
  deriving DecidableEq

/-- The transactions, and the calls that have returned so far. -/
structure Journal where
  system : System
  returned : List Returned

namespace Journal

def start (vertices : Nat → VertexEdges) : Journal := ⟨.start vertices, []⟩

/-- The call that a step ends. -/
def returns (b : Build) (S : StdSort) (s : System) : Event → Option Returned
  | .run t env => do
    let x ← s.txns t
    match x.pc with
    | .inside c =>
      (s.runCall b S env x c).map fun r =>
        ⟨t, c.src, c.delete, x.write (s.vbData x.epoch) c, r.accepted⟩
    | _ => none
  | _ => none

def step (b : Build) (S : StdSort) (j : Journal) (e : Event) : Option Journal :=
  (j.system.step b S e).map fun s => ⟨s, j.returned ++ (returns b S j.system e).toList⟩

/-- The accepted writes of a vertex, in their order. -/
def writesAt (j : Journal) (v : Nat) : List Write :=
  (j.returned.filter fun r => r.src = v ∧ r.accepted = true).map Returned.write

/-- What happened to a vertex. -/
def history (j : Journal) (v : Nat) : History := ⟨j.system.vertices v, j.writesAt v⟩

variable {b : Build} {S : StdSort} {j j' : Journal} {e : Event} {t : Nat} {env : Env}

theorem system_step (h : j.step b S e = some j') : j.system.step b S e = some j'.system := by
  obtain ⟨s, hs, rfl⟩ := Option.map_eq_some_iff.mp h
  exact hs

theorem mem_writesAt {v : Nat} {w : Write} :
    w ∈ j.writesAt v ↔ ∃ r ∈ j.returned, r.src = v ∧ r.accepted = true ∧ r.write = w := by
  simp [writesAt, and_assoc]

theorem writesAt_concat {s : System} (r : Returned) (v : Nat) :
    (Journal.mk s (j.returned ++ [r])).writesAt v =
      if r.src = v ∧ r.accepted = true then j.writesAt v ++ [r.write] else j.writesAt v := by
  unfold writesAt
  split_ifs with h
  · simp [h]
  · simp [List.filter_append, h]

/-- What a call that returns does: it is a write of its source vertex. -/
theorem step_run (h : j.step b S (.run t env) = some j') : ∃ x c r,
    j.system.txns t = some x ∧ x.pc = .inside c ∧ j.system.runCall b S env x c = some r ∧
      j'.system = j.system.finish b S env t x c r ∧
      j'.returned = j.returned ++
        [⟨t, c.src, c.delete, x.write (j.system.vbData x.epoch) c, r.accepted⟩] := by
  obtain ⟨s, hs, rfl⟩ := Option.map_eq_some_iff.mp h
  simp only [System.step, Option.bind_eq_bind, Option.bind_eq_some_iff] at hs
  obtain ⟨x, hx, hs⟩ := hs
  split at hs
  · next c hpc =>
    obtain ⟨r, hr, rfl⟩ := Option.map_eq_some_iff.mp hs
    refine ⟨x, c, r, hx, hpc, hr, rfl, ?_⟩
    simp [returns, hx, hpc, hr]
  · simp at hs

theorem vertices_finish (b : Build) (S : StdSort) (env : Env) (s : System) (t : Nat) (x : Txn)
    (c : Call) (r : WriteResult) :
    (s.finish b S env t x c r).vertices = update s.vertices c.src r.state := by
  unfold System.finish
  cases r.accepted with
  | false => rfl
  | true => cases b <;> rfl

/-- A call of insertedge is an insertion in the history of its source, and leaves the other
vertices alone. -/
theorem history_run {x : Txn} {c : Call} {r : WriteResult}
    (hr : j.system.runCall b S env x c = some r) (hc : c.delete = false)
    (hs : j'.system = j.system.finish b S env t x c r)
    (hret : j'.returned = j.returned ++
      [⟨t, c.src, c.delete, x.write (j.system.vbData x.epoch) c, r.accepted⟩]) :
    (j.history c.src).step b S (.insert env (x.write (j.system.vbData x.epoch) c)) =
      some (j'.history c.src) ∧ ∀ v, v ≠ c.src → j'.history v = j.history v := by
  obtain ⟨s', returned'⟩ := j'
  obtain rfl : s' = _ := hs
  obtain rfl : returned' = _ := hret
  have hvert := vertices_finish b S env j.system t x c r
  constructor
  · have hins : (j.system.vertices c.src).insertEdgeBlock b S env
        (x.write (j.system.vbData x.epoch) c) = some r := by
      unfold System.runCall at hr
      rwa [hc, if_neg Bool.false_ne_true] at hr
    have hstate : (j.history c.src).state = j.system.vertices c.src := rfl
    simp only [History.step, hstate, hins, Option.map_some, Option.some.injEq]
    unfold history
    rw [hvert, update_self, writesAt_concat]
    simp
  · intro v hv
    unfold history
    rw [hvert, update_of_ne hv, writesAt_concat, if_neg]
    rintro ⟨rfl, -⟩
    exact hv rfl

/-- The step that hands over a TmpVersionBlock transforms its vertex. -/
theorem step_handOver {epoch i vb : Nat} (h : j.step b S (.handOver epoch i vb) = some j') :
    ∃ todo v slot n w, (j.system.vbData epoch).todo = some todo ∧ todo[i]? = some (v, slot) ∧
      (j.system.vertices v).transform b S slot vb = some (n, w) ∧
      j'.system.vertices = update j.system.vertices v w ∧ j'.system.txns = j.system.txns ∧
      j'.returned = j.returned := by
  obtain ⟨s, hs, rfl⟩ := Option.map_eq_some_iff.mp h
  simp only [System.step, Option.bind_eq_bind, Option.bind_eq_some_iff] at hs
  obtain ⟨todo, htodo, ⟨v, slot⟩, hi, hs⟩ := hs
  split_ifs at hs
  obtain ⟨⟨n, w⟩, hw, hs⟩ := Option.bind_eq_some_iff.mp hs
  obtain rfl := Option.some.inj hs
  exact ⟨todo, v, slot, n, w, htodo, hi, hw, rfl, rfl, by simp [returns]⟩

/-- Every other step leaves the vertices alone. -/
theorem step_silent (h : j.step b S e = some j') (hrun : ∀ t env, e ≠ .run t env)
    (hhand : ∀ epoch i vb, e ≠ .handOver epoch i vb) :
    j'.system.vertices = j.system.vertices ∧ j'.returned = j.returned := by
  obtain ⟨s, hs, rfl⟩ := Option.map_eq_some_iff.mp h
  cases e with
  | run t env => exact absurd rfl (hrun t env)
  | handOver epoch i vb => exact absurd rfl (hhand epoch i vb)
  | register t x =>
    simp only [System.step] at hs
    split_ifs at hs
    obtain rfl := Option.some.inj hs
    exact ⟨rfl, by simp [returns]⟩
  | call t c =>
    simp only [System.step, Option.bind_eq_bind, Option.bind_eq_some_iff] at hs
    obtain ⟨x, -, hs⟩ := hs
    split_ifs at hs
    obtain rfl := Option.some.inj hs
    exact ⟨rfl, by simp [returns]⟩
  | lock t =>
    simp only [System.step, Option.bind_eq_bind, Option.bind_eq_some_iff] at hs
    obtain ⟨x, -, hs⟩ := hs
    split at hs
    · split_ifs at hs
      obtain rfl := Option.some.inj hs
      exact ⟨rfl, by simp [returns]⟩
    · simp at hs
  | commit t =>
    simp only [System.step, Option.bind_eq_bind, Option.bind_eq_some_iff] at hs
    obtain ⟨x, -, hs⟩ := hs
    split_ifs at hs
    cases b with
    | fineGrain =>
      obtain rfl := Option.some.inj hs
      exact ⟨rfl, by simp [returns]⟩
    | coarse =>
      obtain rfl := Option.some.inj hs
      exact ⟨rfl, by simp [returns]⟩
  | unlock t =>
    simp only [System.step, Option.bind_eq_bind, Option.bind_eq_some_iff] at hs
    obtain ⟨x, -, hs⟩ := hs
    split at hs
    · obtain rfl := Option.some.inj hs
      exact ⟨rfl, by simp [returns]⟩
    · simp at hs
  | collect epoch =>
    simp only [System.step] at hs
    split_ifs at hs
    obtain rfl := Option.some.inj hs
    exact ⟨rfl, by simp [returns]⟩

end Journal

end AVBGraph
