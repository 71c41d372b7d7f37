import AVBGraph.Framework.Run
import AVBGraph.Vertex.Emission

namespace AVBGraph

open Framework

def Write.time (w : Write) : Composite := ⟨w.epoch, w.txn.intra⟩

/-- An operation on one vertex. -/
inductive Op
  | insert (env : Env) (w : Write)
  | delete (env : Env) (w : Write)
  | transform (epoch vb : Nat)

/-- A vertex with its accepted insertions, oldest first. -/
structure History where
  state : VertexEdges
  accepted : List Write

namespace History

/-- One operation. Transform is called for the epoch that owns its slot. -/
def step (b : Build) (S : StdSort) (h : History) : Op → Option History
  | .insert env w =>
    (h.state.insertEdgeBlock b S env w).map fun r =>
      ⟨r.state, if r.accepted then h.accepted ++ [w] else h.accepted⟩
  | .delete env w => (h.state.deleteEdgeBlock b S env w).map fun r => ⟨r.state, h.accepted⟩
  | .transform epoch vb =>
    if (h.state.tmpVb (epoch % 16)).timestamp = epoch then
      (h.state.transform b S (epoch % 16) vb).map fun r => ⟨r.2, h.accepted⟩
    else none

/-- The creation times of the versions of a destination. -/
def versions (h : History) (d : Nat) : List Composite :=
  (h.accepted.filter fun w => w.dst = d).map Write.time

/-- A vertex without edges, and the memory that its examples run on. -/
def fresh : History := ⟨.build [] [] (fun _ => ⟨0, 0, 0⟩) fun _ => ⟨0, 0, 0⟩, []⟩

def freshEnv : Env := ⟨fun _ => ⟨0, 0, 0⟩, 0, by decide⟩

/-- An operation without a deletion, whose lookup returns the item of the destination. -/
def InsertOk (S : StdSort) (h : History) : Op → Prop
  | .insert env w => (h.state.prepare S env).LookupRight w.dst
  | .delete _ _ => False
  | .transform _ _ => True

instance (S : StdSort) (h : History) (op : Op) : Decidable (InsertOk S h op) :=
  match op with
  | .insert _ _ => inferInstanceAs (Decidable (VertexEdges.LookupRight _ _))
  | .delete _ _ => isFalse id
  | .transform _ _ => isTrue trivial

end History

/-- No destination is deleted. -/
def View.Live (v : View) : Prop := ∀ d h, v.head d = some h → h.deleted = false

namespace VertexEdges

variable {S : StdSort} {env : Env} {s : VertexEdges} {w : Write}

theorem not_dropped (hlive : s.view.Live) {oldest d : Nat} {x : Item} (hx : s.item d = some x) :
    dropped oldest x.1 = false := by
  have hd : isDelete x.1.e = false := hlive d (headOf x) (by simp [view, hx])
  simp [dropped, hd]

theorem view_prepare_of_live (h : Rep s) (hlive : s.view.Live) : (s.prepare S env).view = s.view :=
  view_prepare h fun _ _ hx => not_dropped hlive hx

theorem Wf.prepare_of_live (h : Wf s) (hlive : s.view.Live) : Wf (s.prepare S env) :=
  h.prepare fun _ _ _ _ hy => not_dropped hlive hy

/-- An insertion into a vertex without deleted destinations. -/
theorem insert_live (h : Wf s) (hlive : s.view.Live)
    (hlook : LookupRight (s.prepare S env) w.dst) :
    ∃ r unset, insertEdgeBlock .fineGrain S env s w = some r ∧ Wf r.state ∧
      r.registered = decide (s.view.stamp (w.epoch % 16) ≠ w.epoch) ∧
      (r.accepted, r.state.view) = (s.view.openTvb w.epoch).insertFine unset w := by
  have hw : Wf (s.prepare S env) := h.prepare_of_live hlive
  have := insert_refines hw (tmpEv_prepare_lt h.rep) hlook
  rwa [view_prepare_of_live h.rep hlive] at this

theorem wf_build (malloc tmp : Nat → EdgeWithIndex) : Wf (build [] [] malloc tmp) := by
  refine ⟨⟨by simp [build], le_rfl, rfl, ?_, ?_, ?_, ?_⟩, ?_, ?_⟩
  · intro i j _ hj
    simp [build] at hj
  · intro i j hi
    simp [build] at hi
  · intro i j hi
    simp [build] at hi
  · simp [build, locs]
  · simp [build]
  · simp [build]

end VertexEdges

end AVBGraph
