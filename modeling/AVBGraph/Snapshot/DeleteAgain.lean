import AVBGraph.Snapshot.Coarse
import AVBGraph.Snapshot.NewestState
import AVBGraph.Vertex.Alike

namespace AVBGraph

open Framework

namespace VertexEdges

variable {S : StdSort} {b : Build} {env : Env} {s : VertexEdges} {w : Write}

/-- Transform of some slots, each into the version block at the given address. -/
def transformAll (b : Build) (S : StdSort) (todo : List (Nat × Nat)) (s : VertexEdges) :
    Option VertexEdges :=
  todo.foldlM (fun s x => (s.transform b S x.1 x.2).map Prod.snd) s

/-- The conflict test of a deletion on the words of the item. -/
def refuses (b : Build) (x : Item) (w : Write) : Bool :=
  match b with
  | .fineGrain => conflicts w.txn x.1.getCoarseC w.epoch
  | .coarse => refusesCoarse x w

theorem Alike.transformAll {t : VertexEdges} (h : Alike s t) (b : Build) (todo : List (Nat × Nat)) :
    ∃ s' t', s.transformAll b S todo = some s' ∧ t.transformAll b S todo = some t' ∧
      Alike s' t' := by
  apply foldlM_sim (R := Alike) _ h
  intro u v x _ huv
  obtain ⟨n, u', v', hu, hv, h'⟩ := huv.transform (S := S) b x.1 x.2
  exact ⟨u', v', by rw [hu]; rfl, by rw [hv]; rfl, h'⟩

theorem deleteFine_accepted {l : Loc} (offset : Nat) :
    (s.deleteFine l offset w = (false, s) ∧ refuses .fineGrain (s.itemAt l) w = true) ∨
      (s.deleteFine l offset w).1 = true ∧ refuses .fineGrain (s.itemAt l) w = false := by
  unfold deleteFine
  cases hc : conflicts w.txn (s.itemE l).getCoarseC w.epoch with
  | true =>
    left
    exact ⟨by simp [hc], hc⟩
  | false =>
    right
    exact ⟨by simp [hc], hc⟩

end VertexEdges

end AVBGraph
