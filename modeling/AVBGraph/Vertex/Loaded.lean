import AVBGraph.Vertex.Times

namespace AVBGraph

open Framework

namespace VertexEdges

variable {s : VertexEdges}

/-- The newest version that build gives an edge. -/
def loadedHead (weight : Nat) : Head := ⟨false, ⟨0, 0⟩, false, weight, 0⟩

theorem Built.rep (h : Built s) : Rep s := (h.stamped (P := fun _ => True)).rep

theorem Built.entries (h : Built s) (k : Nat) : (s.tmpVb k).entries = [] := by
  obtain ⟨edges, properties, malloc, tmp, rfl, -, -⟩ := h
  rfl

theorem Built.changes (h : Built s) (k : Nat) : s.view.changes k = [] := by
  show (s.tmpVb k).entries.map VersionEntry.change = []
  rw [h.entries]
  rfl

theorem Built.stamp (h : Built s) (k : Nat) : s.view.stamp k = 0 := by
  obtain ⟨edges, properties, malloc, tmp, rfl, -, -⟩ := h
  rfl

theorem Built.vbm (h : Built s) : s.vbm = .empty := by
  obtain ⟨edges, properties, malloc, tmp, rfl, -, -⟩ := h
  rfl

theorem Built.wf (h : Built s) : Wf s where
  rep := h.rep
  placed slot x hx := by
    rw [h.entries] at hx
    cases hx
  stamp slot := by
    have hstamp : (s.tmpVb slot).timestamp = 0 := h.stamp slot
    rw [hstamp]
    decide

/-- The words of a loaded edge. -/
theorem Built.words (h : Built s) {d : Nat} {x : Item} (hx : s.item d = some x) :
    x.1 = ⟨x.1.e, 0, 0⟩ ∧ isDelete x.1.e = false ∧ x.2.block = 0 := by
  obtain ⟨l, hl, rfl, -⟩ := exists_loc hx
  obtain ⟨edges, properties, malloc, tmp, rfl, -, hlt⟩ := h
  rw [mem_locs] at hl
  cases l with
  | tmp i => exact absurd hl (Nat.not_lt_zero i)
  | start i =>
    have hi : i < edges.length := hl
    have hE : ((build edges properties malloc tmp).itemAt (.start i)).1 = ⟨edges[i], 0, 0⟩ := by
      show (build edges properties malloc tmp).start i = _
      simp [build, hi]
    have hP : ((build edges properties malloc tmp).itemAt (.start i)).2.block = 0 := by
      show ((build edges properties malloc tmp).start (i + edges.length)).block = 0
      simp [build, hi]
    rw [hE]
    exact ⟨rfl, isDelete_of_lt (hlt _ (List.getElem_mem hi)), hP⟩

/-- A loaded edge is live, has no pending version and was created at time 0 of epoch 0. -/
theorem Built.head (h : Built s) {d : Nat} {g : Head} (hg : s.view.head d = some g) :
    g = loadedHead g.weight := by
  obtain ⟨x, hx, rfl⟩ := Option.map_eq_some_iff.mp hg
  obtain ⟨hE, hlive, hP⟩ := h.words hx
  have hhead : headOf x = ⟨isDelete x.1.e, x.1.creation, isTmp x.1.block, x.2.e, x.2.block⟩ := rfl
  have hcreation : EdgeWithIndex.creation ⟨x.1.e, 0, 0⟩ = ⟨0, 0⟩ := creation_mk _ _ (by decide)
  have hpending : isTmp 0 = false := by decide
  rw [hhead, hlive, hP, hE, hcreation, hpending]
  rfl

end VertexEdges

end AVBGraph
