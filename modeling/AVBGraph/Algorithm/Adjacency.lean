import Mathlib.Data.List.FinRange

namespace AVBGraph

/-- The snapshot that an analysis reads: the destinations that a scan of a vertex hands out and the
degree that `check_degree` returns. The vertices are the numbers below `max_vid`. -/
structure Adjacency (max_vid : Nat) where
  edges : Fin max_vid → List (Fin max_vid)
  degree : Fin max_vid → Nat

namespace Adjacency

variable {max_vid : Nat}

/-- The degree of a vertex is zero exactly when a scan finds nothing. -/
def DegreeZero (g : Adjacency max_vid) : Prop := ∀ v, g.degree v = 0 ↔ g.edges v = []

/-- Both directions of every edge are stored. -/
def Symmetric (g : Adjacency max_vid) : Prop := ∀ u, ∀ v ∈ g.edges u, u ∈ g.edges v

/-- Duplicate-free neighbour lists without self loops. -/
def Simple (g : Adjacency max_vid) : Prop := ∀ v, (g.edges v).Nodup ∧ v ∉ g.edges v

instance (g : Adjacency max_vid) : Decidable g.DegreeZero := inferInstanceAs (Decidable (∀ _, _))

instance (g : Adjacency max_vid) : Decidable g.Symmetric := inferInstanceAs (Decidable (∀ _, _))

instance (g : Adjacency max_vid) : Decidable g.Simple := inferInstanceAs (Decidable (∀ _, _))

end Adjacency

end AVBGraph
