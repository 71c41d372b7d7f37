import AVBGraph.Algorithm.Adjacency

namespace AVBGraph

namespace PageRank

variable {max_vid : Nat} {F : Type*} [Zero F] [One F] [NatCast F] [Add F] [Sub F] [Mul F] [Div F]

/-- The scores and the first of the contribution arrays. -/
structure State (max_vid : Nat) (F : Type*) where
  scores : Fin max_vid → F
  contrib : Fin max_vid → F

/-- One iteration; the arithmetic is that of `F`, the sums are taken in index order. -/
def iteration (g : Adjacency max_vid) (num_vertices : Nat) (damping_factor : F)
    (s : State max_vid F) : State max_vid F :=
  let base_score := (1 - damping_factor) / (num_vertices : F)
  let dangling_sum := (List.finRange max_vid).foldl
    (fun sum v => if g.degree v = 0 then sum + s.scores v else sum) 0
  let contrib := fun v =>
    if g.degree v = 0 then s.contrib v else s.scores v / (g.degree v : F)
  let dangling_sum := dangling_sum / (num_vertices : F)
  let scores := fun v =>
    let incoming_total :=
      if g.degree v = 0 then 0 else (g.edges v).foldl (fun sum w => sum + contrib w) 0
    base_score + damping_factor * (incoming_total + dangling_sum)
  ⟨scores, contrib⟩

/-- The scores of `compute_pagerank` when it divides by `num_vertices`. -/
def computeScores (g : Adjacency max_vid) (num_vertices num_iterations : Nat) (damping_factor : F) :
    Fin max_vid → F :=
  ((iteration g num_vertices damping_factor)^[num_iterations]
    ⟨fun _ => 1 / (num_vertices : F), fun _ => 0⟩).scores

end PageRank

end AVBGraph
