import AVBGraph.Vertex.Effects

namespace AVBGraph

open Framework

/-- A head without its index into a version block. -/
def Head.erase (h : Head) : Head := { h with index := 0 }

namespace View

variable {S : StdSort} {cs : List Change} {v : View} {slot d : Nat}

section Sorted

theorem sorted_perm (S : StdSort) (cs : List Change) : (sorted S cs).Perm cs :=
  S.perm_map_getD cs _

theorem sorted_pairwise (S : StdSort) (cs : List Change) :
    (sorted S cs).Pairwise fun a b => a.old ≤ b.old := by
  unfold sorted
  rw [List.pairwise_map]
  exact S.sorted_key (fun i => (cs.getD i default).old) (fun _ _ => decide_eq_true_iff) _

private theorem zero_first : (sorted S cs).Pairwise fun a b =>
    decide (b.old.e = 0) = true → decide (a.old.e = 0) = true := by
  refine (sorted_pairwise S cs).imp fun {a b} hab => ?_
  simp only [decide_eq_true_eq]
  simp only [Composite.le_def, Composite.lt_def] at hab
  omega

theorem inserts_eq : inserts S cs =
    (sorted S cs).filter fun c => decide (c.old.e = 0) && !isDelete c.edge := by
  unfold inserts
  rw [takeWhile_eq_filter zero_first, List.filter_filter]
  exact List.filter_congr fun c _ => Bool.and_comm _ _

theorem replaced_eq : replaced S cs = ((sorted S cs).filter fun c => decide (c.old.e ≠ 0)) ++
    (sorted S cs).filter fun c => decide (c.old.e = 0) && isDelete c.edge := by
  unfold replaced
  rw [takeWhile_eq_filter zero_first, dropWhile_eq_filter zero_first, List.filter_filter]
  congr 1
  · exact List.filter_congr fun c _ => by simp
  · exact List.filter_congr fun c _ => Bool.and_comm _ _

theorem mem_inserts {c : Change} : c ∈ inserts S cs ↔
    c ∈ cs ∧ c.old.e = 0 ∧ isDelete c.edge = false := by
  rw [inserts_eq, List.mem_filter, (sorted_perm S cs).mem_iff]
  simp

theorem mem_replaced {c : Change} : c ∈ replaced S cs ↔
    c ∈ cs ∧ (c.old.e ≠ 0 ∨ isDelete c.edge = true) := by
  rw [replaced_eq, List.mem_append, List.mem_filter, List.mem_filter, (sorted_perm S cs).mem_iff]
  simp only [decide_eq_true_eq, Bool.and_eq_true]
  tauto

/-- What Transform preserves, one change at a time. -/
theorem publishAll_induction {I : Publication → Prop} (hinit : I ⟨v.head, 0, []⟩)
    (hfresh : ∀ p, I p → ∀ c ∈ v.changes slot, c.old.e = 0 → isDelete c.edge = false →
      I (publishFresh (v.stamp slot) p c))
    (hfine : ∀ p, I p → ∀ c ∈ v.changes slot, c.old.e ≠ 0 ∨ isDelete c.edge = true →
      I (publishFine (v.stamp slot) p c)) : I (publishAll S slot v) := by
  unfold publishAll
  refine List.foldlRecOn _ _ (List.foldlRecOn _ _ hinit fun p hp c hc => ?_) fun p hp c hc => ?_
  · obtain ⟨hmem, he, hd⟩ := mem_inserts.mp hc
    exact hfresh p hp c hmem he hd
  · obtain ⟨hmem, hor⟩ := mem_replaced.mp hc
    exact hfine p hp c hmem hor

end Sorted

section AtDestination

/-- The head and the records of one destination in the middle of Transform. -/
structure Local where
  head : Option Head
  records : List Item

def Publication.at (p : Publication) (d : Nat) : Local :=
  ⟨(p.head d).map Head.erase, p.records.filter fun r => r.1.key = d⟩

def Local.publishFresh (epoch : Nat) (l : Local) (c : Change) : Local :=
  { l with head := l.head.map (freshHead epoch c) }

def Local.publishFine (epoch : Nat) (l : Local) (c : Change) : Local where
  head := l.head.map (replacedHead epoch 0 c)
  records := l.records ++ [recordOf c (l.head.elim 0 Head.weight)]

theorem freshHead_erase (epoch : Nat) (c : Change) (h : Head) :
    (freshHead epoch c h).erase = freshHead epoch c h.erase := by
  unfold freshHead Head.erase
  split_ifs <;> rfl

theorem at_publishFresh (epoch : Nat) (p : Publication) (c : Change) :
    (View.publishFresh epoch p c).at d =
      if decide (c.key = d) then (p.at d).publishFresh epoch c else p.at d := by
  by_cases hd : c.key = d
  · subst hd
    simp [Publication.at, View.publishFresh, Local.publishFresh, Function.comp_def, freshHead_erase]
  · simp [Publication.at, View.publishFresh, hd, Ne.symm hd]

theorem key_recordOf (c : Change) (weight : Nat) : (recordOf c weight).1.key = c.key :=
  clearDelete_clearDelete _

theorem at_publishFine (epoch : Nat) (p : Publication) (c : Change) :
    (View.publishFine epoch p c).at d =
      if decide (c.key = d) then (p.at d).publishFine epoch c else p.at d := by
  have hkey := key_recordOf c ((p.head c.key).elim 0 Head.weight)
  by_cases hd : c.key = d
  · subst hd
    have hw : ((p.head c.key).map Head.erase).elim 0 Head.weight =
        (p.head c.key).elim 0 Head.weight := by
      cases p.head c.key <;> rfl
    simp [Publication.at, View.publishFine, Local.publishFine, hkey, hw, Function.comp_def,
      replacedHead, Head.erase]
  · simp [Publication.at, View.publishFine, hkey, hd, Ne.symm hd]

/-- Transform treats the destinations apart. -/
theorem publishAll_at (S : StdSort) (slot d : Nat) (v : View) : (publishAll S slot v).at d =
    ((replaced S (v.changes slot)).filter fun c => c.key = d).foldl
      (Local.publishFine (v.stamp slot))
      (((inserts S (v.changes slot)).filter fun c => c.key = d).foldl
        (Local.publishFresh (v.stamp slot)) ⟨(v.head d).map Head.erase, []⟩) := by
  unfold publishAll
  rw [foldl_at (fun p => Publication.at p d) (at_publishFine _),
    foldl_at (fun p => Publication.at p d) (at_publishFresh _)]
  rfl

end AtDestination

end View

end AVBGraph
