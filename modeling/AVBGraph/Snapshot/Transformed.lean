import AVBGraph.Snapshot.Versions

namespace AVBGraph

open Framework

namespace View

variable {S : StdSort} {v : View} {slot d : Nat}

/-- The progress of Transform on a destination, up to times and links. -/
private def Follows (l : Local) (o : Nat × List Record) : Prop :=
  ∃ h, l.head = some h ∧ h.deleted = false ∧ h.weight = o.1 ∧ l.records.map recordAt = o.2

theorem recordAt_recordOf {c : Change} (hlt : c.old.e < 2 ^ 31) (weight : Nat) :
    recordAt (recordOf c weight) = ⟨c.key, c.old, c.intra, weight⟩ := by
  simp [recordAt, recordOf, EdgeWithIndex.key, Change.key, EdgeWithIndex.creation,
    EdgeWithIndex.getCoarseC, clearTmp_of_lt hlt]

private theorem Follows.publishFresh {l : Local} {o : Nat × List Record} (h : Follows l o)
    (epoch : Nat) {c : Change} (hc : c.old.e = 0) :
    Follows (l.publishFresh epoch c) (publishStep o c.erase) := by
  obtain ⟨hd, hhead, hdel, -, hrec⟩ := h
  have hzero : c.erase.old.e = 0 := hc
  refine ⟨freshHead epoch c hd, by simp [Local.publishFresh, hhead], ?_, ?_, ?_⟩
  · unfold freshHead
    split_ifs <;> exact hdel
  · unfold freshHead
    split_ifs <;> rfl
  · simpa [publishStep, hzero, Local.publishFresh] using hrec

private theorem Follows.publishFine {l : Local} {o : Nat × List Record} (h : Follows l o)
    (epoch : Nat) {c : Change} (hc : c.old.e ≠ 0) (hlt : c.old.e < 2 ^ 31)
    (hdel : isDelete c.edge = false) :
    Follows (l.publishFine epoch c) (publishStep o c.erase) := by
  obtain ⟨hd, hhead, hlive, hw, hrec⟩ := h
  have hne : c.erase.old.e ≠ 0 := hc
  refine ⟨replacedHead epoch 0 c hd, by simp [Local.publishFine, hhead], hlive, ?_, ?_⟩
  · simp [replacedHead, hdel, publishStep, Change.erase]
  · rw [publishStep, if_neg hne, ← hrec, ← hw]
    simp only [Local.publishFine, hhead, List.map_append, List.map_cons, List.map_nil,
      recordAt_recordOf hlt]
    rfl

private theorem Follows.foldl {f : Local → Change → Local} (cs : List Change)
    (hstep : ∀ l o, ∀ c ∈ cs, Follows l o → Follows (f l c) (publishStep o c.erase)) {l : Local}
    {o : Nat × List Record} (h : Follows l o) :
    Follows (cs.foldl f l) ((cs.map Change.erase).foldl publishStep o) := by
  induction cs generalizing l o with
  | nil => exact h
  | cons c cs ih =>
    exact ih (fun l o x hx => hstep l o x (by simp [hx])) (hstep l o c (by simp) h)

/-- The entries of a destination in the order in which Transform treats them. -/
def sortedAt (S : StdSort) (v : View) (slot d : Nat) : List Change :=
  (sorted S (v.changes slot)).filter fun c => c.key = d

theorem sortedAt_perm : (sortedAt S v slot d).Perm ((v.changes slot).filter fun c => c.key = d) :=
  (sorted_perm S _).filter _

theorem mem_sortedAt {c : Change} : c ∈ sortedAt S v slot d ↔ c ∈ v.changes slot ∧ c.key = d := by
  rw [sortedAt_perm.mem_iff, List.mem_filter, decide_eq_true_iff]

theorem sortedAt_pairwise : (sortedAt S v slot d).Pairwise fun a b => a.old ≤ b.old :=
  (sorted_pairwise S _).filter _

private theorem sortedAt_zero_first : (sortedAt S v slot d).Pairwise fun a b =>
    decide (b.old.e = 0) = true → decide (a.old.e = 0) = true := by
  refine sortedAt_pairwise.imp fun {a b} hab => ?_
  simp only [decide_eq_true_eq]
  simp only [Composite.le_def, Composite.lt_def] at hab
  omega

theorem sortedAt_split : (sortedAt S v slot d).filter (fun c => decide (c.old.e = 0)) ++
    (sortedAt S v slot d).filter (fun c => !decide (c.old.e = 0)) = sortedAt S v slot d := by
  rw [← takeWhile_eq_filter sortedAt_zero_first, ← dropWhile_eq_filter sortedAt_zero_first,
    List.takeWhile_append_dropWhile]

/-- With distinct predecessors the order does not depend on the sorting algorithm. -/
theorem sortedAt_erase (hne : ((v.changes slot).filter fun c => c.key = d).Pairwise
    fun a b => a.old ≠ b.old) : (sortedAt S v slot d).map Change.erase =
      sorted .stable (((v.changes slot).filter fun c => c.key = d).map Change.erase) := by
  have hlt : (sortedAt S v slot d).Pairwise fun a b => a.old < b.old := by
    have hp : (sortedAt S v slot d).Perm _ := sortedAt_perm
    have := hp.symm.pairwise hne fun h => h.symm
    exact (sortedAt_pairwise.and this).imp fun h => lt_of_le_of_ne h.1 h.2
  refine (eq_of_perm_of_increasing (f := Change.old) ?_ (sorted_pairwise _ _) ?_).symm
  · exact (sorted_perm _ _).trans (sortedAt_perm.map _).symm
  · rw [List.pairwise_map]
    exact hlt

section NoDeletion

variable (hlive : ∀ c ∈ v.changes slot, isDelete c.edge = false)

include hlive

theorem publishAll_at_live : (publishAll S slot v).at d =
    ((sortedAt S v slot d).filter fun c => !decide (c.old.e = 0)).foldl
      (Local.publishFine (v.stamp slot))
      (((sortedAt S v slot d).filter fun c => decide (c.old.e = 0)).foldl
        (Local.publishFresh (v.stamp slot)) ⟨(v.head d).map Head.erase, []⟩) := by
  have hins : (inserts S (v.changes slot)).filter (fun c => c.key = d) =
      (sortedAt S v slot d).filter fun c => decide (c.old.e = 0) := by
    rw [inserts_eq, sortedAt, List.filter_filter, List.filter_filter]
    refine List.filter_congr fun c hc => ?_
    simp [hlive c ((sorted_perm S _).mem_iff.mp hc), Bool.and_comm]
  have hrep : (replaced S (v.changes slot)).filter (fun c => c.key = d) =
      (sortedAt S v slot d).filter fun c => !decide (c.old.e = 0) := by
    have hnil : (sorted S (v.changes slot)).filter
        (fun c => decide (c.old.e = 0) && isDelete c.edge) = [] :=
      List.filter_eq_nil_iff.mpr fun c hc => by
        simp [hlive c ((sorted_perm S _).mem_iff.mp hc)]
    rw [replaced_eq, hnil, List.append_nil, sortedAt, List.filter_filter, List.filter_filter]
    refine List.filter_congr fun c _ => ?_
    simp [Bool.and_comm]
  rw [publishAll_at, hins, hrep]

/-- Weights and records that Transform leaves for a destination. -/
theorem publishAll_outcome {h : Head} (hh : v.head d = some h) (hdel : h.deleted = false)
    (hlt : ∀ c ∈ v.changes slot, c.old.e < 2 ^ 31)
    (hne : ((v.changes slot).filter fun c => c.key = d).Pairwise fun a b => a.old ≠ b.old) :
    let o := outcome h.weight (((v.changes slot).filter fun c => c.key = d).map Change.erase)
    (∃ g, (publishAll S slot v).head d = some g ∧ g.deleted = false ∧ g.weight = o.1) ∧
      ((publishAll S slot v).records.filter fun r => r.1.key = d).map recordAt = o.2 := by
  intro o
  have hstart : Follows ⟨(v.head d).map Head.erase, []⟩ (h.weight, []) :=
    ⟨h.erase, by simp [hh], hdel, rfl, rfl⟩
  have hmem : ∀ c ∈ sortedAt S v slot d, c ∈ v.changes slot := fun c hc => (mem_sortedAt.mp hc).1
  have hfresh := hstart.foldl (f := Local.publishFresh (v.stamp slot))
    ((sortedAt S v slot d).filter fun c => decide (c.old.e = 0)) fun l o c hc hl =>
      hl.publishFresh _ (by simpa using (List.mem_filter.mp hc).2)
  have hfine := hfresh.foldl (f := Local.publishFine (v.stamp slot))
    ((sortedAt S v slot d).filter fun c => !decide (c.old.e = 0)) fun l o c hc hl => by
      obtain ⟨hc, hz⟩ := List.mem_filter.mp hc
      exact hl.publishFine _ (by simpa using hz) (hlt c (hmem c hc)) (hlive c (hmem c hc))
  rw [← publishAll_at_live hlive, ← List.foldl_append, ← List.map_append, sortedAt_split,
    sortedAt_erase hne] at hfine
  obtain ⟨g, hg, hgd, hgw, hrec⟩ := hfine
  obtain ⟨g', hg', rfl⟩ := Option.map_eq_some_iff.mp hg
  exact ⟨⟨g', hg', hgd, hgw⟩, hrec⟩

/-- The last entry of a destination decides its time, unless that entry is a first insertion
with a pending successor. -/
theorem publishAll_time {c : Change} (hc : (sortedAt S v slot d).getLast? = some c)
    (hor : c.old.e ≠ 0 ∨ c.next = 0) {g : Head} (hg : (publishAll S slot v).head d = some g) :
    g.time = ⟨v.stamp slot, c.intra⟩ ∧ g.pending = false := by
  obtain ⟨cs, hcs⟩ : ∃ cs, sortedAt S v slot d = cs ++ [c] :=
    ⟨_, (List.dropLast_append_getLast? c hc).symm⟩
  have hat := congrArg Local.head (publishAll_at_live (S := S) (d := d) hlive)
  change ((publishAll S slot v).head d).map Head.erase = _ at hat
  rw [hg, Option.map_some] at hat
  have hgoal : g.erase.time = ⟨v.stamp slot, c.intra⟩ ∧ g.erase.pending = false := by
    by_cases hz : c.old.e = 0
    · have hall : ∀ x ∈ cs, x.old.e = 0 := by
        have hp : (sortedAt S v slot d).Pairwise fun a b =>
            decide (b.old.e = 0) = true → decide (a.old.e = 0) = true := sortedAt_zero_first
        rw [hcs, List.pairwise_append] at hp
        intro x hx
        simpa using hp.2.2 x hx c (by simp) (by simpa using hz)
      have hnone : (cs ++ [c]).filter (fun c => !decide (c.old.e = 0)) = [] :=
        List.filter_eq_nil_iff.mpr fun x hx => by
          rcases List.mem_append.mp hx with hx | hx
          · simp [hall x hx]
          · simp [List.mem_singleton.mp hx, hz]
      rw [hcs, hnone, List.filter_append, List.filter_cons_of_pos (by simpa using hz),
        List.filter_nil, List.foldl_append] at hat
      obtain ⟨h, -, hh⟩ := Option.map_eq_some_iff.mp hat.symm
      rw [← hh, freshHead, if_neg (not_not.mpr (hor.resolve_left (not_not.mpr hz)))]
      exact ⟨rfl, rfl⟩
    · have hlast : (cs ++ [c]).filter (fun c => !decide (c.old.e = 0)) =
          cs.filter (fun c => !decide (c.old.e = 0)) ++ [c] := by simp [hz]
      rw [hcs, hlast, List.foldl_append] at hat
      obtain ⟨h, -, hh⟩ := Option.map_eq_some_iff.mp hat.symm
      rw [← hh]
      exact ⟨rfl, rfl⟩
  exact hgoal

/-- A single first insertion with a pending successor leaves the time alone. -/
theorem publishAll_kept {c : Change} (hc : sortedAt S v slot d = [c]) (hz : c.old.e = 0)
    (hnext : c.next ≠ 0) {h g : Head} (hh : v.head d = some h)
    (hg : (publishAll S slot v).head d = some g) : g.time = h.time ∧ g.pending = h.pending := by
  have hat := congrArg Local.head (publishAll_at_live (S := S) (d := d) hlive)
  change ((publishAll S slot v).head d).map Head.erase = _ at hat
  rw [hg, hc, hh] at hat
  simp [hz, Local.publishFresh, freshHead, hnext, Head.erase] at hat
  exact ⟨hat.2.1, hat.2.2.1⟩

end NoDeletion

/-- The records name what Transform replaced and when, in its order. -/
theorem publishAll_trace (S : StdSort) (slot : Nat) (v : View) :
    (publishAll S slot v).records.map (fun r => (r.1, r.2.index)) =
      (replaced S (v.changes slot)).map fun c => (⟨c.key, c.old.e, c.old.i⟩, c.intra) := by
  have hfresh : ∀ (cs : List Change) (p : Publication),
      (cs.foldl (View.publishFresh (v.stamp slot)) p).records = p.records := by
    intro cs
    induction cs with
    | nil => intro p; rfl
    | cons c cs ih => intro p; exact ih _
  have hfine : ∀ (cs : List Change) (p : Publication),
      (cs.foldl (View.publishFine (v.stamp slot)) p).records.map (fun r => (r.1, r.2.index)) =
        p.records.map (fun r => (r.1, r.2.index)) ++
          cs.map fun c => (⟨c.key, c.old.e, c.old.i⟩, c.intra) := by
    intro cs
    induction cs with
    | nil => intro p; simp
    | cons c cs ih =>
      intro p
      rw [List.foldl_cons, ih]
      simp [View.publishFine, recordOf]
  rw [publishAll, hfine, hfresh]
  rfl

theorem publishAll_records : (publishAll S slot v).records.map Prod.fst =
    (replaced S (v.changes slot)).map fun c => ⟨c.key, c.old.e, c.old.i⟩ := by
  have htrace := congrArg (List.map Prod.fst) (publishAll_trace S slot v)
  rw [List.map_map, List.map_map] at htrace
  exact htrace

/-- The records in the order of creation, without the final deletions. -/
theorem publishAll_sorted (hlive : ∀ c ∈ v.changes slot, isDelete c.edge = false)
    (hlt : ∀ c ∈ v.changes slot, c.old.e < 2 ^ 31) :
    (∀ r ∈ (publishAll S slot v).records, ∃ c ∈ v.changes slot, c.old.e ≠ 0 ∧
      r.1 = ⟨c.key, c.old.e, c.old.i⟩) ∧
      (publishAll S slot v).records.Pairwise fun a b => a.1.creation ≤ b.1.creation := by
  have hcreation : ∀ c ∈ v.changes slot,
      EdgeWithIndex.creation ⟨c.key, c.old.e, c.old.i⟩ = c.old := fun c hc => by
    simp [EdgeWithIndex.creation, EdgeWithIndex.getCoarseC, clearTmp_of_lt (hlt c hc)]
  have hmem : ∀ c ∈ replaced S (v.changes slot), c ∈ v.changes slot ∧ c.old.e ≠ 0 := fun c hc => by
    obtain ⟨hc, hor⟩ := mem_replaced.mp hc
    exact ⟨hc, hor.resolve_right (by simp [hlive c hc])⟩
  constructor
  · intro r hr
    have hr' := List.mem_map_of_mem (f := Prod.fst) hr
    rw [publishAll_records, List.mem_map] at hr'
    obtain ⟨c, hc, he⟩ := hr'
    exact ⟨c, (hmem c hc).1, (hmem c hc).2, he.symm⟩
  · have hnil : (sorted S (v.changes slot)).filter
        (fun c => decide (c.old.e = 0) && isDelete c.edge) = [] :=
      List.filter_eq_nil_iff.mpr fun c hc => by
        simp [hlive c ((sorted_perm S _).mem_iff.mp hc)]
    have hp : (replaced S (v.changes slot)).Pairwise fun a b => a.old ≤ b.old := by
      rw [replaced_eq, hnil, List.append_nil]
      exact (sorted_pairwise S _).filter _
    have hp' : ((publishAll S slot v).records.map Prod.fst).Pairwise
        fun a b => a.creation ≤ b.creation := by
      rw [publishAll_records, List.pairwise_map]
      refine hp.imp_of_mem fun {a b} ha hb hab => ?_
      rwa [hcreation a (hmem a ha).1, hcreation b (hmem b hb).1]
    rwa [List.pairwise_map] at hp'

theorem publishAll_untouched (hd : ∀ c ∈ v.changes slot, c.key ≠ d) :
    (publishAll S slot v).head d = v.head d := by
  refine publishAll_induction (I := fun p => p.head d = v.head d) rfl ?_ ?_
  · intro p hp c hc _ _
    exact (Function.update_of_ne (Ne.symm (hd c hc)) _ _).trans hp
  · intro p hp c hc _
    exact (Function.update_of_ne (Ne.symm (hd c hc)) _ _).trans hp

/-- A head that stays pending keeps its time and its entry. -/
theorem publishAll_pending {g : Head} (hg : (publishAll S slot v).head d = some g)
    (hp : g.pending = true) : ∃ h, v.head d = some h ∧ h.pending = true ∧ h.time = g.time ∧
      h.index = g.index := by
  refine publishAll_induction (I := fun p => ∀ g, p.head d = some g → g.pending = true →
    ∃ h, v.head d = some h ∧ h.pending = true ∧ h.time = g.time ∧ h.index = g.index)
    (fun g hg hp => ⟨g, hg, hp, rfl, rfl⟩) ?_ ?_ g hg hp
  · intro p hI c _ _ _ g hg hp
    by_cases hd : d = c.key
    · subst hd
      change Function.update p.head c.key _ c.key = _ at hg
      rw [Function.update_self] at hg
      obtain ⟨h, hh, rfl⟩ := Option.map_eq_some_iff.mp hg
      unfold freshHead at hp ⊢
      split_ifs at hp ⊢
      exact hI h hh hp
    · exact hI g ((Function.update_of_ne hd _ _).symm.trans hg) hp
  · intro p hI c _ _ g hg hp
    by_cases hd : d = c.key
    · subst hd
      change Function.update p.head c.key _ c.key = _ at hg
      rw [Function.update_self] at hg
      obtain ⟨h, hh, rfl⟩ := Option.map_eq_some_iff.mp hg
      cases hp
    · exact hI g ((Function.update_of_ne hd _ _).symm.trans hg) hp

/-- Transform brings no edge back. -/
theorem publishAll_deleted {g : Head} (hg : (publishAll S slot v).head d = some g) :
    ∃ g₀, v.head d = some g₀ ∧ g.deleted = g₀.deleted := by
  have hkeep : ((publishAll S slot v).head d).map Head.deleted = (v.head d).map Head.deleted := by
    apply publishAll_induction (I := fun p => (p.head d).map Head.deleted =
      (v.head d).map Head.deleted) rfl
    · intro p hp c _ _ _
      rw [← hp]
      show (Function.update p.head c.key ((p.head c.key).map _) d).map _ = _
      by_cases hd : d = c.key
      · have hsame : ∀ g, (freshHead (v.stamp slot) c g).deleted = g.deleted := by
          intro g
          unfold freshHead
          split_ifs
          · rfl
          · rfl
        rw [hd, Function.update_self, Option.map_map]
        exact congrFun (congrArg Option.map (funext hsame)) _
      · rw [Function.update_of_ne hd]
    · intro p hp c _ _
      rw [← hp]
      show (Function.update p.head c.key ((p.head c.key).map _) d).map _ = _
      by_cases hd : d = c.key
      · rw [hd, Function.update_self, Option.map_map]
        rfl
      · rw [Function.update_of_ne hd]
  rw [hg, Option.map_some] at hkeep
  obtain ⟨g₀, hg₀, hdel⟩ := Option.map_eq_some_iff.mp hkeep.symm
  exact ⟨g₀, hg₀, hdel.symm⟩

end View

end AVBGraph
