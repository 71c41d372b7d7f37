import AVBGraph.Vertex.History
import AVBGraph.Vertex.Times

namespace AVBGraph

open Framework

/-- Creation epoch and intra time in the words of a record. -/
def creationWords (r : Item) : Composite := ⟨r.1.block, r.1.index⟩

namespace VertexEdges

variable {S : StdSort} {s : VertexEdges} {slot epoch vb : Nat}

section Loops

/-- The first loop writes no record. -/
theorem records_publishFresh {b : Build} : ∀ {l : List Nat} {t t' : Progress},
    l.foldlM (publishFresh b slot epoch) t = some t' →
      t'.state.view.changes = t.state.view.changes ∧ t'.records = t.records := by
  intro l
  induction l with
  | nil =>
    intro t t' h
    obtain rfl : t = t' := by simpa using h
    exact ⟨rfl, rfl⟩
  | cons i l ih =>
    intro t t' h
    rw [List.foldlM_cons] at h
    obtain ⟨u, hu, h⟩ := Option.bind_eq_some_iff.mp h
    obtain ⟨hchanges, hrecords⟩ := ih h
    obtain ⟨k, -, rfl⟩ := Option.map_eq_some_iff.mp hu
    constructor
    · rw [hchanges]
      by_cases hnext : (t.state.entry slot i).link.hasNextVB = true
      · simp only [if_pos hnext]
        rw [(view_congr tmpVb_setItem).1, view_changeLast]
      · simp only [if_neg hnext]
        rw [(view_congr tmpVb_setItem).1]
    · exact hrecords

/-- The other loops write a record for each entry, with the creation time of what it replaced. -/
theorem records_publishFine : ∀ {l : List Nat} {t t' : Progress},
    l.foldlM (publishFine slot epoch) t = some t' →
      t'.state.view.changes = t.state.view.changes ∧
        t'.records.map creationWords =
          t.records.map creationWords ++ l.map fun i => (t.state.entry slot i).old := by
  intro l
  induction l with
  | nil =>
    intro t t' h
    obtain rfl : t = t' := by simpa using h
    exact ⟨rfl, by simp⟩
  | cons i l ih =>
    intro t t' h
    rw [List.foldlM_cons] at h
    obtain ⟨u, hu, h⟩ := Option.bind_eq_some_iff.mp h
    obtain ⟨hchanges, hrecords⟩ := ih h
    obtain ⟨k, -, rfl⟩ := Option.map_eq_some_iff.mp hu
    have htmp := view_congr (tmpVb_setItem (s := t.state) (l := k)
      (x := (⟨(t.state.itemE k).e, epoch, (t.state.entry slot i).newIntraC⟩,
        ⟨if isDelete (t.state.entry slot i).edge then 0 else (t.state.entry slot i).weight,
          t.records.length, 0⟩)))
    constructor
    · exact hchanges.trans htmp.1
    · rw [hrecords]
      simp [creationWords, VersionEntry.old, entry]

end Loops

section Order

/-- The index array of Transform is sorted by the times of the replaced versions. -/
theorem transformOrder_pairwise : (transformOrder S (s.tmpVb slot).entries).Pairwise
    fun i j => (s.entry slot i).old ≤ (s.entry slot j).old := by
  apply StdSort.sorted_key S fun i => (s.entry slot i).old
  intro i j
  rw [createdBefore_eq, decide_eq_true_eq]
  rfl

theorem mem_transformOrder {i : Nat} :
    i ∈ transformOrder S (s.tmpVb slot).entries ↔ i < (s.tmpVb slot).entries.length :=
  S.mem

theorem entry_mem {i : Nat} (hi : i < (s.tmpVb slot).entries.length) :
    s.entry slot i ∈ (s.tmpVb slot).entries := by
  rw [entry, List.getD_eq_getElem _ _ hi]
  exact List.getElem_mem hi

theorem exists_entry {x : VersionEntry} (hx : x ∈ (s.tmpVb slot).entries) :
    ∃ i ∈ transformOrder S (s.tmpVb slot).entries, s.entry slot i = x := by
  obtain ⟨i, hi, rfl⟩ := List.getElem_of_mem hx
  exact ⟨i, mem_transformOrder.mpr hi, List.getD_eq_getElem _ _ hi⟩

/-- The entries in the order in which their records are written: overwrites and deletions of
versions with an epoch, then deletions of versions without one. -/
def recordOrder (S : StdSort) (s : VertexEdges) (slot : Nat) : List Nat :=
  ((transformOrder S (s.tmpVb slot).entries).dropWhile fun i => (s.entry slot i).lastEpoch = 0) ++
    ((transformOrder S (s.tmpVb slot).entries).takeWhile fun i =>
      (s.entry slot i).lastEpoch = 0).filter fun i => isDelete (s.entry slot i).edge

/-- Both parts of the record order are sorted, but the versions of the second are older than those
of the first. -/
theorem recordOrder_pairwise_iff : (recordOrder S s slot).Pairwise
      (fun i j => (s.entry slot i).old ≤ (s.entry slot j).old) ↔
    (∀ x ∈ (s.tmpVb slot).entries, x.lastEpoch = 0) ∨
      ∀ x ∈ (s.tmpVb slot).entries, isDelete x.edge = true → x.lastEpoch ≠ 0 := by
  set order := transformOrder S (s.tmpVb slot).entries with horder
  have hsorted : order.Pairwise fun i j => (s.entry slot i).old ≤ (s.entry slot j).old :=
    transformOrder_pairwise
  have hzero : order.Pairwise fun i j =>
      decide ((s.entry slot j).lastEpoch = 0) = true →
        decide ((s.entry slot i).lastEpoch = 0) = true := by
    apply hsorted.imp
    intro i j hij hj
    rw [decide_eq_true_eq] at hj ⊢
    have hle : (s.entry slot i).old.e ≤ (s.entry slot j).old.e := by
      rcases hij with (hlt | ⟨heq, -⟩) | ⟨heq, -⟩
      · exact hlt.le
      · exact heq.le
      · exact heq.le
    exact Nat.le_zero.mp (hle.trans hj.le)
  rw [recordOrder, ← horder, dropWhile_eq_filter hzero, takeWhile_eq_filter hzero,
    List.filter_filter, List.pairwise_append]
  constructor
  · intro ⟨_, _, hcross⟩
    by_contra hno
    rw [not_or] at hno
    obtain ⟨hsome, hdel⟩ := hno
    push Not at hsome hdel
    obtain ⟨x, hx, hxe⟩ := hsome
    obtain ⟨y, hy, hyd, hye⟩ := hdel
    obtain ⟨i, hi, rfl⟩ := exists_entry (S := S) hx
    obtain ⟨j, hj, rfl⟩ := exists_entry (S := S) hy
    have hle := hcross i (List.mem_filter.mpr ⟨hi, by simp [hxe]⟩) j
      (List.mem_filter.mpr ⟨hj, by simp [hyd, hye]⟩)
    have hlt : (s.entry slot j).old < (s.entry slot i).old := by
      left
      show (s.entry slot j).lastEpoch < (s.entry slot i).lastEpoch
      omega
    exact absurd hle (not_le.mpr hlt)
  · intro hor
    refine ⟨hsorted.filter _, hsorted.filter _, ?_⟩
    intro i hi j hj
    obtain ⟨hi, hie⟩ := List.mem_filter.mp hi
    obtain ⟨hj, hje⟩ := List.mem_filter.mp hj
    rw [Bool.not_eq_true', decide_eq_false_iff_not] at hie
    rw [Bool.and_eq_true, decide_eq_true_eq] at hje
    rcases hor with hall | hall
    · exact absurd (hall _ (entry_mem (mem_transformOrder.mp hi))) hie
    · exact absurd hje.2 (hall _ (entry_mem (mem_transformOrder.mp hj)) hje.1)

/-- The creation times of the records that Transform writes. -/
theorem records_publishAll {t : Progress} (h : publishAll .fineGrain S slot vb s = some t) :
    t.records.map creationWords = (recordOrder S s slot).map fun i => (s.entry slot i).old := by
  unfold publishAll at h
  simp only [if_true, Option.bind_eq_bind, Option.bind_eq_some_iff] at h
  obtain ⟨t₁, h₁, t₂, h₂, h⟩ := h
  obtain ⟨hchanges₁, hrecords₁⟩ := records_publishFresh h₁
  obtain ⟨hchanges₂, hrecords₂⟩ := records_publishFine h₂
  obtain ⟨-, hrecords⟩ := records_publishFine h
  have hold : ∀ {u : Progress}, u.state.view.changes = s.view.changes →
      ∀ i, (u.state.entry slot i).old = (s.entry slot i).old := by
    intro u hu i
    have hu' : (u.state.view.changes slot).getD i default = (s.view.changes slot).getD i default := by
      rw [hu]
    rw [view_changes_getD, view_changes_getD] at hu'
    exact congrArg Change.old hu'
  have hold₁ := hold hchanges₁
  have hold₂ := hold (hchanges₂.trans hchanges₁)
  rw [hrecords, hrecords₂, hrecords₁, recordOrder, List.map_append]
  simp only [hold₁, hold₂, List.map_nil, List.nil_append]

/-- The records of the block that Transform pushes are sorted by creation time if and only if the
epoch does not both delete a version without an epoch and replace one that has an epoch. -/
theorem records_sorted_iff {n : Nat} {t : VertexEdges}
    (h : s.transform .fineGrain S slot vb = some (n, t)) (hne : (s.tmpVb slot).entries ≠ []) :
    (∃ block ∈ t.vbm.vbs.head?, block.timestamp = (s.tmpVb slot).timestamp ∧
        block.records.Pairwise fun r q => creationWords r ≤ creationWords q) ↔
      (∀ x ∈ (s.tmpVb slot).entries, x.lastEpoch = 0) ∨
        ∀ x ∈ (s.tmpVb slot).entries, isDelete x.edge = true → x.lastEpoch ≠ 0 := by
  rw [transform, if_neg hne] at h
  obtain ⟨u, hu, h⟩ := Option.map_eq_some_iff.mp h
  obtain ⟨-, rfl⟩ := Prod.mk.inj h
  have hrecords := records_publishAll hu
  have hpairs : (u.records.Pairwise fun r q => creationWords r ≤ creationWords q) ↔
      (recordOrder S s slot).Pairwise
        fun i j => (s.entry slot i).old ≤ (s.entry slot j).old := by
    rw [← List.pairwise_map (f := creationWords) (R := (· ≤ ·)), hrecords, List.pairwise_map]
  rw [← recordOrder_pairwise_iff (S := S), ← hpairs]
  constructor
  · intro ⟨block, hblock, _, hsorted⟩
    obtain rfl := Option.some.inj hblock
    exact hsorted
  · intro hsorted
    exact ⟨_, rfl, rfl, hsorted⟩

end Order

section Loaded

private def loaded : History :=
  ⟨build [1] [7] (fun _ => ⟨0, 0, 0⟩) fun _ => ⟨0, 0, 0⟩, []⟩

private def deleteLoaded (intra : Nat) : Op :=
  .delete History.freshEnv ⟨1, 0, 1, ⟨true, 0, intra, 64⟩,
    Write.one_lt, Nat.one_pos, Write.one_lt_epoch⟩

private def insertThree (intra : Nat) : Op :=
  .insert History.freshEnv ⟨3, 5, 1, ⟨true, 0, intra, 64⟩,
    Write.three_lt, Nat.one_pos, Write.one_lt_epoch⟩

/-- An epoch that deletes the loaded edge and inserts a new one once. -/
theorem records_sorted_loaded : ∃ h n t, exec (History.step .fineGrain .stable) loaded
      [insertThree 1, deleteLoaded 2] = some h ∧
    h.state.transform .fineGrain .stable 1 100 = some (n, t) ∧
    ∃ block ∈ t.vbm.vbs.head?, block.timestamp = (h.state.tmpVb 1).timestamp ∧
      block.records.Pairwise fun r q => creationWords r ≤ creationWords q := by
  obtain ⟨h, hrun, hne, hold, hsome⟩ : ∃ h, exec (History.step .fineGrain .stable) loaded
      [insertThree 1, deleteLoaded 2] = some h ∧ (h.state.tmpVb 1).entries ≠ [] ∧
      (∀ x ∈ (h.state.tmpVb 1).entries, x.lastEpoch = 0) ∧
      (h.state.transform .fineGrain .stable 1 100).isSome = true := by
    apply exists_exec
    decide +kernel
  obtain ⟨⟨n, t⟩, ht⟩ := Option.isSome_iff_exists.mp hsome
  exact ⟨h, n, t, hrun, ht, (records_sorted_iff ht hne).mpr (Or.inl hold)⟩

/-- Epoch 1 inserts an edge, overwrites it and deletes the loaded one: the record of the loaded
version comes after the record of the newer one. -/
theorem records_unsorted_loaded : ∃ h, exec (History.step .fineGrain .stable) loaded
      [insertThree 1, insertThree 2, deleteLoaded 3, .transform 1 100] = some h ∧
    ∃ block ∈ h.state.vbm.vbs.head?, block.timestamp = 1 ∧
      block.records.map creationWords = [⟨1, 1⟩, ⟨0, 0⟩] ∧
      ¬block.records.Pairwise fun r q => creationWords r ≤ creationWords q := by
  apply exists_exec
  decide +kernel

end Loaded

end VertexEdges

end AVBGraph
