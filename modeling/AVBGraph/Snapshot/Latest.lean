import AVBGraph.Snapshot.Versions

namespace AVBGraph

open Framework

/-- The contributions of the epochs from a bound down to 1. -/
def downFrom {β : Type*} (g : Nat → List β) : Nat → List β
  | 0 => []
  | p + 1 => g (p + 1) ++ downFrom g p

theorem downFrom_gap {β : Type*} {g : Nat → List β} {p q : Nat} (hpq : p ≤ q)
    (h : ∀ r, p < r → r ≤ q → g r = []) : downFrom g q = downFrom g p := by
  induction q, hpq using Nat.le_induction with
  | base => rfl
  | succ q hpq ih =>
    rw [downFrom, h (q + 1) (by omega) le_rfl, List.nil_append]
    exact ih fun r hr hle => h r hr (by omega)

/-- A walk down the chain meets every epoch that contributes. -/
theorem Linked.flatMap_eq {β : Type*} {e : Nat} {vbs : List VersionBlock} (h : Linked e vbs)
    {g : Nat → List β}
    (hg : ∀ q, 0 < q → q ≤ e → (∀ vb ∈ vbs, vb.timestamp ≠ q) → g q = []) :
    vbs.flatMap (fun vb => g vb.timestamp) = downFrom g e := by
  induction vbs generalizing e with
  | nil =>
    obtain rfl : e = 0 := h
    rfl
  | cons vb rest ih =>
    obtain ⟨rfl, hlt, hrest⟩ := h
    have hle := hrest.le
    obtain ⟨f, hf⟩ : ∃ f, vb.timestamp = f + 1 := ⟨vb.timestamp - 1, by omega⟩
    have hgap : downFrom g f = downFrom g vb.lastEpoch := by
      refine downFrom_gap (by omega) fun r hr hrf => hg r (by omega) (by omega) fun w hw => ?_
      rcases List.mem_cons.mp hw with rfl | hw
      · omega
      · have := hle w hw
        omega
    rw [List.flatMap_cons, ih hrest, hf, downFrom, hgap]
    intro q h0 hq hno
    refine hg q h0 (by omega) fun w hw => ?_
    rcases List.mem_cons.mp hw with rfl | hw
    · omega
    · exact hno w hw

/-- The newest version of a list up to an epoch. -/
def latest (xs : List Version) (d epoch : Nat) : Option Version :=
  (xs.filter fun x => x.dst = d ∧ x.time.e ≤ epoch).getLast?

/-- The weights that the block of an epoch shows a reader of the epoch `e` before it. -/
def shown (xs : List Version) (d : Nat) (base : Composite × Nat) (e epoch : Nat) : List Nat :=
  ((outcome (published xs d base (epoch - 1)).2 (changesOf xs d epoch)).2.filter
    fun r => r.created.e ≤ e).map Record.weight

/-- The versions of a destination that had none before, each later than the one it replaced. -/
structure Rising (xs : List Version) (d : Nat) : Prop where
  chain : ∃ n, (xs.filter fun x => x.dst = d).map Version.old ++ [n] =
    ⟨0, 0⟩ :: (xs.filter fun x => x.dst = d).map Version.time
  later : ∀ x ∈ xs, x.dst = d → 0 < x.time.e
  increasing : ((xs.filter fun x => x.dst = d).map Version.time).Pairwise (· < ·)

section

variable {xs : List Version} {d : Nat}

theorem filter_and (xs : List Version) (d : Nat) (p : Version → Prop) [DecidablePred p] :
    (xs.filter fun x => x.dst = d ∧ p x) = (xs.filter fun x => x.dst = d).filter fun x => p x := by
  rw [List.filter_filter]
  exact List.filter_congr fun x _ => by simp [Bool.and_comm]

namespace Rising

theorem times (h : Rising xs d) :
    (⟨0, 0⟩ :: (xs.filter fun x => x.dst = d).map Version.time).Pairwise (· < ·) := by
  refine List.pairwise_cons.mpr ⟨fun t ht => ?_, h.increasing⟩
  obtain ⟨x, hx, rfl⟩ := List.mem_map.mp ht
  obtain ⟨hx, hd⟩ := List.mem_filter.mp hx
  exact Or.inl (h.later x hx (of_decide_eq_true hd))

theorem epochs (h : Rising xs d) :
    (xs.filter fun x => x.dst = d).Pairwise fun x y => x.time.e ≤ y.time.e := by
  have hinc := h.increasing
  rw [List.pairwise_map] at hinc
  refine hinc.imp fun {x y} hxy => ?_
  rcases hxy with hlt | heq
  · exact hlt.le
  · exact heq.1.le

/-- Entries are sorted as they were written. -/
theorem sorted_changesOf (h : Rising xs d) (epoch : Nat) :
    View.sorted .stable (changesOf xs d epoch) = changesOf xs d epoch := by
  refine eq_of_perm_of_increasing (View.sorted_perm _ _) (View.sorted_pairwise _ _) ?_
  obtain ⟨n, hchain⟩ := h.chain
  have hp := h.times
  rw [← hchain] at hp
  have holds := hp.sublist (List.sublist_append_left _ _)
  unfold changesOf
  rw [List.pairwise_map, filter_and]
  rw [List.pairwise_map] at holds
  exact holds.sublist List.filter_sublist

/-- The versions up to an epoch, those of the next one, and the rest. -/
theorem split (h : Rising xs d) (p : Nat) : (xs.filter fun x => x.dst = d) =
    (xs.filter fun x => x.dst = d ∧ x.time.e ≤ p) ++
      (xs.filter fun x => x.dst = d ∧ p < x.time.e) := by
  have hdown : (xs.filter fun x => x.dst = d).Pairwise fun x y =>
      decide (y.time.e ≤ p) = true → decide (x.time.e ≤ p) = true :=
    h.epochs.imp fun {x y} hxy => by
      simp only [decide_eq_true_eq]
      omega
  rw [filter_and, filter_and, ← takeWhile_eq_filter hdown]
  conv_lhs => rw [← List.takeWhile_append_dropWhile (p := fun x => decide (x.time.e ≤ p))
    (l := xs.filter fun x => x.dst = d)]
  rw [dropWhile_eq_filter hdown]
  refine congrArg _ (List.filter_congr fun x _ => ?_)
  rw [← decide_not]
  exact decide_eq_decide.mpr not_le

theorem split_next (h : Rising xs d) (p : Nat) :
    (xs.filter fun x => x.dst = d ∧ x.time.e ≤ p + 1) =
      (xs.filter fun x => x.dst = d ∧ x.time.e ≤ p) ++
        (xs.filter fun x => x.dst = d ∧ x.time.e = p + 1) := by
  have hs := congrArg (List.filter fun x => x.time.e ≤ p + 1) (h.split p)
  rw [← filter_and, List.filter_append, List.filter_filter, List.filter_filter] at hs
  rw [hs]
  congr 1
  · refine List.filter_congr fun x _ => ?_
    rw [Bool.eq_iff_iff]
    simp only [Bool.and_eq_true, decide_eq_true_eq]
    omega
  · refine List.filter_congr fun x _ => ?_
    rw [Bool.eq_iff_iff]
    simp only [Bool.and_eq_true, decide_eq_true_eq]
    omega

/-- The published version is the latest one. -/
theorem published_eq (h : Rising xs d) (base : Composite × Nat) (p : Nat) :
    published xs d base p = (latest xs d p).elim base fun x => (x.time, x.weight) := by
  induction p with
  | zero =>
    have hnil : (xs.filter fun x => x.dst = d ∧ x.time.e ≤ 0) = [] :=
      List.filter_eq_nil_iff.mpr fun x hx => by
        simp only [decide_eq_true_eq, not_and]
        intro hd
        have := h.later x hx hd
        omega
    rw [latest, hnil]
    rfl
  | succ p ih =>
    rw [published, h.sorted_changesOf, latest, h.split_next, List.getLast?_append, changesOf,
      List.getLast?_map]
    cases hl : (xs.filter fun x => x.dst = d ∧ x.time.e = p + 1).getLast? with
    | none => exact ih
    | some x =>
      have hx := (List.mem_filter.mp (List.mem_of_getLast? hl)).2
      have he : x.time.e = p + 1 := (of_decide_eq_true hx).2
      simp only [Option.map_some, Option.some_or, Option.elim_some, Version.change, ← he]

theorem latest_mem {p : Nat} {x : Version} (hx : latest xs d p = some x) :
    x ∈ xs ∧ x.dst = d ∧ x.time.e ≤ p := by
  obtain ⟨h1, h2⟩ := List.mem_filter.mp (List.mem_of_getLast? hx)
  exact ⟨h1, of_decide_eq_true h2⟩

theorem latest_none {p : Nat} : latest xs d p = none ↔ ∀ x ∈ xs, x.dst = d → p < x.time.e := by
  simp [latest]

private theorem foldl_publishStep_records (o : Nat × List Record) (cs : List Change) :
    ∃ rs, (cs.foldl publishStep o).2 = o.2 ++ rs ∧
      ∀ r ∈ rs, ∃ c ∈ cs, r.created = c.old ∧ r.invalidated = c.intra := by
  induction cs generalizing o with
  | nil => exact ⟨[], by simp, by simp⟩
  | cons c cs ih =>
    obtain ⟨rs, heq, hall⟩ := ih (publishStep o c)
    by_cases hz : c.old.e = 0
    · refine ⟨rs, ?_, fun r hr => ?_⟩
      · rw [List.foldl_cons, heq, publishStep, if_pos hz]
      · obtain ⟨c', hc', he⟩ := hall r hr
        exact ⟨c', by simp [hc'], he⟩
    · refine ⟨⟨c.key, c.old, c.intra, o.1⟩ :: rs, ?_, fun r hr => ?_⟩
      · rw [List.foldl_cons, heq, publishStep, if_neg hz]
        simp
      · rcases List.mem_cons.mp hr with rfl | hr
        · exact ⟨c, by simp, rfl, rfl⟩
        · obtain ⟨c', hc', he⟩ := hall r hr
          exact ⟨c', by simp [hc'], he⟩

/-- The records of an outcome end when the entries of the destination were written. -/
theorem mem_outcome {weight : Nat} {cs : List Change} {r : Record} (hr : r ∈ (outcome weight cs).2) :
    ∃ c ∈ cs, r.created = c.old ∧ r.invalidated = c.intra := by
  obtain ⟨rs, heq, hall⟩ := foldl_publishStep_records (weight, []) (View.sorted .stable cs)
  rw [outcome, heq, List.nil_append] at hr
  obtain ⟨c, hc, he⟩ := hall r hr
  exact ⟨c, (View.sorted_perm .stable cs).mem_iff.mp hc, he⟩

/-- A block shows an older reader the version that its epoch replaced first. -/
theorem shown_eq (h : Rising xs d) (base : Composite × Nat) {e p : Nat} (hle : e ≤ p) :
    shown xs d base e (p + 1) = if changesOf xs d (p + 1) = [] then [] else
      ((latest xs d p).filter fun x => x.time.e ≤ e).toList.map Version.weight := by
  rw [shown, Nat.add_sub_cancel, outcome, h.sorted_changesOf, h.published_eq]
  cases hB : xs.filter fun x => x.dst = d ∧ x.time.e = p + 1 with
  | nil =>
    rw [changesOf, hB]
    simp
  | cons x rest =>
    have hcs : changesOf xs d (p + 1) = x.change :: rest.map Version.change := by
      rw [changesOf, hB, List.map_cons]
    rw [hcs, if_neg (by simp), List.foldl_cons]
    have hmem : ∀ y ∈ x :: rest, y ∈ xs ∧ y.dst = d ∧ y.time.e = p + 1 := by
      intro y hy
      rw [← hB] at hy
      obtain ⟨h1, h2⟩ := List.mem_filter.mp hy
      exact ⟨h1, of_decide_eq_true h2⟩
    -- cut the chain in front of the epoch and behind it
    obtain ⟨n, hchain⟩ := h.chain
    have hsplit := h.split (p + 1)
    rw [h.split_next, hB] at hsplit
    rw [hsplit] at hchain
    obtain ⟨m', hchain', -⟩ := chain_append hchain
    obtain ⟨m, hA, hxs⟩ := chain_append hchain'
    obtain ⟨hxold, hrest, -⟩ := chain_cons hxs
    obtain ⟨rs, heq, hrs⟩ := foldl_publishStep_records
      (publishStep (((latest xs d p).elim base fun x => (x.time, x.weight)).2, []) x.change)
      (rest.map Version.change)
    have hfilter : rs.filter (fun r => decide (r.created.e ≤ e)) = [] :=
      List.filter_eq_nil_iff.mpr fun r hr => by
        obtain ⟨c, hc, he, -⟩ := hrs r hr
        obtain ⟨y, hy, rfl⟩ := List.mem_map.mp hc
        obtain ⟨z, hz, hyz⟩ := hrest y hy
        have := (hmem z hz).2.2
        have hold : y.change.old = y.old := rfl
        rw [decide_eq_true_eq, he, hold, hyz]
        omega
    rw [heq, List.filter_append, hfilter, List.append_nil]
    have hold : x.change.old = m := hxold
    cases hl : latest xs d p with
    | none =>
      have hnil : (xs.filter fun x => x.dst = d ∧ x.time.e ≤ p) = [] := List.getLast?_eq_none_iff.mp hl
      rw [hnil] at hA
      have hm : m = ⟨0, 0⟩ := by simpa using hA
      rw [publishStep, hold, hm]
      rfl
    | some y =>
      obtain ⟨ys, hys⟩ : ∃ ys, (xs.filter fun x => x.dst = d ∧ x.time.e ≤ p) = ys ++ [y] :=
        ⟨_, (List.dropLast_append_getLast? y hl).symm⟩
      rw [hys, List.map_append (f := Version.time), List.map_singleton, ← List.cons_append] at hA
      have hm : m = y.time := (List.cons.inj (List.append_inj' hA rfl).2).1
      obtain ⟨hy, hyd, -⟩ := latest_mem hl
      have hpos := h.later y hy hyd
      rw [publishStep, hold, hm, if_neg (by omega)]
      by_cases hye : y.time.e ≤ e
      · simp [hye, Option.filter]
      · simp [hye, Option.filter]

theorem latest_next (h : Rising xs d) {p : Nat} (hnil : changesOf xs d (p + 1) = []) :
    latest xs d (p + 1) = latest xs d p := by
  have : (xs.filter fun x => x.dst = d ∧ x.time.e = p + 1) = [] := List.map_eq_nil_iff.mp hnil
  rw [latest, latest, h.split_next, this, List.append_nil]

/-- What the head shows a reader of epoch `e`, and what the blocks above show it, is the latest
version of that epoch, whatever was published since. -/
theorem head_shown (h : Rising xs d) (base : Composite × Nat) {e p : Nat} (hle : e ≤ p) :
    ((latest xs d p).filter fun x => x.time.e ≤ e).toList.map Version.weight ++
      downFrom (fun q => if q ≤ e then [] else shown xs d base e q) p =
    (latest xs d e).toList.map Version.weight := by
  induction p, hle using Nat.le_induction with
  | base =>
    have hnil : ∀ q ≤ e, downFrom (fun q => if q ≤ e then [] else shown xs d base e q) q = [] := by
      intro q hq
      induction q with
      | zero => rfl
      | succ q ih => rw [downFrom, if_pos hq, ih (by omega), List.append_nil]
    rw [hnil e le_rfl, List.append_nil]
    cases hl : latest xs d e with
    | none => rfl
    | some x => simp [Option.filter, (latest_mem hl).2.2]
  | succ p hle ih =>
    rw [downFrom, if_neg (by omega), h.shown_eq base hle]
    by_cases hnil : changesOf xs d (p + 1) = []
    · rw [if_pos hnil, h.latest_next hnil, List.nil_append]
      exact ih
    · rw [if_neg hnil]
      have hlast : (latest xs d (p + 1)).filter (fun x => x.time.e ≤ e) = none := by
        rw [latest, h.split_next, List.getLast?_append]
        cases hl : (xs.filter fun x => x.dst = d ∧ x.time.e = p + 1).getLast? with
        | none =>
          rw [List.getLast?_eq_none_iff] at hl
          rw [changesOf, hl] at hnil
          exact absurd rfl hnil
        | some x =>
          have hx := (List.mem_filter.mp (List.mem_of_getLast? hl)).2
          have he : x.time.e = p + 1 := (of_decide_eq_true hx).2
          simp [Option.filter, he]
          omega
      rw [hlast]
      exact ih

end Rising

end

end AVBGraph
