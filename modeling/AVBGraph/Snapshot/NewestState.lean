import AVBGraph.Snapshot.Pending
import AVBGraph.Vertex.Trace

namespace AVBGraph

open Framework

namespace View

variable {S : StdSort} {v : View} {slot d : Nat} {c : Change}

/-- The newest of these entries of one edge is the last one that Transform treats: it replaced a
younger version than the others, none of these deletes a version of epoch 0, and if it created the
first version, no later write is linked to it. -/
def Settles (cs : List Change) : Prop :=
  ∀ c ∈ cs.getLast?,
    (∀ x ∈ cs.dropLast, x.old < c.old ∧ (x.old.e = 0 → isDelete x.edge = false)) ∧
      (c.old.e = 0 → isDelete c.edge = true ∨ c.next = 0)

instance (cs : List Change) : Decidable (Settles cs) := by
  unfold Settles
  infer_instance

section Order

theorem getLast?_of_sorted {l : List Change} (hsorted : l.Pairwise fun a b => a.old ≤ b.old)
    (hc : c ∈ l) (hmax : ∀ x ∈ l, x = c ∨ x.old < c.old) : l.getLast? = some c := by
  induction l with
  | nil => cases hc
  | cons x l ih =>
    rw [List.pairwise_cons] at hsorted
    have hrest : ∀ y ∈ l, y = c ∨ y.old < c.old := fun y hy => hmax y (List.mem_cons_of_mem x hy)
    cases l with
    | nil =>
      rw [List.mem_singleton.mp hc]
      rfl
    | cons y l =>
      rw [List.getLast?_cons_cons]
      apply ih hsorted.2 _ hrest
      rcases List.mem_cons.mp hc with rfl | hc
      · have hle := hsorted.1 y List.mem_cons_self
        rcases hrest y List.mem_cons_self with heq | hlt
        · rw [← heq]
          exact List.mem_cons_self
        · exact absurd hlt (not_lt.mpr hle)
      · exact hc

theorem inserts_at (S : StdSort) (v : View) (slot d : Nat) :
    (inserts S (v.changes slot)).filter (fun c => c.key = d) =
      (sortedAt S v slot d).filter fun c => decide (c.old.e = 0) && !isDelete c.edge := by
  rw [inserts_eq, sortedAt, List.filter_comm]

theorem replaced_at (S : StdSort) (v : View) (slot d : Nat) :
    (replaced S (v.changes slot)).filter (fun c => c.key = d) =
      (sortedAt S v slot d).filter (fun c => decide (c.old.e ≠ 0)) ++
        (sortedAt S v slot d).filter fun c => decide (c.old.e = 0) && isDelete c.edge := by
  rw [replaced_eq, sortedAt, List.filter_append]
  congr 1
  · rw [List.filter_comm]
  · rw [List.filter_comm]

end Order

section Settled

/-- Transform keeps the DELETION bit of an item. -/
theorem foldl_publishFresh_deleted (epoch : Nat) (cs : List Change) (l : Local) :
    (cs.foldl (Local.publishFresh epoch) l).head.map Head.deleted = l.head.map Head.deleted := by
  induction cs generalizing l with
  | nil => rfl
  | cons c cs ih =>
    rw [List.foldl_cons, ih]
    cases hl : l.head with
    | none => simp [Local.publishFresh, hl]
    | some g =>
      simp only [Local.publishFresh, hl, Option.map_some, freshHead]
      split_ifs <;> rfl

theorem foldl_publishFine_deleted (epoch : Nat) (cs : List Change) (l : Local) :
    (cs.foldl (Local.publishFine epoch) l).head.map Head.deleted = l.head.map Head.deleted := by
  induction cs generalizing l with
  | nil => rfl
  | cons c cs ih =>
    rw [List.foldl_cons, ih]
    cases hl : l.head with
    | none => simp [Local.publishFine, hl]
    | some g => simp [Local.publishFine, hl, replacedHead]

/-- The entries that Transform treats last. -/
theorem treated_last (hlast : ((v.changes slot).filter fun x => x.key = d).getLast? = some c)
    (hs : Settles ((v.changes slot).filter fun x => x.key = d)) :
    (∃ cs, (replaced S (v.changes slot)).filter (fun x => x.key = d) = cs ++ [c]) ∨
      isDelete c.edge = false ∧ c.next = 0 ∧
        (replaced S (v.changes slot)).filter (fun x => x.key = d) = [] ∧
        ∃ cs, (inserts S (v.changes slot)).filter (fun x => x.key = d) = cs ++ [c] := by
  obtain ⟨hmax, hfresh⟩ := hs c hlast
  have hentries := List.dropLast_append_getLast? c hlast
  have hsorted : (sortedAt S v slot d).Pairwise fun a b => a.old ≤ b.old := sortedAt_pairwise
  have hmem : ∀ x, x ∈ sortedAt S v slot d ↔ x ∈ (v.changes slot).filter fun x => x.key = d :=
    fun x => sortedAt_perm.mem_iff
  have hcmem : c ∈ sortedAt S v slot d := (hmem c).mpr (List.mem_of_getLast? hlast)
  have hother : ∀ x ∈ sortedAt S v slot d, x = c ∨
      x.old < c.old ∧ (x.old.e = 0 → isDelete x.edge = false) := by
    intro x hx
    rw [hmem, ← hentries] at hx
    rcases List.mem_append.mp hx with hx | hx
    · exact Or.inr (hmax x hx)
    · exact Or.inl (List.mem_singleton.mp hx)
  have hends : ∀ p : Change → Bool, p c = true →
      ∃ cs, (sortedAt S v slot d).filter p = cs ++ [c] := by
    intro p hp
    refine ⟨_, (List.dropLast_append_getLast? c (getLast?_of_sorted (hsorted.filter p)
      (List.mem_filter.mpr ⟨hcmem, hp⟩) ?_)).symm⟩
    intro x hx
    exact (hother x (List.mem_filter.mp hx).1).imp_right And.left
  have hnone : c.old.e = 0 → (sortedAt S v slot d).filter (fun x => decide (x.old.e ≠ 0)) = [] := by
    intro hz
    apply List.filter_eq_nil_iff.mpr
    intro x hx
    rcases hother x hx with rfl | ⟨hlt, -⟩
    · simp [hz]
    · rw [Composite.lt_def] at hlt
      have : x.old.e = 0 := by omega
      simp [this]
  rw [replaced_at, inserts_at]
  by_cases hz : c.old.e = 0
  · rw [hnone hz, List.nil_append]
    cases hdel : isDelete c.edge with
    | true =>
      left
      exact hends _ (by simp [hz, hdel])
    | false =>
      right
      refine ⟨rfl, (hfresh hz).resolve_left (by simp [hdel]), ?_, hends _ (by simp [hz, hdel])⟩
      apply List.filter_eq_nil_iff.mpr
      intro x hx
      rcases hother x hx with rfl | ⟨-, hlive⟩
      · simp [hdel]
      · by_cases hx0 : x.old.e = 0
        · simp [hlive hx0]
        · simp [hx0]
  · left
    have hthird : (sortedAt S v slot d).filter
        (fun x => decide (x.old.e = 0) && isDelete x.edge) = [] := by
      apply List.filter_eq_nil_iff.mpr
      intro x hx
      rcases hother x hx with rfl | ⟨-, hlive⟩
      · simp [hz]
      · by_cases hx0 : x.old.e = 0
        · simp [hlive hx0]
        · simp [hx0]
    rw [hthird, List.append_nil]
    exact hends _ (by simp [hz])

/-- Transform leaves the version of the newest entry. -/
theorem publishAll_settles {g : Head} (hg : v.head d = some g)
    (hlast : ((v.changes slot).filter fun x => x.key = d).getLast? = some c)
    (hs : Settles ((v.changes slot).filter fun x => x.key = d)) :
    ∃ g', (publishAll S slot v).head d = some g' ∧ g'.deleted = g.deleted ∧
      g'.time = ⟨v.stamp slot, c.intra⟩ ∧ g'.pending = false ∧
      g'.weight = if isDelete c.edge then 0 else c.weight := by
  have hat := congrArg Local.head (publishAll_at S slot d v)
  change ((publishAll S slot v).head d).map Head.erase = _ at hat
  have hexists : ∃ e, ((publishAll S slot v).head d).map Head.erase = some e ∧
      e.deleted = g.deleted ∧ e.time = ⟨v.stamp slot, c.intra⟩ ∧ e.pending = false ∧
      e.weight = if isDelete c.edge then 0 else c.weight := by
    have hdeleted := congrArg (Option.map Head.deleted) hat
    rw [foldl_publishFine_deleted, foldl_publishFresh_deleted, hg] at hdeleted
    obtain ⟨e, he, hed⟩ := Option.map_eq_some_iff.mp hdeleted
    refine ⟨e, he, hed, ?_⟩
    rw [hat] at he
    rcases treated_last (S := S) hlast hs with ⟨cs, hcs⟩ | ⟨hlive, hnext, hnil, cs, hcs⟩
    · rw [hcs, List.foldl_append] at he
      obtain ⟨x, -, rfl⟩ := Option.map_eq_some_iff.mp he
      exact ⟨rfl, rfl, rfl⟩
    · rw [hnil, hcs, List.foldl_append] at he
      obtain ⟨x, -, rfl⟩ := Option.map_eq_some_iff.mp he
      rw [freshHead, if_neg (not_not.mpr hnext), hlive]
      exact ⟨rfl, rfl, rfl⟩
  obtain ⟨e, he, hprops⟩ := hexists
  obtain ⟨g', hg', rfl⟩ := Option.map_eq_some_iff.mp he
  exact ⟨g', hg', hprops⟩

end Settled

end View

/-- The head of an edge shows an operation on it, when no epoch is pending. A merge may drop an
edge that was deleted. -/
def Applied.ShownBy (o : Applied) : Option Head → Prop
  | none => o.delete = true
  | some g => g.deleted = o.delete ∧ g.time = o.write.time ∧ g.pending = false ∧
      (o.delete = false → g.weight = o.write.weight)

/-- Entries and heads show the last operation on every edge: its entry is the newest one if it is
pending. -/
structure View.Reflects (log : List Applied) (v : View) : Prop where
  slot : ∀ k, v.changes k ≠ [] → v.stamp k % 16 = k
  pending : ∀ k d c, ((v.changes k).filter fun x => x.key = d).getLast? = some c →
    ∃ o g, Trace.last log d = some o ∧ v.head d = some g ∧ g.pending = true ∧
      g.deleted = o.delete ∧ v.stamp k = o.write.epoch ∧ c.intra = o.write.txn.intra ∧
      c.weight = o.write.weight ∧ isDelete c.edge = o.delete
  published : ∀ d o, (∀ k, ∀ c ∈ v.changes k, c.key ≠ d) → Trace.last log d = some o →
    o.ShownBy (v.head d)

namespace View.Reflects

variable {S : StdSort} {log : List Applied} {v : View} {w : Write}

theorem start (h : ∀ k, v.changes k = []) : Reflects [] v where
  slot k hk := absurd (h k) hk
  pending k d c hc := by
    rw [h] at hc
    cases hc
  published d o _ ho := by cases ho

theorem buffered (h : Reflects log v) : v.Buffered := by
  intro k c hc
  have hne : (v.changes k).filter (fun x => x.key = c.key) ≠ [] := by
    apply List.ne_nil_of_mem
    exact List.mem_filter.mpr ⟨hc, by simp⟩
  obtain ⟨-, g, -, hg, hp, -⟩ := h.pending k c.key _ (List.getLast?_eq_some_getLast hne)
  exact ⟨g, hg, hp⟩

/-- A merge may drop published deletions. -/
theorem merge (h : Reflects log v) {u : View} (hstamp : u.stamp = v.stamp)
    (hchanges : u.changes = v.changes) (hhead : ∀ d, u.head d = v.head d ∨
      u.head d = none ∧ ∃ g, v.head d = some g ∧ g.deleted = true ∧ g.pending = false) :
    Reflects log u := by
  refine ⟨?_, ?_, ?_⟩
  · rw [hchanges, hstamp]
    exact h.slot
  · intro k d c hc
    rw [hchanges] at hc
    rw [hstamp]
    obtain ⟨o, g, ho, hg, hp, hrest⟩ := h.pending k d c hc
    refine ⟨o, g, ho, ?_, hp, hrest⟩
    rcases hhead d with heq | ⟨-, g', hg', -, hp'⟩
    · rw [heq, hg]
    · rw [hg] at hg'
      rw [Option.some.inj hg', hp'] at hp
      cases hp
  · intro d o hnone ho
    rw [hchanges] at hnone
    have hshown := h.published d o hnone ho
    rcases hhead d with heq | ⟨hd, g, hg, hdel, -⟩
    · rw [heq]
      exact hshown
    · rw [hg] at hshown
      rw [hd]
      exact hshown.1.symm.trans hdel

/-- All pending entries belong to one epoch. -/
def Within (v : View) (epoch : Nat) : Prop :=
  ∀ k, v.changes k ≠ [] → k = epoch % 16 ∧ v.stamp k = epoch

theorem openTvb (h : Reflects log v) {epoch : Nat} (hin : Within v epoch) :
    Reflects log (v.openTvb epoch) ∧ Within (v.openTvb epoch) epoch := by
  have hfree : v.changes (epoch % 16) = [] ∨ v.stamp (epoch % 16) = epoch := by
    by_cases hnil : v.changes (epoch % 16) = []
    · exact Or.inl hnil
    · exact Or.inr (hin _ hnil).2
  have hchanges := changes_openTvb_of_free hfree
  have hstamp : ∀ k, v.changes k ≠ [] → (v.openTvb epoch).stamp k = v.stamp k :=
    fun _ hk => stamp_openTvb_of_free hfree hk
  refine ⟨⟨?_, ?_, ?_⟩, ?_⟩
  · intro k hk
    rw [hchanges] at hk
    rw [hstamp k hk]
    exact h.slot k hk
  · intro k d c hc
    rw [hchanges] at hc
    have hk : v.changes k ≠ [] := by
      intro hnil
      rw [hnil] at hc
      cases hc
    rw [hstamp k hk, head_openTvb]
    exact h.pending k d c hc
  · rw [hchanges, head_openTvb]
    exact h.published
  · intro k hk
    rw [hchanges] at hk
    exact ⟨(hin k hk).1, (hstamp k hk).trans (hin k hk).2⟩

/-- The entries of an edge after a write. -/
theorem filter_addVersion {delete pending : Bool} {last : Composite} {lastIndex weight : Nat}
    (k d : Nat) :
    (((v.addVersion delete pending last lastIndex weight w).changes k).filter
      fun x => x.key = d).map Change.erase =
    ((v.changes k).filter fun x => x.key = d).map Change.erase ++
      if k = w.epoch % 16 ∧ d = w.dst then [newChange delete last w] else [] := by
  have hfilter : ∀ cs : List Change, (cs.filter fun x => x.key = d).map Change.erase =
      (cs.map Change.erase).filter fun x => x.key = d := by
    intro cs
    rw [List.filter_map]
    rfl
  rw [hfilter, hfilter, addVersion_erase, List.filter_append]
  congr 1
  by_cases hk : k = w.epoch % 16
  · by_cases hd : d = w.dst
    · simp [hk, hd, key_newChange]
    · simp [hk, hd, key_newChange, Ne.symm hd]
  · simp [hk]

theorem write (h : Reflects log v) (hin : Within v w.epoch)
    (hstamp : v.stamp (w.epoch % 16) = w.epoch) (delete pending : Bool) (last : Composite)
    (lastIndex weight : Nat) : Reflects (log ++ [⟨delete, w⟩])
      (v.addVersion delete pending last lastIndex weight w) := by
  set u := v.addVersion delete pending last lastIndex weight w with hu
  have hstamps : u.stamp = v.stamp := stamp_addVersion
  have hheads : u.head = Function.update v.head w.dst (some ⟨delete, w.time, true, weight,
      if delete then 0 else (v.changes (w.epoch % 16)).length⟩) := head_addVersion
  have hentries : ∀ k d, ((u.changes k).filter fun x => x.key = d).map Change.erase =
      ((v.changes k).filter fun x => x.key = d).map Change.erase ++
        if k = w.epoch % 16 ∧ d = w.dst then [newChange delete last w] else [] :=
    filter_addVersion
  refine ⟨?_, ?_, ?_⟩
  · intro k hk
    rw [hstamps]
    by_cases hslot : k = w.epoch % 16
    · rw [hslot, hstamp]
    · apply h.slot
      intro hnil
      apply hk
      have hmap : (u.changes k).map Change.erase = (v.changes k).map Change.erase ++
          if k = w.epoch % 16 then [newChange delete last w] else [] := addVersion_erase k
      rw [hnil, if_neg hslot] at hmap
      exact List.map_eq_nil_iff.mp hmap
  · intro k d c hc
    rw [Trace.last_concat, hheads, hstamps]
    have hmap := congrArg List.getLast? (hentries k d)
    rw [List.getLast?_map, hc, Option.map_some] at hmap
    by_cases hnew : k = w.epoch % 16 ∧ d = w.dst
    · obtain ⟨rfl, rfl⟩ := hnew
      rw [if_pos ⟨rfl, rfl⟩, List.getLast?_append, List.getLast?_singleton, Option.some_or] at hmap
      obtain ⟨hedge, hweight, -, hintra⟩ := Change.erase_eq_erase.mp
        (Option.some.inj hmap : c.erase = (newChange delete last w).erase)
      refine ⟨⟨delete, w⟩, _, by rw [if_pos rfl], Function.update_self .., rfl, rfl, hstamp,
        hintra, hweight, ?_⟩
      rw [hedge]
      cases delete with
      | false => exact isDelete_of_lt w.dst_lt
      | true => exact isDelete_setDelete w.dst
    · rw [if_neg hnew, List.append_nil, List.getLast?_map] at hmap
      obtain ⟨c', hc', herase⟩ := Option.map_eq_some_iff.mp hmap.symm
      obtain ⟨hedge, hweight, -, hintra⟩ := Change.erase_eq_erase.mp herase
      have hk : k = w.epoch % 16 := by
        apply (hin k _).1
        intro hnil
        rw [hnil] at hc'
        cases hc'
      have hd : d ≠ w.dst := fun hd => hnew ⟨hk, hd⟩
      rw [if_neg (Ne.symm hd), Function.update_of_ne hd, ← hedge, ← hweight, ← hintra]
      exact h.pending k d c' hc'
  · intro d o hnone ho
    have hkeep : ∀ k, ∀ c ∈ v.changes k, c.key ≠ d := by
      intro k c hc
      obtain ⟨i, hi⟩ := List.getElem?_of_mem hc
      obtain ⟨c', hc', herase⟩ : ∃ c', (u.changes k)[i]? = some c' ∧ c'.erase = c.erase :=
        getElem?_addVersion hi
      have hkey := hnone k c' (List.mem_of_getElem? hc')
      rwa [← Change.key_erase, herase, Change.key_erase] at hkey
    have hd : d ≠ w.dst := by
      rintro rfl
      obtain ⟨c, hc, herase⟩ : ∃ c, (u.changes (w.epoch % 16))[
          (v.changes (w.epoch % 16)).length]? = some c ∧ c.erase = newChange delete last w :=
        getElem?_addVersion_new
      apply hnone _ c (List.mem_of_getElem? hc)
      rw [← Change.key_erase, herase, key_newChange]
    rw [Trace.last_concat, if_neg (Ne.symm hd)] at ho
    rw [hheads, Function.update_of_ne hd]
    exact h.published d o hkeep ho

theorem transform (h : Reflects log v) {slot : Nat} (vb : Nat)
    (hother : ∀ k, v.changes k ≠ [] → k = slot)
    (hs : ∀ c ∈ v.changes slot, Settles ((v.changes slot).filter fun x => x.key = c.key)) :
    Reflects log (v.transform S slot vb) ∧ ∀ k, (v.transform S slot vb).changes k = [] := by
  have hempty : ∀ k, k ≠ slot → v.changes k = [] := by
    intro k hk
    by_contra hne
    exact hk (hother k hne)
  by_cases hnil : v.changes slot = []
  · rw [transform_of_nil hnil]
    refine ⟨h, fun k => ?_⟩
    by_cases hk : k = slot
    · rw [hk, hnil]
    · exact hempty k hk
  · have hchanges : ∀ k, (v.transform S slot vb).changes k = [] := by
      intro k
      rw [changes_transform]
      split_ifs with hk
      · rfl
      · exact hempty k hk
    refine ⟨⟨fun k hk => absurd (hchanges k) hk, ?_, ?_⟩, hchanges⟩
    · intro k d c hc
      rw [hchanges] at hc
      cases hc
    · intro d o _ ho
      rw [head_transform hnil]
      by_cases hd : ∃ c ∈ v.changes slot, c.key = d
      · obtain ⟨c₀, hc₀, rfl⟩ := hd
        have hne : (v.changes slot).filter (fun x => x.key = c₀.key) ≠ [] := by
          apply List.ne_nil_of_mem
          exact List.mem_filter.mpr ⟨hc₀, by simp⟩
        have hlast := List.getLast?_eq_some_getLast hne
        obtain ⟨o', g, ho', hg, -, hdel, hepoch, hintra, hweight, hedge⟩ :=
          h.pending slot c₀.key _ hlast
        obtain rfl := Option.some.inj (ho'.symm.trans ho)
        obtain ⟨g', hg', hdel', htime, hp, hw⟩ := publishAll_settles (S := S) hg hlast (hs c₀ hc₀)
        rw [hg']
        refine ⟨hdel'.trans hdel, ?_, hp, fun hlive => ?_⟩
        · rw [htime, hepoch, hintra]
          rfl
        · rw [hw, hedge, hlive, if_neg Bool.false_ne_true, hweight]
      · have hno : ∀ c ∈ v.changes slot, c.key ≠ d := fun c hc heq => hd ⟨c, hc, heq⟩
        rw [publishAll_untouched hno]
        apply h.published d o _ ho
        intro k c hc
        obtain rfl := hother k (List.ne_nil_of_mem hc)
        exact hno c hc

end View.Reflects

namespace Trace

variable {S : StdSort} {h h' : Trace}

/-- Each epoch is transformed before the next one begins. -/
def OneEpoch (h : Trace) : Op → Prop
  | .insert _ w | .delete _ w => ∀ k < 16, (h.state.tmpVb k).entries = [] ∨
      (h.state.tmpVb k).timestamp = w.epoch
  | .transform epoch _ => ∀ k < 16, (h.state.tmpVb k).entries = [] ∨ k = epoch % 16

/-- The lookup of a write returns the item of its edge, and Transform treats the newest entry of
every edge last. -/
def Settling (S : StdSort) (h : Trace) : Op → Prop
  | .insert env w | .delete env w => (h.state.prepare S env).LookupRight w.dst
  | .transform epoch _ => ∀ c ∈ h.state.view.changes (epoch % 16),
      View.Settles ((h.state.view.changes (epoch % 16)).filter fun x => x.key = c.key)

instance (h : Trace) (op : Op) : Decidable (h.OneEpoch op) :=
  match op with
  | .insert _ _ | .delete _ _ => inferInstanceAs (Decidable (∀ k < 16, _ ∨ _))
  | .transform _ _ => inferInstanceAs (Decidable (∀ k < 16, _ ∨ _))

instance (S : StdSort) (h : Trace) (op : Op) : Decidable (h.Settling S op) :=
  match op with
  | .insert _ _ | .delete _ _ => inferInstanceAs (Decidable (VertexEdges.LookupRight _ _))
  | .transform _ _ => inferInstanceAs (Decidable (∀ c ∈ _, View.Settles _))

/-- All pending entries belong to the epoch of a write that is in turn. -/
theorem within_of_oneEpoch {v : View} {log : List Applied} (hr : v.Reflects log) {epoch : Nat}
    (hone : ∀ k < 16, v.changes k = [] ∨ v.stamp k = epoch) : View.Reflects.Within v epoch := by
  intro k hk
  have hslot := hr.slot k hk
  have hlt : k < 16 := by
    rw [← hslot]
    exact Nat.mod_lt _ (by decide)
  have hstamp := (hone k hlt).resolve_left hk
  rw [hstamp] at hslot
  exact ⟨hslot.symm, hstamp⟩

/-- The outcome of a write that is in turn. -/
theorem Outcome.reflects {delete : Bool} {w : Write} {v : View} (hout : Outcome h h' delete w
    (v.openTvb w.epoch)) (hr : v.Reflects h.log) (hin : View.Reflects.Within v w.epoch) :
    h'.state.view.Reflects h'.log := by
  obtain ⟨hopen, hin'⟩ := hr.openTvb hin
  cases hout with
  | refused hlog hview =>
    rw [hlog, hview]
    exact hopen
  | accepted pending lastIndex hlog _ _ hview =>
    rw [hlog, hview]
    apply hopen.write hin'
    rw [View.stamp_openTvb, if_pos rfl]

theorem reflects_step (hwf : h.state.Wf) (hr : h.state.view.Reflects h.log) {op : Op}
    (hok : h.OneEpoch op ∧ h.Settling S op) (hstep : h.step .fineGrain S op = some h') :
    h'.state.Wf ∧ h'.state.view.Reflects h'.log := by
  have hmerge : ∀ env, (h.state.prepare S env).Wf ∧
      (h.state.prepare S env).view.Reflects h.log := fun env =>
    ⟨hwf.prepare_of_buffered hr.buffered env, hr.merge VertexEdges.stamp_prepare
      VertexEdges.changes_prepare (VertexEdges.head_prepare hwf.rep env)⟩
  have hentries : ∀ k, (h.state.tmpVb k).entries = [] → h.state.view.changes k = [] := by
    intro k hk
    exact VertexEdges.changes_eq_nil.mpr hk
  have hwithin : ∀ (env : Env) (w : Write), (∀ k < 16, (h.state.tmpVb k).entries = [] ∨
      (h.state.tmpVb k).timestamp = w.epoch) →
        View.Reflects.Within (h.state.prepare S env).view w.epoch := by
    intro env w hone
    apply within_of_oneEpoch (hmerge env).2
    intro k hk
    rw [VertexEdges.changes_prepare, VertexEdges.stamp_prepare]
    exact (hone k hk).imp_left (hentries k)
  cases op with
  | insert env w =>
    obtain ⟨hone, hlook⟩ := hok
    obtain ⟨hwfp, hrp⟩ := hmerge env
    obtain ⟨hwf', hout⟩ := insert_cases hwf.rep hwfp hlook hstep
    exact ⟨hwf', hout.reflects hrp (hwithin env w hone)⟩
  | delete env w =>
    obtain ⟨hone, hlook⟩ := hok
    obtain ⟨hwfp, hrp⟩ := hmerge env
    obtain ⟨hwf', ⟨hlog, hview⟩ | hout⟩ := delete_cases hwfp hlook hstep
    · rw [hlog, hview]
      exact ⟨hwf', hrp⟩
    · exact ⟨hwf', hout.reflects hrp (hwithin env w hone)⟩
  | transform epoch vb =>
    obtain ⟨hone, hs⟩ := hok
    obtain ⟨hwf', hlog, -, hview⟩ := transform_cases hwf hstep
    rw [hlog, hview]
    refine ⟨hwf', (hr.transform vb ?_ hs).1⟩
    intro k hk
    have hlt : k < 16 := by
      rw [← hr.slot k hk]
      exact Nat.mod_lt _ (by decide)
    exact (hone k hlt).resolve_left fun hnil => hk (hentries k hnil)

theorem reflects_run {s : VertexEdges} (hwf : s.Wf) (hidle : ∀ k, (s.tmpVb k).entries = [])
    {es : List Op} (hone : Along (step .fineGrain S) OneEpoch ⟨s, []⟩ es)
    (hok : Along (step .fineGrain S) (Settling S) ⟨s, []⟩ es)
    (hrun : exec (step .fineGrain S) ⟨s, []⟩ es = some h) :
    h.state.Wf ∧ h.state.view.Reflects h.log := by
  let Inv : Trace → Prop := fun g => g.state.Wf ∧ g.state.view.Reflects g.log
  have hstart : Inv ⟨s, []⟩ :=
    ⟨hwf, View.Reflects.start fun k => VertexEdges.changes_eq_nil.mpr (hidle k)⟩
  have hinv : Inv h := invariant_of_step
    (fun _ _ _ hi ho hstep => reflects_step hi.1 hi.2 ho hstep) hstart (hone.and hok) hrun
  exact hinv

/-- After every Transform of such a run an item shows the last operation on its edge; only a deleted
edge may have lost its item. -/
theorem newest_state {s : VertexEdges} (hwf : s.Wf) (hidle : ∀ k, (s.tmpVb k).entries = [])
    {es : List Op} {epoch vb : Nat}
    (hone : Along (step .fineGrain S) OneEpoch ⟨s, []⟩ (es ++ [.transform epoch vb]))
    (hok : Along (step .fineGrain S) (Settling S) ⟨s, []⟩ (es ++ [.transform epoch vb]))
    (hrun : exec (step .fineGrain S) ⟨s, []⟩ (es ++ [.transform epoch vb]) = some h)
    {d : Nat} {o : Applied} (hlast : last h.log d = some o) :
    match h.state.item d with
    | none => o.delete = true
    | some x => isDelete x.1.e = o.delete ∧ x.1.creation = o.write.time ∧
        isTmp x.1.block = false ∧ (o.delete = false → x.2.e = o.write.weight) := by
  rw [exec_append] at hrun
  obtain ⟨g, hg, hrun⟩ := Option.bind_eq_some_iff.mp hrun
  obtain ⟨hone, honeT, -⟩ := (along_append hg).mp hone
  obtain ⟨hok, hokT, -⟩ := (along_append hg).mp hok
  obtain ⟨hwf', hr⟩ := reflects_run hwf hidle hone hok hg
  obtain ⟨h', hstep, hh'⟩ := Option.bind_eq_some_iff.mp hrun
  obtain rfl := Option.some.inj hh'
  obtain ⟨-, hlog, -, hview⟩ := transform_cases hwf' hstep
  have hslot : ∀ k, g.state.view.changes k ≠ [] → k = epoch % 16 := by
    intro k hk
    have hlt : k < 16 := by
      rw [← hr.slot k hk]
      exact Nat.mod_lt _ (by decide)
    exact (honeT k hlt).resolve_left fun hnil => hk (VertexEdges.changes_eq_nil.mpr hnil)
  obtain ⟨hr', hnil⟩ := hr.transform (S := S) vb hslot hokT
  rw [← hview] at hr' hnil
  rw [← hlog] at hr'
  have hshown := hr'.published d o (fun k c hc => by simp [hnil] at hc) hlast
  have hhead : h'.state.view.head d = (h'.state.item d).map headOf := rfl
  rw [hhead] at hshown
  cases hx : h'.state.item d with
  | none =>
    rw [hx] at hshown
    exact hshown
  | some x =>
    rw [hx] at hshown
    exact hshown

def deleteSeven (epoch intra : Nat) (h : 0 < epoch ∧ epoch < 2 ^ 31) : Op :=
  .delete History.freshEnv (sevenWrite epoch intra 0 h)

/-- The loaded edge 7 is deleted in epoch 1 and inserted again in epoch 2. -/
theorem newest_state_seven : ∃ h x, exec (step .fineGrain .stable) ⟨sevenLoaded, []⟩
    [deleteSeven 1 1 (by decide), .transform 1 100, overwriteSeven 2 1 9 (by decide),
      .transform 2 200] = some h ∧ h.state.item 7 = some x ∧ isDelete x.1.e = false ∧
        x.1.creation = ⟨2, 1⟩ ∧ isTmp x.1.block = false ∧ x.2.e = 9 := by
  obtain ⟨h, hrun, hlast⟩ : ∃ h, exec (step .fineGrain .stable) ⟨sevenLoaded, []⟩
      ([deleteSeven 1 1 (by decide), .transform 1 100, overwriteSeven 2 1 9 (by decide)] ++
        [.transform 2 200]) = some h ∧
          last h.log 7 = some ⟨false, sevenWrite 2 1 9 (by decide)⟩ := by
    apply exists_exec
    decide +kernel
  have hshown := newest_state built_sevenLoaded.wf built_sevenLoaded.entries (by decide +kernel)
    (by decide +kernel) hrun hlast
  cases hx : h.state.item 7 with
  | none =>
    rw [hx] at hshown
    cases hshown
  | some x =>
    rw [hx] at hshown
    obtain ⟨hlive, htime, hp, hweight⟩ := hshown
    exact ⟨h, x, hrun, hx, hlive, htime, hp, hweight rfl⟩

/-- The edge 7 is deleted and inserted again in epoch 2: Transform leaves the time of the deletion
and the weight 0. -/
theorem newest_state_stale : ∃ h x, exec (step .fineGrain .stable) ⟨sevenLoaded, []⟩
    [overwriteSeven 1 1 4 (by decide), .transform 1 100, deleteSeven 2 1 (by decide),
      overwriteSeven 2 2 9 (by decide), .transform 2 200] = some h ∧
    Along (step .fineGrain .stable) OneEpoch ⟨sevenLoaded, []⟩
      [overwriteSeven 1 1 4 (by decide), .transform 1 100, deleteSeven 2 1 (by decide),
        overwriteSeven 2 2 9 (by decide), .transform 2 200] ∧
    last h.log 7 = some ⟨false, sevenWrite 2 2 9 (by decide)⟩ ∧ h.state.item 7 = some x ∧
      isDelete x.1.e = false ∧ x.1.creation = ⟨2, 1⟩ ∧ isTmp x.1.block = false ∧ x.2.e = 0 := by
  obtain ⟨h, hrun, hlast, hx⟩ : ∃ h, exec (step .fineGrain .stable) ⟨sevenLoaded, []⟩
      [overwriteSeven 1 1 4 (by decide), .transform 1 100, deleteSeven 2 1 (by decide),
        overwriteSeven 2 2 9 (by decide), .transform 2 200] = some h ∧
      last h.log 7 = some ⟨false, sevenWrite 2 2 9 (by decide)⟩ ∧
      h.state.item 7 = some (⟨7, 2, 1⟩, ⟨0, 0, 0⟩) := by
    apply exists_exec
    decide +kernel
  refine ⟨h, _, hrun, by decide +kernel, hlast, hx, ?_⟩
  decide

end Trace

end AVBGraph
