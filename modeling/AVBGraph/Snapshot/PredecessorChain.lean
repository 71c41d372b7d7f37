import AVBGraph.Snapshot.Pending
import AVBGraph.Snapshot.Published
import AVBGraph.Snapshot.Transformed
import AVBGraph.Vertex.Degree

namespace AVBGraph

open Framework

namespace VersionBlockManager

variable {m : VersionBlockManager} {d epoch index : Nat} {ts : List Composite}

/-- The last block up to the epoch, by std::upper_bound on the ascending vb_index_. -/
def findVb (m : VersionBlockManager) (ts : Nat) : Option VersionBlock :=
  (m.vbIndex.takeWhile fun p => p.1 ≤ ts).getLast?.map Prod.snd

/-- The record at a predecessor index of a version of the epoch. -/
def record (m : VersionBlockManager) (epoch index : Nat) : Option Item :=
  (m.findVb epoch).bind fun vb => vb.records[index]?

/-- The first `n` records along the predecessor indices. -/
def predecessors (m : VersionBlockManager) : Nat → Nat → Nat → Option (List Item)
  | 0, _, _ => some []
  | n + 1, epoch, index => (m.record epoch index).bind fun r =>
      (m.predecessors n r.1.block r.2.block).map fun rs => r :: rs

/-- The predecessor indices lead to records of the destination with these creation times. -/
def Leads (m : VersionBlockManager) (d : Nat) : Nat → Nat → List Composite → Prop
  | _, _, [] => True
  | epoch, index, t :: ts => ∃ r, m.record epoch index = some r ∧ r.1 = ⟨d, t.e, t.i⟩ ∧
      m.Leads d t.e r.2.block ts

theorem Leads.predecessors (h : m.Leads d epoch index ts) : ∃ rs,
    m.predecessors ts.length epoch index = some rs ∧
      rs.map Prod.fst = ts.map fun t => ⟨d, t.e, t.i⟩ := by
  induction ts generalizing epoch index with
  | nil => exact ⟨[], rfl, rfl⟩
  | cons t ts ih =>
    obtain ⟨r, hr, hrt, hrest⟩ := h
    obtain ⟨rs, hrs, hmap⟩ := ih hrest
    refine ⟨r :: rs, ?_, ?_⟩
    · have hblock : r.1.block = t.e := by rw [hrt]
      rw [List.length_cons, VersionBlockManager.predecessors, hr, Option.bind_some, hblock, hrs]
      rfl
    · rw [List.map_cons, List.map_cons, hrt, hmap]

/-- Blocks of later epochs do not matter. -/
theorem Leads.mono {m' : VersionBlockManager} {last : Nat}
    (hrecord : ∀ epoch ≤ last, ∀ index, m'.record epoch index = m.record epoch index)
    (h : m.Leads d epoch index ts) (hepoch : epoch ≤ last) (hts : ∀ t ∈ ts, t.e ≤ last) :
    m'.Leads d epoch index ts := by
  induction ts generalizing epoch index with
  | nil => trivial
  | cons t ts ih =>
    obtain ⟨r, hr, hrt, hrest⟩ := h
    refine ⟨r, (hrecord epoch hepoch index).trans hr, hrt, ?_⟩
    exact ih hrest (hts t List.mem_cons_self) fun u hu => hts u (List.mem_cons_of_mem t hu)

section Push

variable {m' : VersionBlockManager} {vb : VersionBlock} {e : Nat}
  (hindex : m'.vbIndex = m.vbIndex ++ [(e, vb)])

include hindex

theorem record_push_of_lt {epoch : Nat} (hlt : epoch < e) (index : Nat) :
    m'.record epoch index = m.record epoch index := by
  have hnil : [(e, vb)].takeWhile (fun p => p.1 ≤ epoch) = [] :=
    List.takeWhile_cons_of_neg (by simp [hlt])
  rw [record, record, findVb, findVb, hindex, List.takeWhile_append]
  split_ifs with hall
  · rw [hnil, List.append_nil, (List.takeWhile_prefix _).eq_of_length hall]
  · rfl

theorem record_push_self (hle : ∀ p ∈ m.vbIndex, p.1 ≤ e) (index : Nat) :
    m'.record e index = vb.records[index]? := by
  have hall : (m.vbIndex ++ [(e, vb)]).takeWhile (fun p => p.1 ≤ e) = m.vbIndex ++ [(e, vb)] := by
    rw [List.takeWhile_eq_self_iff]
    intro p hp
    rcases List.mem_append.mp hp with hp | hp
    · exact decide_eq_true (hle p hp)
    · rw [List.mem_singleton.mp hp]
      exact decide_eq_true le_rfl
  rw [record, findVb, hindex, hall, List.getLast?_concat]
  rfl

end Push

end VersionBlockManager

namespace View

variable {S : StdSort} {v : View} {d epoch : Nat}

section Loops

theorem publishFresh_untouched {cs : List Change} (hd : ∀ c ∈ cs, c.key ≠ d) (p : Publication) :
    (cs.foldl (publishFresh epoch) p).head d = p.head d := by
  induction cs generalizing p with
  | nil => rfl
  | cons c cs ih =>
    have hc : d ≠ c.key := (hd c List.mem_cons_self).symm
    rw [List.foldl_cons, ih fun x hx => hd x (List.mem_cons_of_mem c hx)]
    exact Function.update_of_ne hc _ _

theorem publishFine_untouched {cs : List Change} (hd : ∀ c ∈ cs, c.key ≠ d) (p : Publication) :
    (cs.foldl (publishFine epoch) p).head d = p.head d := by
  induction cs generalizing p with
  | nil => rfl
  | cons c cs ih =>
    have hc : d ≠ c.key := (hd c List.mem_cons_self).symm
    rw [List.foldl_cons, ih fun x hx => hd x (List.mem_cons_of_mem c hx)]
    exact Function.update_of_ne hc _ _

/-- The only change of a destination in the first loop. -/
theorem publishFresh_only {cs : List Change} {c : Change}
    (hcs : (cs.filter fun x => x.key = d) = [c]) (p : Publication) :
    (cs.foldl (publishFresh epoch) p).head d = (p.head d).map (freshHead epoch c) := by
  obtain ⟨l₁, l₂, rfl, h₁, hc, h₂⟩ := List.filter_eq_cons_iff.mp hcs
  have hd : c.key = d := of_decide_eq_true hc
  have h₁ : ∀ x ∈ l₁, x.key ≠ d := fun x hx heq => h₁ x hx (decide_eq_true heq)
  have h₂ : ∀ x ∈ l₂, x.key ≠ d := fun x hx heq =>
    List.filter_eq_nil_iff.mp h₂ x hx (decide_eq_true heq)
  rw [List.foldl_append, List.foldl_cons, publishFresh_untouched h₂]
  show Function.update _ c.key _ d = _
  rw [hd, Function.update_self, publishFresh_untouched h₁]

theorem publishFresh_records (cs : List Change) (p : Publication) :
    (cs.foldl (publishFresh epoch) p).records = p.records := by
  induction cs generalizing p with
  | nil => rfl
  | cons c cs ih => exact ih _

theorem publishFine_records (epoch : Nat) (cs : List Change) (p : Publication) :
    (cs.foldl (publishFine epoch) p).records.map (fun r => (r.1, r.2.block)) =
      p.records.map (fun r => (r.1, r.2.block)) ++
        cs.map fun c => (⟨c.key, c.old.e, c.old.i⟩, c.index) := by
  induction cs generalizing p with
  | nil => simp
  | cons c cs ih =>
    rw [List.foldl_cons, ih]
    simp [publishFine, recordOf]

/-- The only change of a destination in the second loop, and its record. -/
theorem publishFine_only {cs : List Change} {c : Change}
    (hcs : (cs.filter fun x => x.key = d) = [c]) {p : Publication} (hp : p.records = [])
    {g : Head} (hg : p.head d = some g) : ∃ j < cs.length, ∃ weight r,
      (cs.foldl (publishFine epoch) p).head d =
        some ⟨g.deleted, ⟨epoch, c.intra⟩, false, weight, j⟩ ∧
      (cs.foldl (publishFine epoch) p).records[j]? = some r ∧ r.1 = ⟨d, c.old.e, c.old.i⟩ ∧
        r.2.block = c.index := by
  have hrecords := publishFine_records epoch cs p
  obtain ⟨l₁, l₂, rfl, h₁, hc, h₂⟩ := List.filter_eq_cons_iff.mp hcs
  have hd : c.key = d := of_decide_eq_true hc
  have h₁ : ∀ x ∈ l₁, x.key ≠ d := fun x hx heq => h₁ x hx (decide_eq_true heq)
  have h₂ : ∀ x ∈ l₂, x.key ≠ d := fun x hx heq =>
    List.filter_eq_nil_iff.mp h₂ x hx (decide_eq_true heq)
  -- the position of the record is the number of the records before it
  have hlen : (l₁.foldl (publishFine epoch) p).records.length = l₁.length := by
    have h := congrArg List.length (publishFine_records epoch l₁ p)
    rw [hp] at h
    simpa using h
  refine ⟨l₁.length, by simp, if isDelete c.edge then 0 else c.weight, ?_⟩
  rw [hp, List.map_nil, List.nil_append] at hrecords
  obtain ⟨r, hr, hpair⟩ := getElem?_of_map_eq hrecords
    (i := l₁.length) (b := (⟨c.key, c.old.e, c.old.i⟩, c.index)) (by simp)
  refine ⟨r, ?_, hr, ?_, congrArg Prod.snd hpair⟩
  · rw [List.foldl_append, List.foldl_cons, publishFine_untouched h₂]
    show Function.update _ c.key _ d = _
    rw [hd, Function.update_self, publishFine_untouched h₁, hg, hlen]
    rfl
  · rw [← hd]
    exact congrArg Prod.fst hpair

end Loops

section Publish

variable {k : Nat} {c : Change}

/-- The entries of a destination in a slot. -/
def waiting (v : View) (d k : Nat) : List Change := (v.changes k).filter fun c => c.key = d

theorem inserts_perm (S : StdSort) {cs : List Change} (hplain : ∀ c ∈ cs, isDelete c.edge = false) :
    (inserts S cs).Perm (cs.filter fun c => c.old.e = 0) := by
  have hnot : cs.filter (fun c => decide (c.old.e = 0) && !isDelete c.edge) =
      cs.filter fun c => c.old.e = 0 :=
    List.filter_congr fun c hc => by simp [hplain c hc]
  rw [inserts_eq, ← hnot]
  exact (sorted_perm S cs).filter _

theorem replaced_perm (S : StdSort) {cs : List Change} (hplain : ∀ c ∈ cs, isDelete c.edge = false) :
    (replaced S cs).Perm (cs.filter fun c => c.old.e ≠ 0) := by
  have hnil : (sorted S cs).filter (fun c => decide (c.old.e = 0) && isDelete c.edge) = [] := by
    apply List.filter_eq_nil_iff.mpr
    intro c hc
    simp [hplain c ((sorted_perm S cs).mem_iff.mp hc)]
  rw [replaced_eq, hnil, List.append_nil]
  exact (sorted_perm S cs).filter _

variable (hplain : ∀ c ∈ v.changes k, isDelete c.edge = false)

include hplain

theorem inserts_waiting (S : StdSort) :
    ((inserts S (v.changes k)).filter fun c => c.key = d).Perm
      ((v.waiting d k).filter fun c => c.old.e = 0) := by
  rw [waiting, List.filter_comm _ _ (v.changes k)]
  exact (inserts_perm S hplain).filter _

theorem replaced_waiting (S : StdSort) :
    ((replaced S (v.changes k)).filter fun c => c.key = d).Perm
      ((v.waiting d k).filter fun c => c.old.e ≠ 0) := by
  rw [waiting, List.filter_comm _ _ (v.changes k)]
  exact (replaced_perm S hplain).filter _

/-- A destination whose only entry is of its first version. -/
theorem publishAll_first (S : StdSort) (hwait : v.waiting d k = [c]) (hzero : c.old.e = 0) :
    (publishAll S k v).head d = (v.head d).map (freshHead (v.stamp k) c) := by
  have hinserts := inserts_waiting hplain S (d := d)
  have hreplaced := replaced_waiting hplain S (d := d)
  rw [hwait, List.filter_cons_of_pos (by simp [hzero]), List.filter_nil,
    List.perm_singleton] at hinserts
  rw [hwait, List.filter_cons_of_neg (by simp [hzero]), List.filter_nil, List.perm_nil,
    List.filter_eq_nil_iff] at hreplaced
  rw [publishAll, publishFine_untouched fun x hx heq => hreplaced x hx (decide_eq_true heq)]
  exact publishFresh_only hinserts _

/-- A destination with one entry that replaces a version. -/
theorem publishAll_replaced (S : StdSort)
    (hwait : ((v.waiting d k).filter fun c => c.old.e ≠ 0) = [c]) {g : Head}
    (hg : v.head d = some g) : ∃ j < (v.changes k).length, ∃ g' r,
      (publishAll S k v).head d = some g' ∧ g'.time = ⟨v.stamp k, c.intra⟩ ∧ g'.pending = false ∧
      g'.index = j ∧ (publishAll S k v).records[j]? = some r ∧ r.1 = ⟨d, c.old.e, c.old.i⟩ ∧
        r.2.block = c.index := by
  have hreplaced := replaced_waiting hplain S (d := d)
  rw [hwait, List.perm_singleton] at hreplaced
  have hfresh : ∀ (cs : List Change) (p : Publication), (∃ g, p.head d = some g) →
      ∃ g, (cs.foldl (publishFresh (v.stamp k)) p).head d = some g := by
    intro cs
    induction cs with
    | nil => exact fun _ h => h
    | cons x cs ih =>
      intro p ⟨g, hg⟩
      apply ih
      show ∃ g, Function.update p.head x.key _ d = some g
      by_cases hd : d = x.key
      · rw [hd] at hg ⊢
        rw [Function.update_self, hg]
        exact ⟨_, rfl⟩
      · rw [Function.update_of_ne hd]
        exact ⟨g, hg⟩
  obtain ⟨g₁, hg₁⟩ := hfresh (inserts S (v.changes k)) ⟨v.head, 0, []⟩ ⟨g, hg⟩
  obtain ⟨j, hj, weight, r, hhead, hr, hr₁, hr₂⟩ := publishFine_only hreplaced
    (publishFresh_records _ _) hg₁
  have hlen : (replaced S (v.changes k)).length ≤ (v.changes k).length := by
    rw [(replaced_perm S hplain).length_eq]
    exact List.length_filter_le ..
  exact ⟨j, hj.trans_le hlen, _, r, hhead, rfl, rfl, rfl, hr, hr₁, hr₂⟩

end Publish

/-- The TmpVersionBlock of the write is open. -/
structure Open (v : View) (w : Write) : Prop where
  later : v.vbm.endEpoch < w.epoch
  stamp : v.stamp (w.epoch % 16) = w.epoch

/-- The versions of a destination, newest first, as they hang together. At most the newest one is
pending, or the first two. -/
inductive Threaded (v : View) (d : Nat) : List Write → Prop
  | unknown (head : v.head d = none) (waiting : ∀ k, v.waiting d k = []) : Threaded v d []
  | published (w : Write) (us : List Write) (g : Head) (head : v.head d = some g)
      (time : g.time = w.time) (pending : g.pending = false) (waiting : ∀ k, v.waiting d k = [])
      (index : g.index + 1 < 2 ^ 32) (old : ∀ u ∈ w :: us, u.epoch ≤ v.vbm.endEpoch)
      (leads : v.vbm.Leads d w.epoch g.index (us.map Write.time)) : Threaded v d (w :: us)
  | first (w : Write) (g : Head) (c : Change) (head : v.head d = some g) (time : g.time = w.time)
      (pending : g.pending = true) (opened : v.Open w)
      (entry : (v.changes (w.epoch % 16))[g.index]? = some c)
      (waiting : ∀ k, v.waiting d k = if k = w.epoch % 16 then [c] else [])
      (fresh : c.old.e = 0 ∧ c.next = 0) (intra : c.intra = w.txn.intra) : Threaded v d [w]
  | next (w u : Write) (us : List Write) (g : Head) (c : Change) (head : v.head d = some g)
      (time : g.time = w.time) (pending : g.pending = true) (opened : v.Open w)
      (waiting : ∀ k, v.waiting d k = if k = w.epoch % 16 then [c] else [])
      (replaced : c.old = u.time) (intra : c.intra = w.txn.intra)
      (old : ∀ x ∈ u :: us, x.epoch ≤ v.vbm.endEpoch)
      (leads : v.vbm.Leads d u.epoch c.index (us.map Write.time)) : Threaded v d (w :: u :: us)
  | both (w u : Write) (g : Head) (c₁ c₂ : Change) (head : v.head d = some g)
      (time : g.time = w.time) (pending : g.pending = true) (opened : v.Open w)
      (opened' : v.Open u)
      (waiting : ∀ k, v.waiting d k =
        (if k = u.epoch % 16 then [c₁] else []) ++ if k = w.epoch % 16 then [c₂] else [])
      (fresh : c₁.old.e = 0 ∧ c₁.next ≠ 0) (replaced : c₂.old = u.time)
      (intra : c₂.intra = w.txn.intra) (le : u.epoch ≤ w.epoch) : Threaded v d [w, u]

section Frame

variable {v' : View} {ws : List Write}

/-- What a step leaves alone. -/
structure Framed (v v' : View) (d : Nat) : Prop where
  head : v'.head d = v.head d
  waiting : ∀ k, v'.waiting d k = v.waiting d k
  entry : ∀ (k i : Nat) (c : Change), (v.changes k)[i]? = some c → c.key = d →
    (v'.changes k)[i]? = some c
  stamp : ∀ k, v.waiting d k ≠ [] → v'.stamp k = v.stamp k
  later : ∀ k, v.waiting d k ≠ [] → v'.vbm.endEpoch < v.stamp k
  endEpoch : v.vbm.endEpoch ≤ v'.vbm.endEpoch
  record : ∀ epoch ≤ v.vbm.endEpoch, ∀ index, v'.vbm.record epoch index = v.vbm.record epoch index

theorem Framed.opens {w : Write} (hu : Framed v v' d) (h : v.Open w)
    (hne : v.waiting d (w.epoch % 16) ≠ []) : v'.Open w := by
  refine ⟨?_, (hu.stamp _ hne).trans h.stamp⟩
  have hlt := hu.later _ hne
  rwa [h.stamp] at hlt

theorem Framed.leads {u : Write} {us : List Write} {index : Nat} (hu : Framed v v' d)
    (h : v.vbm.Leads d u.epoch index (us.map Write.time))
    (hold : ∀ x ∈ u :: us, x.epoch ≤ v.vbm.endEpoch) :
    v'.vbm.Leads d u.epoch index (us.map Write.time) ∧
      ∀ x ∈ u :: us, x.epoch ≤ v'.vbm.endEpoch := by
  constructor
  · apply h.mono hu.record (hold u List.mem_cons_self)
    intro t ht
    obtain ⟨x, hx, rfl⟩ := List.mem_map.mp ht
    exact hold x (List.mem_cons_of_mem u hx)
  · intro x hx
    exact (hold x hx).trans hu.endEpoch

theorem Threaded.frame (h : Threaded v d ws) (hu : Framed v v' d) : Threaded v' d ws := by
  cases h with
  | unknown head waiting =>
    exact .unknown (hu.head.trans head) fun k => (hu.waiting k).trans (waiting k)
  | published w us g head time pending waiting index old leads =>
    obtain ⟨leads, old⟩ := hu.leads leads old
    exact .published w us g (hu.head.trans head) time pending
      (fun k => (hu.waiting k).trans (waiting k)) index old leads
  | first w g c head time pending opened entry waiting fresh intra =>
    have hne : v.waiting d (w.epoch % 16) = [c] := (waiting _).trans (if_pos rfl)
    have hkey : c.key = d := by
      have hmem : c ∈ v.waiting d (w.epoch % 16) := by
        rw [hne]
        exact List.mem_singleton_self c
      exact of_decide_eq_true (List.mem_filter.mp hmem).2
    exact .first w g c (hu.head.trans head) time pending (hu.opens opened (by simp [hne]))
      (hu.entry _ _ _ entry hkey) (fun k => (hu.waiting k).trans (waiting k)) fresh intra
  | next w u us g c head time pending opened waiting replaced intra old leads =>
    have hne : v.waiting d (w.epoch % 16) = [c] := (waiting _).trans (if_pos rfl)
    obtain ⟨leads, old⟩ := hu.leads leads old
    exact .next w u us g c (hu.head.trans head) time pending (hu.opens opened (by simp [hne]))
      (fun k => (hu.waiting k).trans (waiting k)) replaced intra old leads
  | both w u g c₁ c₂ head time pending opened opened' waiting fresh replaced intra le =>
    have hw : v.waiting d (w.epoch % 16) ≠ [] := by
      rw [waiting, if_pos rfl]
      simp
    have hu' : v.waiting d (u.epoch % 16) ≠ [] := by
      rw [waiting, if_pos rfl]
      simp
    exact .both w u g c₁ c₂ (hu.head.trans head) time pending (hu.opens opened hw)
      (hu.opens opened' hu') (fun k => (hu.waiting k).trans (waiting k)) fresh replaced intra le

end Frame

/-- An entry waits for an epoch that is not published, in the slot of the epoch. -/
theorem Threaded.slotted {ws : List Write} {k : Nat} (h : Threaded v d ws) (hne : v.waiting d k ≠ []) :
    v.vbm.endEpoch < v.stamp k ∧ v.stamp k % 16 = k := by
  have hopen : ∀ w : Write, v.Open w → k = w.epoch % 16 →
      v.vbm.endEpoch < v.stamp k ∧ v.stamp k % 16 = k := by
    intro w hw hk
    rw [hk, hw.stamp]
    exact ⟨hw.later, rfl⟩
  cases h with
  | unknown _ waiting => exact absurd (waiting k) hne
  | published _ _ _ _ _ _ waiting => exact absurd (waiting k) hne
  | first w _ _ _ _ _ opened _ waiting =>
    apply hopen w opened
    by_contra hk
    exact hne ((waiting k).trans (if_neg hk))
  | next w _ _ _ _ _ _ _ opened waiting =>
    apply hopen w opened
    by_contra hk
    exact hne ((waiting k).trans (if_neg hk))
  | both w u _ _ _ _ _ _ opened opened' waiting =>
    by_cases hk : k = u.epoch % 16
    · exact hopen u opened' hk
    · apply hopen w opened
      by_contra hk'
      apply hne
      rw [waiting, if_neg hk, if_neg hk']
      rfl

section Add

variable {w : Write} {pending : Bool} {last : Composite} {lastIndex weight : Nat}

/-- The entry of an insertion. -/
def inserted (last : Composite) (lastIndex : Nat) (w : Write) : Change :=
  ⟨w.dst, w.weight, last, w.txn.intra, last.e, lastIndex⟩

/-- The entry of the version that it replaces, with the successor. -/
def succeeded (epoch idx : Nat) (c : Change) : Change :=
  { c with next := c.next ||| epoch, index := idx }

theorem key_inserted : (inserted last lastIndex w).key = w.dst := clearDelete_of_lt w.dst_lt

/-- The entries after an insertion, when the index of a pending predecessor is one of an entry. -/
theorem changes_addVersion (hown : pending = true → last.e ≠ 0 →
      lastIndex < (v.changes (last.e % 16)).length) (weight k : Nat) :
    (v.addVersion false pending last lastIndex weight w).changes k =
      (if (pending = true ∧ last.e ≠ 0) ∧ k = last.e % 16 then (v.changes k).modify lastIndex
          (succeeded w.epoch (v.changes (w.epoch % 16)).length) else v.changes k) ++
        if k = w.epoch % 16 then [inserted last lastIndex w] else [] := by
  have hpush : ((v.push (w.epoch % 16) (inserted last lastIndex w)).changes k) =
      v.changes k ++ if k = w.epoch % 16 then [inserted last lastIndex w] else [] := by
    rw [changes_push]
    by_cases hk : k = w.epoch % 16
    · rw [hk, Function.update_self, if_pos rfl]
    · rw [Function.update_of_ne hk, if_neg hk, List.append_nil]
  show ((v.push (w.epoch % 16) (inserted last lastIndex w)).linkNext pending last.e lastIndex
    w.epoch (v.changes (w.epoch % 16)).length).changes k = _
  unfold linkNext
  by_cases hlink : pending = true ∧ last.e ≠ 0
  · rw [if_pos hlink]
    dsimp only
    by_cases hk : k = last.e % 16
    · have hlt : lastIndex < (v.changes k).length := hk ▸ hown hlink.1 hlink.2
      rw [if_pos ⟨hlink, hk⟩, ← hk, Function.update_self, hpush, modify_append_of_lt hlt]
      rfl
    · rw [if_neg fun h => hk h.2, Function.update_of_ne hk, hpush]
  · rw [if_neg hlink, if_neg fun h => hlink h.1, hpush]

/-- The entries of another destination. -/
theorem framed_addVersion (hown : pending = true → last.e ≠ 0 →
      ∃ c, (v.changes (last.e % 16))[lastIndex]? = some c ∧ c.key = w.dst) (hd : d ≠ w.dst)
    (hlater : ∀ k, v.waiting d k ≠ [] → v.vbm.endEpoch < v.stamp k) :
    Framed v (v.addVersion false pending last lastIndex weight w) d := by
  have hlt : pending = true → last.e ≠ 0 → lastIndex < (v.changes (last.e % 16)).length := by
    intro hp he
    obtain ⟨c, hc, -⟩ := hown hp he
    exact (List.getElem?_eq_some_iff.mp hc).1
  have hchanges := changes_addVersion (w := w) hlt weight
  have hnew : [inserted last lastIndex w].filter (fun c => c.key = d) = [] := by
    rw [List.filter_eq_nil_iff]
    intro c hc
    rw [List.mem_singleton.mp hc, key_inserted]
    simp [hd.symm]
  constructor
  · rw [head_addVersion, Function.update_of_ne hd]
  · intro k
    rw [waiting, waiting, hchanges, List.filter_append, apply_ite (List.filter _) (k = _), hnew]
    rw [List.filter_nil, ite_self, List.append_nil]
    by_cases hlink : (pending = true ∧ last.e ≠ 0) ∧ k = last.e % 16
    · rw [if_pos hlink]
      have hkey : ∀ x : Change, decide ((succeeded w.epoch (v.changes (w.epoch % 16)).length x).key =
          d) = decide (x.key = d) := fun _ => rfl
      apply filter_modify_other hkey
      intro x hx
      obtain ⟨c, hc, hdst⟩ := hown hlink.1.1 hlink.1.2
      rw [hlink.2] at hx
      rw [Option.some.inj (hx.symm.trans hc), hdst]
      simp [hd.symm]
    · rw [if_neg hlink]
  · intro k i c hc hkey
    rw [hchanges]
    have hlen : i < (v.changes k).length := (List.getElem?_eq_some_iff.mp hc).1
    by_cases hlink : (pending = true ∧ last.e ≠ 0) ∧ k = last.e % 16
    · obtain ⟨x, hx, hxkey⟩ := hown hlink.1.1 hlink.1.2
      have hne : lastIndex ≠ i := by
        intro heq
        rw [heq, ← hlink.2, hc] at hx
        rw [← Option.some.inj hx, hkey] at hxkey
        exact hd hxkey
      rw [if_pos hlink, List.getElem?_append_left (by rwa [List.length_modify]),
        List.getElem?_modify_ne _ _ hne, hc]
    · rw [if_neg hlink, List.getElem?_append_left hlen, hc]
  · intro k _
    rw [stamp_addVersion]
  · intro k hk
    rw [vbm_addVersion]
    exact hlater k hk
  · rw [vbm_addVersion]
  · intro e _ index
    rw [vbm_addVersion]

end Add

/-- A run of insertions whose versions hang together at every destination. -/
structure Threads (v : View) (ws : List Write) : Prop where
  live : v.Live
  plain : ∀ k, ∀ c ∈ v.changes k, isDelete c.edge = false
  fits : ∀ k, (v.changes k).length < 2 ^ 32
  indexed : ∀ p ∈ v.vbm.vbIndex, p.1 ≤ v.vbm.endEpoch
  thread : ∀ d, v.Threaded d (ws.filter fun w => w.dst = d).reverse

namespace Threads

variable {ws : List Write} {k : Nat}

/-- A slot with entries belongs to an epoch that is not published. -/
theorem slotted (h : Threads v ws) (hne : v.changes k ≠ []) :
    v.vbm.endEpoch < v.stamp k ∧ v.stamp k % 16 = k := by
  obtain ⟨c, hc⟩ := List.exists_mem_of_ne_nil _ hne
  apply (h.thread c.key).slotted
  exact List.ne_nil_of_mem (List.mem_filter.mpr ⟨hc, by simp⟩)

theorem openTvb (h : Threads v ws) {epoch : Nat}
    (hfree : v.changes (epoch % 16) = [] ∨ v.stamp (epoch % 16) = epoch) :
    Threads (v.openTvb epoch) ws := by
  have hchanges := changes_openTvb_of_free hfree
  have hindex : (v.openTvb epoch).vbm.vbIndex = v.vbm.vbIndex := by
    unfold View.openTvb
    split_ifs <;> rfl
  have hend := v.endEpoch_openTvb epoch
  constructor
  · unfold Live
    rw [head_openTvb]
    exact h.live
  · rw [hchanges]
    exact h.plain
  · rw [hchanges]
    exact h.fits
  · rw [hindex, hend]
    exact h.indexed
  · intro d
    have hne : ∀ k, v.waiting d k ≠ [] → v.changes k ≠ [] := by
      intro k hk hnil
      exact hk (by rw [waiting, hnil, List.filter_nil])
    apply (h.thread d).frame
    constructor
    · rw [head_openTvb]
    · intro k
      rw [waiting, waiting, hchanges]
    · intro k i c hc _
      rwa [hchanges]
    · intro k hk
      exact stamp_openTvb_of_free hfree (hne k hk)
    · intro k hk
      rw [hend]
      exact (h.slotted (hne k hk)).1
    · exact hend.ge
    · intro e _ index
      rw [VersionBlockManager.record, VersionBlockManager.findVb, hindex]
      rfl

section Write

variable {w : Write} {weight : Nat}

/-- The thread of the destination after a write that found no pending version. -/
theorem threaded_insert {us : List Write} {pending : Bool} {last : Composite} {lastIndex : Nat}
    (h : v.Threaded w.dst us) (hopen : v.Open w) (hidle : ∀ k, v.waiting w.dst k = [])
    (hlast : last = us.head?.elim ⟨0, 0⟩ Write.time) (hpending : pending = false)
    (hindex : ∀ g, v.head w.dst = some g → lastIndex = g.index) :
    (v.addVersion false pending last lastIndex weight w).Threaded w.dst (w :: us) := by
  subst hpending
  set u := v.addVersion false false last lastIndex weight w with hu
  set c := inserted last lastIndex w with hc
  have hchanges : ∀ k, u.changes k = v.changes k ++ if k = w.epoch % 16 then [c] else [] := by
    intro k
    rw [hu, changes_addVersion (fun hp => absurd hp Bool.false_ne_true), if_neg]
    intro hp
    exact absurd hp.1.1 Bool.false_ne_true
  have hwaiting : ∀ k, u.waiting w.dst k = if k = w.epoch % 16 then [c] else [] := by
    intro k
    have hold : (v.changes k).filter (fun c => c.key = w.dst) = [] := hidle k
    rw [waiting, hchanges, List.filter_append, hold, List.nil_append]
    split_ifs
    · exact List.filter_eq_self.mpr fun x hx => by
        rw [List.mem_singleton.mp hx, hc, key_inserted]
        exact decide_eq_true rfl
    · rfl
  have hhead : u.head w.dst = some ⟨false, w.time, true, weight, (v.changes (w.epoch % 16)).length⟩ := by
    rw [hu, head_addVersion, Function.update_self]
    rfl
  have hopen' : u.Open w := by
    constructor
    · rw [hu, vbm_addVersion]
      exact hopen.later
    · rw [hu, stamp_addVersion]
      exact hopen.stamp
  have hvbm : u.vbm = v.vbm := vbm_addVersion
  cases h with
  | unknown head _ =>
    have hzero : c.old = ⟨0, 0⟩ := hlast
    apply Threaded.first w _ c hhead rfl rfl hopen' _ hwaiting _ rfl
    · show (u.changes (w.epoch % 16))[(v.changes (w.epoch % 16)).length]? = some c
      rw [hchanges, if_pos rfl, List.getElem?_concat_length]
    · rw [hzero]
      exact ⟨rfl, congrArg Composite.e hlast⟩
  | published x us g head time _ _ _ old leads =>
    have hx : c.old = x.time := hlast
    apply Threaded.next w x us _ c hhead rfl rfl hopen' hwaiting hx rfl
    · rw [hvbm]
      exact old
    · rw [hvbm]
      show v.vbm.Leads w.dst x.epoch lastIndex _
      rw [hindex g head]
      exact leads
  | first x _ c' _ _ _ _ _ waiting =>
    have hnil := hidle (x.epoch % 16)
    rw [waiting, if_pos rfl] at hnil
    cases hnil
  | next x _ _ _ c' _ _ _ _ waiting =>
    have hnil := hidle (x.epoch % 16)
    rw [waiting, if_pos rfl] at hnil
    cases hnil
  | both x y _ _ _ _ _ _ _ _ waiting =>
    have hnil := hidle (y.epoch % 16)
    rw [waiting, if_pos rfl] at hnil
    cases hnil

/-- The thread of the destination after a write on its first version. -/
theorem threaded_successor {u : Write} {g : Head} {c : Change} (hu : v.Open u) (hopen : v.Open w)
    (hentry : (v.changes (u.epoch % 16))[g.index]? = some c)
    (hwaiting : ∀ k, v.waiting w.dst k = if k = u.epoch % 16 then [c] else [])
    (hzero : c.old.e = 0) (hnext : c.next = 0) (hle : u.epoch ≤ w.epoch) :
    (v.addVersion false true u.time g.index weight w).Threaded w.dst [w, u] := by
  set t := v.addVersion false true u.time g.index weight w with ht
  set c₁ := succeeded w.epoch (v.changes (w.epoch % 16)).length c with hc₁
  set c₂ := inserted u.time g.index w with hc₂
  have hne : u.time.e ≠ 0 := u.epoch_pos.ne'
  have hchanges : ∀ k, t.changes k = (if k = u.epoch % 16 then
      (v.changes k).modify g.index (succeeded w.epoch (v.changes (w.epoch % 16)).length)
      else v.changes k) ++ if k = w.epoch % 16 then [c₂] else [] := by
    intro k
    rw [ht, changes_addVersion fun _ _ => (List.getElem?_eq_some_iff.mp hentry).1]
    by_cases hk : k = u.epoch % 16
    · rw [if_pos hk, if_pos ⟨⟨rfl, hne⟩, hk⟩]
    · rw [if_neg hk, if_neg fun h => hk h.2]
  have hnew : [c₂].filter (fun c => c.key = w.dst) = [c₂] := by
    apply List.filter_eq_self.mpr
    intro x hx
    rw [List.mem_singleton.mp hx, hc₂, key_inserted]
    exact decide_eq_true rfl
  have hsecond : ∀ k, t.waiting w.dst k =
      (if k = u.epoch % 16 then [c₁] else []) ++ if k = w.epoch % 16 then [c₂] else [] := by
    intro k
    rw [waiting, hchanges, List.filter_append, apply_ite (List.filter _) (k = w.epoch % 16), hnew,
      List.filter_nil]
    congr 1
    by_cases hk : k = u.epoch % 16
    · have hold := hwaiting k
      rw [if_pos hk] at hold ⊢
      rw [if_pos hk]
      have hkey : ∀ x : Change, decide ((succeeded w.epoch (v.changes (w.epoch % 16)).length x).key =
          w.dst) = decide (x.key = w.dst) := fun _ => rfl
      exact filter_modify_only hkey (hk ▸ hentry) hold
    · have hold := hwaiting k
      rw [if_neg hk] at hold ⊢
      rw [if_neg hk]
      exact hold
  have hopens : ∀ x : Write, v.Open x → t.Open x := by
    intro x hx
    constructor
    · rw [ht, vbm_addVersion]
      exact hx.later
    · rw [ht, stamp_addVersion]
      exact hx.stamp
  have hlinked : c₁.next ≠ 0 := by
    show c.next ||| w.epoch ≠ 0
    rw [hnext, Nat.zero_or]
    exact w.epoch_pos.ne'
  have hhead : t.head w.dst =
      some ⟨false, w.time, true, weight, (v.changes (w.epoch % 16)).length⟩ := by
    rw [ht, head_addVersion, Function.update_self]
    rfl
  exact .both w u _ c₁ c₂ hhead rfl rfl (hopens w hopen) (hopens u hu) hsecond ⟨hzero, hlinked⟩ rfl
    rfl hle

theorem lastIndex_of_live {g : Head} (hg : g.deleted = false) (hindex : g.index + 1 < 2 ^ 32)
    (unset : Nat) : lastIndex unset (some g) = g.index := by
  have hne : g.index ≠ 2 ^ 32 - 1 := by omega
  rw [lastIndex, Option.elim_some, hg, if_neg Bool.false_ne_true, predecessor, if_neg hne]

/-- The pending version that a write replaces is the first one of its destination. -/
theorem pending_first {us : List Write} (h : v.Threaded d us) (hone : us.length ≤ 1) {g : Head}
    (hg : v.head d = some g) (hp : g.pending = true) : ∃ u c, us = [u] ∧ g.time = u.time ∧
      v.Open u ∧ (v.changes (u.epoch % 16))[g.index]? = some c ∧
      (∀ k, v.waiting d k = if k = u.epoch % 16 then [c] else []) ∧ c.old.e = 0 ∧ c.next = 0 := by
  cases h with
  | unknown head _ =>
    rw [head] at hg
    cases hg
  | published _ _ _ head _ pending =>
    rw [head, Option.some.injEq] at hg
    rw [hg, hp] at pending
    cases pending
  | first u _ c head time _ opened entry waiting fresh _ =>
    rw [head, Option.some.injEq] at hg
    subst hg
    exact ⟨u, c, rfl, time, opened, entry, waiting, fresh.1, fresh.2⟩
  | next => simp at hone
  | both => simp at hone

/-- A published version and the entries of its destination. -/
theorem idle_of_published {us : List Write} (h : v.Threaded d us) {g : Head}
    (hg : v.head d = some g) (hp : g.pending = false) : (∀ k, v.waiting d k = []) ∧
      us.head?.map Write.time = some g.time ∧ g.index + 1 < 2 ^ 32 := by
  have hcontra : ∀ g', v.head d = some g' → g'.pending = true → False := by
    intro g' hg' hp'
    rw [hg, Option.some.injEq] at hg'
    rw [← hg', hp] at hp'
    cases hp'
  cases h with
  | unknown head _ =>
    rw [head] at hg
    cases hg
  | published _ _ _ head time _ waiting index =>
    rw [head, Option.some.injEq] at hg
    subst hg
    exact ⟨waiting, congrArg some time.symm, index⟩
  | first _ g' _ head _ pending => exact (hcontra g' head pending).elim
  | next _ _ _ g' _ head _ pending => exact (hcontra g' head pending).elim
  | both _ _ g' _ _ head _ pending => exact (hcontra g' head pending).elim

theorem idle_of_unknown {us : List Write} (h : v.Threaded d us) (hg : v.head d = none) :
    (∀ k, v.waiting d k = []) ∧ us = [] := by
  cases h with
  | unknown _ waiting => exact ⟨waiting, rfl⟩
  | published _ _ _ head => rw [hg] at head; cases head
  | first _ _ _ head => rw [hg] at head; cases head
  | next _ _ _ _ _ head => rw [hg] at head; cases head
  | both _ _ _ _ _ head => rw [hg] at head; cases head

/-- The thread of the destination after an accepted insertion; a pending predecessor is an entry of
the destination. -/
theorem threaded_write (h : Threads v ws) {us : List Write} (hthread : v.Threaded w.dst us)
    (hopen : v.Open w) (hle : (lastTime (v.head w.dst)).e ≤ w.epoch)
    (hone : ∀ g, v.head w.dst = some g → g.pending = true → us.length ≤ 1) (unset : Nat) :
    (v.addVersion false (isPending (v.head w.dst)) (lastTime (v.head w.dst))
        (lastIndex unset (v.head w.dst)) weight w).Threaded w.dst (w :: us) ∧
      (isPending (v.head w.dst) = true → (lastTime (v.head w.dst)).e ≠ 0 →
        ∃ c, (v.changes ((lastTime (v.head w.dst)).e % 16))[lastIndex unset (v.head w.dst)]? =
          some c ∧ c.key = w.dst) := by
  cases hg : v.head w.dst with
  | none =>
    obtain ⟨hidle, rfl⟩ := idle_of_unknown hthread hg
    refine ⟨threaded_insert hthread hopen hidle rfl rfl ?_, fun hp => absurd hp Bool.false_ne_true⟩
    intro g hg'
    rw [hg] at hg'
    cases hg'
  | some g =>
    have hlive := h.live _ g hg
    have hlast : lastTime (some g) = g.time := by simp [lastTime, hlive]
    have hpending : isPending (some g) = g.pending := rfl
    rw [hlast, hpending]
    cases hp : g.pending with
    | false =>
      obtain ⟨hidle, htime, hindex⟩ := idle_of_published hthread hg hp
      rw [lastIndex_of_live hlive hindex]
      refine ⟨threaded_insert hthread hopen hidle ?_ rfl ?_, fun hp => absurd hp Bool.false_ne_true⟩
      · cases us with
        | nil => cases htime
        | cons u us => exact (Option.some.inj htime).symm
      · intro g' hg'
        rw [hg, Option.some.injEq] at hg'
        rw [hg']
    | true =>
      obtain ⟨u, c, rfl, htime, hu, hentry, hwaiting, hzero, hnext⟩ :=
        pending_first hthread (hone g hg hp) hg hp
      have hlt := (List.getElem?_eq_some_iff.mp hentry).1
      have hfits := h.fits (u.epoch % 16)
      rw [lastIndex_of_live hlive (by omega), htime]
      rw [hg, hlast, htime] at hle
      refine ⟨threaded_successor hu hopen hentry hwaiting hzero hnext hle, fun _ _ => ?_⟩
      refine ⟨c, hentry, ?_⟩
      have hmem : c ∈ v.waiting w.dst (u.epoch % 16) := by
        rw [hwaiting, if_pos rfl]
        exact List.mem_singleton_self c
      exact of_decide_eq_true (List.mem_filter.mp hmem).2

/-- An accepted insertion whose predecessor is published or the first version. -/
theorem write (h : Threads v ws) (hopen : v.Open w)
    (hroom : (v.changes (w.epoch % 16)).length + 1 < 2 ^ 32)
    (hfits : conflicts w.txn (lastTime (v.head w.dst)).e w.epoch = false)
    (hone : ∀ g, v.head w.dst = some g → g.pending = true →
      (ws.filter fun u => u.dst = w.dst).length ≤ 1) (unset : Nat) :
    Threads (v.addVersion false (isPending (v.head w.dst)) (lastTime (v.head w.dst))
      (lastIndex unset (v.head w.dst)) weight w) (ws ++ [w]) := by
  have hthreads : (((ws ++ [w]).filter fun u => u.dst = w.dst).reverse) =
      w :: (ws.filter fun u => u.dst = w.dst).reverse := by
    rw [List.filter_append, List.filter_cons_of_pos (by simp), List.filter_nil, List.reverse_append]
    rfl
  have hother : ∀ d, d ≠ w.dst → ((ws ++ [w]).filter fun u => u.dst = d).reverse =
      (ws.filter fun u => u.dst = d).reverse := by
    intro d hd
    rw [List.filter_append, List.filter_cons_of_neg (by simp [Ne.symm hd]), List.filter_nil,
      List.append_nil]
  have hslot : ∀ d k, v.waiting d k ≠ [] → v.vbm.endEpoch < v.stamp k :=
    fun d k hne => ((h.thread d).slotted hne).1
  have hle : (lastTime (v.head w.dst)).e ≤ w.epoch := by
    simp only [conflicts, Bool.or_eq_false_iff, decide_eq_false_iff_not, not_lt] at hfits
    exact hfits.2
  obtain ⟨hself, hown⟩ := h.threaded_write (h.thread w.dst) hopen hle
    (fun g hg hp => by
      rw [List.length_reverse]
      exact hone g hg hp) unset
  constructor
  · intro d g hg
    rw [head_addVersion] at hg
    by_cases hd : d = w.dst
    · rw [hd, Function.update_self] at hg
      rw [← Option.some.inj hg]
    · rw [Function.update_of_ne hd] at hg
      exact h.live d g hg
  · intro k c hc
    rcases mem_addVersion hc with ⟨c', hc', he⟩ | ⟨-, he⟩
    · rw [← (Change.erase_eq_erase.mp he).1]
      exact h.plain k c' hc'
    · have hedge : w.dst = c.edge := congrArg Change.edge he
      rw [← hedge]
      exact isDelete_of_lt w.dst_lt
  · intro k
    have hlen : ((v.addVersion false (isPending (v.head w.dst)) (lastTime (v.head w.dst))
        (lastIndex unset (v.head w.dst)) weight w).changes k).length =
          (v.changes k).length + if k = w.epoch % 16 then 1 else 0 := by
      rw [← List.length_map Change.erase, addVersion_erase, List.length_append, List.length_map]
      split_ifs
      · rfl
      · rfl
    rw [hlen]
    split_ifs with hk
    · rw [hk]
      exact hroom
    · exact h.fits k
  · rw [vbm_addVersion]
    exact h.indexed
  · intro d
    by_cases hd : d = w.dst
    · rw [hd, hthreads]
      exact hself
    · rw [hother d hd]
      exact (h.thread d).frame (framed_addVersion hown hd (hslot d))

end Write

section Transform

variable (hne : v.changes k ≠ [])

include hne

/-- The block that Transform pushes. -/
theorem index_transform (S : StdSort) (vb : Nat) : ∃ b,
    (v.transform S k vb).vbm.vbIndex = v.vbm.vbIndex ++ [(v.stamp k, b)] ∧
      b.records = (publishAll S k v).records ∧ (v.transform S k vb).vbm.endEpoch = v.stamp k := by
  unfold View.transform
  rw [if_neg hne]
  exact ⟨_, rfl, rfl, rfl⟩

variable (h : Threads v ws) (hasc : ∀ j, v.changes j ≠ [] → v.stamp k ≤ v.stamp j)

include h hasc

/-- The slots of other epochs wait for later ones. -/
theorem later_of_ne {j : Nat} (hj : v.changes j ≠ []) (hjk : j ≠ k) : v.stamp k < v.stamp j := by
  apply lt_of_le_of_ne (hasc j hj)
  intro heq
  apply hjk
  rw [← (h.slotted hj).2, ← heq, (h.slotted hne).2]

/-- A destination without entries in the slot. -/
theorem framed_transform (S : StdSort) (vb : Nat) (hidle : v.waiting d k = []) :
    Framed v (v.transform S k vb) d := by
  obtain ⟨b, hindex, -, hend⟩ := index_transform hne S vb
  have hnone : ∀ c ∈ v.changes k, c.key ≠ d := fun c hc heq =>
    List.filter_eq_nil_iff.mp hidle c hc (decide_eq_true heq)
  have hlt := (h.slotted hne).1
  constructor
  · rw [head_transform hne]
    exact publishAll_untouched hnone
  · intro j
    rw [waiting, changes_transform]
    split_ifs with hj
    · rw [hj, hidle, List.filter_nil]
    · rfl
  · intro j i c hc hkey
    rw [changes_transform]
    split_ifs with hj
    · rw [hj] at hc
      exact absurd hkey (hnone c (List.mem_of_getElem? hc))
    · exact hc
  · intro j _
    rw [stamp_transform]
  · intro j hj
    rw [hend]
    apply h.later_of_ne hne hasc
    · intro hnil
      exact hj (by rw [waiting, hnil, List.filter_nil])
    · intro heq
      exact hj (heq ▸ hidle)
  · rw [hend]
    exact hlt.le
  · intro e he index
    exact VersionBlockManager.record_push_of_lt hindex (he.trans_lt hlt) index

/-- A destination with entries in the slot. -/
theorem threaded_transform (S : StdSort) (vb : Nat) {us : List Write} (hus : v.Threaded d us)
    (hbusy : v.waiting d k ≠ []) : (v.transform S k vb).Threaded d us := by
  obtain ⟨b, hindex, hrecords, hend⟩ := index_transform hne S vb
  have hlt := (h.slotted hne).1
  have hplain := h.plain k
  have hhead := head_transform (S := S) hne vb
  have hold : ∀ e ≤ v.vbm.endEpoch, ∀ index,
      (v.transform S k vb).vbm.record e index = v.vbm.record e index := fun e he index =>
    VersionBlockManager.record_push_of_lt hindex (he.trans_lt hlt) index
  have hnew : ∀ index, (v.transform S k vb).vbm.record (v.stamp k) index =
      (publishAll S k v).records[index]? := by
    intro index
    rw [← hrecords]
    exact VersionBlockManager.record_push_self hindex
      (fun p hp => (h.indexed p hp).trans hlt.le) index
  have hwaiting : ∀ j, (v.transform S k vb).waiting d j = if j = k then [] else v.waiting d j := by
    intro j
    rw [waiting, changes_transform]
    split_ifs
    · rfl
    · rfl
  -- a version that replaced one is published with the record of that one
  have hdone : ∀ (w u : Write) (us : List Write) (g : Head) (c : Change), v.head d = some g →
      v.stamp k = w.epoch → ((v.waiting d k).filter fun c => c.old.e ≠ 0) = [c] →
      (∀ j, j ≠ k → v.waiting d j = []) → c.old = u.time → c.intra = w.txn.intra →
      (∀ x ∈ u :: us, x.epoch ≤ v.stamp k) →
      (v.transform S k vb).vbm.Leads d u.epoch c.index (us.map Write.time) →
      (v.transform S k vb).Threaded d (w :: u :: us) := by
    intro w u us g c head he hwait hothers replaced intra old leads
    obtain ⟨j, hj, g', r, hpub, htime, hpend, hidx, hr, hr₁, hr₂⟩ :=
      publishAll_replaced hplain S hwait head
    refine .published w (u :: us) g' (hhead ▸ hpub) ?_ hpend ?_ ?_ ?_ ?_
    · rw [htime, he, intra]
      rfl
    · intro j
      rw [hwaiting]
      split_ifs with hj
      · rfl
      · exact hothers j hj
    · have hfits := h.fits k
      omega
    · intro x hx
      rw [hend]
      rcases List.mem_cons.mp hx with rfl | hx
      · exact he.ge
      · exact old x hx
    · refine ⟨r, ?_, ?_, ?_⟩
      · rw [← he, hnew, hidx, hr]
      · rw [hr₁, replaced]
      · rw [hr₂]
        exact leads
  cases hus with
  | unknown _ waiting => exact absurd (waiting k) hbusy
  | published _ _ _ _ _ _ waiting => exact absurd (waiting k) hbusy
  | first w g c head time pending opened entry waiting fresh intra =>
    have hk : k = w.epoch % 16 := by
      by_contra hk
      exact hbusy ((waiting k).trans (if_neg hk))
    have he : v.stamp k = w.epoch := hk ▸ opened.stamp
    have hwait : v.waiting d k = [c] := (waiting k).trans (if_pos hk)
    have hpub := publishAll_first hplain S hwait fresh.1
    rw [head, Option.map_some, freshHead, if_neg (not_not.mpr fresh.2)] at hpub
    refine .published w [] _ (hhead ▸ hpub) ?_ rfl ?_ (Nat.one_lt_two_pow (by decide)) ?_ trivial
    · rw [he, intra]
      rfl
    · intro j
      rw [hwaiting, waiting, ← hk]
      split_ifs <;> rfl
    · intro u hu
      rw [List.mem_singleton.mp hu, hend, he]
  | next w u us g c head time pending opened waiting replaced intra old leads =>
    have hk : k = w.epoch % 16 := by
      by_contra hk
      exact hbusy ((waiting k).trans (if_neg hk))
    have he : v.stamp k = w.epoch := hk ▸ opened.stamp
    have hwait : ((v.waiting d k).filter fun c => c.old.e ≠ 0) = [c] := by
      have hpos : c.old.e ≠ 0 := by
        rw [replaced]
        exact u.epoch_pos.ne'
      rw [waiting, if_pos hk, List.filter_cons_of_pos (by simp [hpos]), List.filter_nil]
    apply hdone w u us g c head he hwait _ replaced intra
    · intro x hx
      exact (old x hx).trans hlt.le
    · apply leads.mono hold (old u List.mem_cons_self)
      intro t ht
      obtain ⟨x, hx, rfl⟩ := List.mem_map.mp ht
      exact old x (List.mem_cons_of_mem u hx)
    · intro j hj
      rw [waiting, if_neg (hk ▸ hj)]
  | both w u g c₁ c₂ head time pending opened opened' waiting fresh replaced intra le =>
    have hpos : c₂.old.e ≠ 0 := by
      rw [replaced]
      exact u.epoch_pos.ne'
    by_cases hku : k = u.epoch % 16
    · have he : v.stamp k = u.epoch := hku ▸ opened'.stamp
      by_cases hkw : k = w.epoch % 16
      · -- both versions belong to the epoch
        have he' : v.stamp k = w.epoch := hkw ▸ opened.stamp
        have hwait : ((v.waiting d k).filter fun c => c.old.e ≠ 0) = [c₂] := by
          rw [waiting, if_pos hku, if_pos hkw, List.singleton_append,
            List.filter_cons_of_neg (by simp [fresh.1]), List.filter_cons_of_pos (by simp [hpos]),
            List.filter_nil]
        apply hdone w u [] g c₂ head he' hwait _ replaced intra
        · intro x hx
          rw [List.mem_singleton.mp hx, he]
        · trivial
        · intro j hj
          rw [waiting, if_neg (hku ▸ hj), if_neg (hkw ▸ hj)]
          rfl
      · -- the second version waits for a later epoch
        have hwait : v.waiting d k = [c₁] := by
          rw [waiting, if_pos hku, if_neg hkw, List.append_nil]
        have hpub := publishAll_first hplain S hwait fresh.1
        rw [head, Option.map_some, freshHead, if_pos fresh.2] at hpub
        have hless : u.epoch < w.epoch := lt_of_le_of_ne le fun heq => hkw (heq ▸ hku)
        refine .next w u [] { g with weight := c₁.weight } c₂ (hhead ▸ hpub) time pending ⟨?_, ?_⟩ ?_
          replaced intra ?_ trivial
        · rw [hend, he]
          exact hless
        · rw [stamp_transform]
          exact opened.stamp
        · intro j
          rw [hwaiting, waiting, ← hku]
          by_cases hj : j = k
          · rw [if_pos hj, hj, if_neg hkw]
          · rw [if_neg hj, if_neg hj, List.nil_append]
        · intro x hx
          rw [List.mem_singleton.mp hx, hend, he]
    · exfalso
      have hkw : k = w.epoch % 16 := by
        by_contra hkw
        apply hbusy
        rw [waiting, if_neg hku, if_neg hkw]
        rfl
      have hfirst : v.changes (u.epoch % 16) ≠ [] := by
        intro hnil
        have hw := waiting (u.epoch % 16)
        rw [View.waiting, hnil, if_pos rfl] at hw
        cases hw
      have hless := h.later_of_ne hne hasc hfirst (Ne.symm hku)
      rw [opened'.stamp, hkw, opened.stamp] at hless
      omega

end Transform

/-- Transform of the oldest pending epoch. -/
theorem transform (h : Threads v ws) (hasc : ∀ j, v.changes j ≠ [] → v.stamp k ≤ v.stamp j)
    (S : StdSort) (vb : Nat) : Threads (v.transform S k vb) ws := by
  by_cases hne : v.changes k = []
  · rw [transform_of_nil hne]
    exact h
  obtain ⟨b, hindex, -, hend⟩ := index_transform hne S vb
  have hlt := (h.slotted hne).1
  have hchanges : ∀ j, ∀ c ∈ (v.transform S k vb).changes j, c ∈ v.changes j := by
    intro j c hc
    rw [changes_transform] at hc
    split_ifs at hc
    · cases hc
    · exact hc
  constructor
  · intro d g hg
    rw [head_transform hne] at hg
    obtain ⟨g₀, hg₀, hdel⟩ := publishAll_deleted hg
    rw [hdel]
    exact h.live d g₀ hg₀
  · intro j c hc
    exact h.plain j c (hchanges j c hc)
  · intro j
    rw [changes_transform]
    split_ifs
    · decide
    · exact h.fits j
  · intro p hp
    rw [hindex] at hp
    rw [hend]
    rcases List.mem_append.mp hp with hp | hp
    · exact (h.indexed p hp).trans hlt.le
    · rw [List.mem_singleton.mp hp]
  · intro d
    by_cases hidle : v.waiting d k = []
    · exact (h.thread d).frame (h.framed_transform hne hasc S vb hidle)
    · exact h.threaded_transform hne hasc S vb (h.thread d) hidle

end Threads

end View

namespace History

variable {S : StdSort} {h h' : History}

/-- Insertions come for epochs above the last version block, whose slot is free or theirs and has
room for another entry; their lookup returns the item of the edge. Transform takes the oldest pending
epoch. -/
def InsertsInOrder (S : StdSort) (h : History) : Op → Prop
  | .insert env w => (h.state.prepare S env).LookupRight w.dst ∧
      h.state.vbm.endEpoch < w.epoch ∧ h.state.SlotFree w.epoch ∧
      (h.state.tmpVb (w.epoch % 16)).entries.length + 1 < 2 ^ 32
  | .delete _ _ => False
  | .transform epoch _ => ∀ k < 16, (h.state.tmpVb k).entries = [] ∨
      epoch ≤ (h.state.tmpVb k).timestamp

/-- An accepted overwrite finds the newest version of its edge published, or no other version. -/
def Linkable (h : History) : Op → Prop
  | .insert _ w => ∀ x ∈ h.state.item w.dst, isTmp x.1.block = true →
      conflicts w.txn x.1.getCoarseC w.epoch = false →
        (h.accepted.filter fun u => u.dst = w.dst).length ≤ 1
  | _ => True

instance (S : StdSort) (h : History) (op : Op) : Decidable (h.InsertsInOrder S op) :=
  match op with
  | .insert _ _ => inferInstanceAs (Decidable (VertexEdges.LookupRight _ _ ∧
      (_ : Nat) < _ ∧ ((_ : Nat) = _ ∨ _ = []) ∧ (_ : Nat) < _))
  | .delete _ _ => isFalse id
  | .transform _ _ => inferInstanceAs (Decidable (∀ k < 16, _ ∨ _))

instance (h : History) (op : Op) : Decidable (h.Linkable op) :=
  match op with
  | .insert _ _ => inferInstanceAs (Decidable (∀ x ∈ _, _ → _ → _))
  | .delete _ _ | .transform _ _ => isTrue trivial

/-- The item of the edge shows its newest version, and the predecessor indices from there lead to
the records of the older versions, one after the other. -/
def ChainRight (h : History) (d : Nat) : Prop :=
  ∀ w us, (h.accepted.filter fun u => u.dst = d).reverse = w :: us →
    ∃ x rs, h.state.item d = some x ∧ x.1.creation = w.time ∧ isTmp x.1.block = false ∧
      h.state.vbm.predecessors us.length x.1.getCoarseC x.2.block = some rs ∧
      rs.map Prod.fst = us.map fun u => ⟨d, u.epoch, u.txn.intra⟩

/-- The versions of every edge hang together. -/
def Woven (h : History) : Prop := h.state.Wf ∧ h.state.view.Threads h.accepted

theorem Woven.step {op : Op} (hi : h.Woven) (hord : h.InsertsInOrder S op) (hok : h.Linkable op)
    (hstep : h.step .fineGrain S op = some h') : h'.Woven := by
  obtain ⟨hwf, ht⟩ := hi
  show h'.state.Wf ∧ h'.state.view.Threads h'.accepted
  cases op with
  | insert env w =>
    obtain ⟨hlook, hlt, hfree, hroom⟩ := hord
    have hfree' : h.state.view.changes (w.epoch % 16) = [] ∨
        h.state.view.stamp (w.epoch % 16) = w.epoch := by
      rw [VertexEdges.changes_eq_nil]
      exact hfree.symm
    have hopen := ht.openTvb hfree'
    obtain ⟨hwf', ⟨-, hacc, hview⟩ | ⟨hfits, hacc, unset, hview⟩⟩ :=
      insert_cases hwf ht.live hlook hstep
    · rw [hacc, hview]
      exact ⟨hwf', hopen⟩
    · rw [hacc, hview]
      have hhead := h.state.view.head_openTvb w.epoch
      rw [← hhead] at hfits ⊢
      refine ⟨hwf', hopen.write ⟨?_, ?_⟩ ?_ hfits ?_ unset⟩
      · rw [View.endEpoch_openTvb]
        exact hlt
      · rw [View.stamp_openTvb, if_pos rfl]
      · rw [View.changes_openTvb_of_free hfree']
        show ((h.state.tmpVb (w.epoch % 16)).entries.map _).length + 1 < _
        rw [List.length_map]
        exact hroom
      · intro g hg hp
        rw [hg] at hfits
        rw [hhead] at hg
        obtain ⟨x, hx, rfl⟩ := Option.map_eq_some_iff.mp hg
        have hlive := ht.live _ _ hg
        apply hok x hx hp
        have htime : View.lastTime (some (headOf x)) = x.1.creation := by
          simp only [View.lastTime, Option.elim_some, hlive, Bool.false_eq_true, if_false]
          rfl
        rw [htime] at hfits
        exact hfits
  | delete env w => exact hord.elim
  | transform epoch vb =>
    obtain ⟨hwf', hacc, hstamp, hview⟩ := transform_cases hwf hstep
    refine ⟨hwf', ?_⟩
    rw [hacc, hview]
    apply ht.transform
    intro j hj
    have hslot := (ht.slotted hj).2
    have hj16 : j < 16 := hslot ▸ Nat.mod_lt _ (by decide)
    rw [hstamp]
    exact (hord j hj16).resolve_left fun hnil => hj (VertexEdges.changes_eq_nil.mpr hnil)

/-- A thread of published versions, as the walk from the item. -/
theorem chainRight_of_threads (ht : h.state.view.Threads h.accepted) {d : Nat}
    (hidle : ∀ k, h.state.view.waiting d k = []) : h.ChainRight d := by
  intro w us hws
  have hthread := ht.thread d
  rw [hws] at hthread
  obtain ⟨g, hg, htime, hp, hleads⟩ : ∃ g, h.state.view.head d = some g ∧ g.time = w.time ∧
      g.pending = false ∧ h.state.vbm.Leads d w.epoch g.index (us.map Write.time) := by
    generalize hvs : w :: us = vs at hthread
    cases hthread with
    | unknown => cases hvs
    | published w' us' g head time pending _ _ _ leads =>
      obtain ⟨rfl, rfl⟩ := List.cons.inj hvs
      exact ⟨g, head, time, pending, leads⟩
    | first u _ _ _ _ _ _ _ waiting =>
      have hnil := hidle (u.epoch % 16)
      rw [waiting, if_pos rfl] at hnil
      cases hnil
    | next u _ _ _ _ _ _ _ _ waiting =>
      have hnil := hidle (u.epoch % 16)
      rw [waiting, if_pos rfl] at hnil
      cases hnil
    | both _ u _ _ _ _ _ _ _ _ waiting =>
      have hnil := hidle (u.epoch % 16)
      rw [waiting, if_pos rfl] at hnil
      cases hnil
  obtain ⟨x, hx, rfl⟩ := Option.map_eq_some_iff.mp hg
  obtain ⟨rs, hrs, hmap⟩ := hleads.predecessors
  have hcoarse : x.1.getCoarseC = w.epoch := congrArg Composite.e htime
  refine ⟨x, rs, hx, htime, hp, ?_, ?_⟩
  · rw [hcoarse]
    rw [List.length_map] at hrs
    exact hrs
  · rw [hmap, List.map_map]
    rfl

/-- After insertions from an empty vertex, with all epochs published in order, the predecessor
indices of every edge lead through all its versions, if no accepted overwrite found a pending version
that had replaced another one. -/
theorem predecessor_chain {malloc tmp : Nat → EdgeWithIndex} {es : List Op}
    (hord : Along (step .fineGrain S) (InsertsInOrder S) ⟨.build [] [] malloc tmp, []⟩ es)
    (hok : Along (step .fineGrain S) Linkable ⟨.build [] [] malloc tmp, []⟩ es)
    (hrun : exec (step .fineGrain S) ⟨.build [] [] malloc tmp, []⟩ es = some h)
    (hdone : ∀ k < 16, (h.state.tmpVb k).entries = []) (d : Nat) : h.ChainRight d := by
  have hstart : Woven ⟨.build [] [] malloc tmp, []⟩ := by
    refine ⟨VertexEdges.wf_build malloc tmp, ?_⟩
    constructor
    · intro d g hg
      cases (head_built d).symm.trans hg
    · intro k c hc
      cases hc
    · intro k
      change 0 < 2 ^ 32
      decide
    · intro p hp
      cases hp
    · exact fun d => .unknown (head_built d) fun _ => rfl
  have hwoven : Woven h := invariant_of_step (fun _ _ _ hi ho hstep => hi.step ho.1 ho.2 hstep)
    hstart (hord.and hok) hrun
  have ht := hwoven.2
  apply chainRight_of_threads ht
  intro k
  by_contra hne
  have hne' : h.state.view.changes k ≠ [] := fun hnil => hne (by rw [View.waiting, hnil]; rfl)
  have hlt : k < 16 := (ht.slotted hne').2 ▸ Nat.mod_lt _ (by decide)
  exact hne' (VertexEdges.changes_eq_nil.mpr (hdone k hlt))

/-- The edge 7 is published, then overwritten twice in an epoch that has another entry before. -/
def shiftedSeven : List Op :=
  [overwriteSeven 1 1 3 Write.epoch_one, .transform 1 0,
    .insert freshEnv ⟨8, 6, 2, ⟨true, 0, 1, 64⟩, Write.eight_lt, Nat.two_pos, Write.two_lt_epoch⟩,
    overwriteSeven 2 2 4 Write.epoch_two, overwriteSeven 2 3 5 Write.epoch_two, .transform 2 0]

/-- The record of the version (2, 2) leads to itself, and not to that of the version (1, 1). -/
theorem chain_shifted : ∃ h, Along (step .fineGrain .stable) (InsertsInOrder .stable) fresh
    shiftedSeven ∧ exec (step .fineGrain .stable) fresh shiftedSeven = some h ∧
      (∀ k < 16, (h.state.tmpVb k).entries = []) ∧ ¬h.ChainRight 7 := by
  obtain ⟨h, hrun, hdone, htimes, hwalk⟩ : ∃ h,
      exec (step .fineGrain .stable) fresh shiftedSeven = some h ∧
        (∀ k < 16, (h.state.tmpVb k).entries = []) ∧
        (h.accepted.filter fun u => u.dst = 7).reverse.map Write.time =
          [⟨2, 3⟩, ⟨2, 2⟩, ⟨1, 1⟩] ∧
        ∀ x ∈ h.state.item 7, (h.state.vbm.predecessors 2 x.1.getCoarseC x.2.block).map
          (List.map fun r => (⟨r.1.block, r.1.index⟩ : Composite)) = some [⟨2, 2⟩, ⟨2, 2⟩] := by
    apply exists_exec
    decide +kernel
  refine ⟨h, by decide +kernel, hrun, hdone, fun hright => ?_⟩
  obtain ⟨w, us, hws⟩ := List.exists_cons_of_ne_nil
    (l := (h.accepted.filter fun u => u.dst = 7).reverse) fun hnil => by simp [hnil] at htimes
  obtain ⟨x, rs, hx, -, -, hrs, hmap⟩ := hright w us hws
  rw [hws, List.map_cons, List.cons.injEq] at htimes
  have hlen : us.length = 2 := by
    rw [← List.length_map (f := Write.time), htimes.2]
    rfl
  have htime : rs.map (fun r => (⟨r.1.block, r.1.index⟩ : Composite)) = us.map Write.time := by
    have h := congrArg (List.map fun e => (⟨e.block, e.index⟩ : Composite)) hmap
    rwa [List.map_map, List.map_map] at h
  rw [hlen] at hrs
  have hstuck := hwalk x hx
  rw [hrs, Option.map_some, htime, htimes.2] at hstuck
  cases hstuck

/-- The edge 7 is overwritten in its first epoch and, once published, in the next one. -/
def linkedSeven : List Op :=
  [overwriteSeven 1 1 3 Write.epoch_one, overwriteSeven 1 2 4 Write.epoch_one, .transform 1 0,
    overwriteSeven 2 1 5 Write.epoch_two, .transform 2 0]

theorem predecessor_chain_seven : ∃ h,
    exec (step .fineGrain .stable) fresh linkedSeven = some h ∧
      (h.accepted.filter fun u => u.dst = 7).reverse.map Write.time =
        [⟨2, 1⟩, ⟨1, 2⟩, ⟨1, 1⟩] ∧ h.ChainRight 7 := by
  obtain ⟨h, hrun, hdone, htimes⟩ : ∃ h,
      exec (step .fineGrain .stable) fresh linkedSeven = some h ∧
        (∀ k < 16, (h.state.tmpVb k).entries = []) ∧
        (h.accepted.filter fun u => u.dst = 7).reverse.map Write.time =
          [⟨2, 1⟩, ⟨1, 2⟩, ⟨1, 1⟩] := by
    apply exists_exec
    decide +kernel
  exact ⟨h, hrun, htimes,
    predecessor_chain (by decide +kernel) (by decide +kernel) hrun hdone 7⟩

end History

end AVBGraph
