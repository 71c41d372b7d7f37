import AVBGraph.Snapshot.ConflictTest
import Mathlib.Data.List.MinMax

namespace AVBGraph

open Framework Function

namespace VertexEdges

variable {S : StdSort} {env : Env} {s t : VertexEdges} {w : Write} {l : Loc} {offset epoch : Nat}

/-- The destinations that have entries in a slot, with their weights and transaction words. -/
def words (s : VertexEdges) (k : Nat) : List (Nat × Nat × Nat) :=
  (s.tmpVb k).entries.map fun y => (y.key, y.weight, y.txn)

/-- The weight and the transaction word that wait for an edge in an epoch. -/
def stored (s : VertexEdges) (epoch d : Nat) : Option (Nat × Nat) :=
  if s.stampAt (epoch % 16) = epoch then (s.words (epoch % 16)).lookup d else none

/-- ChangeVersion on these words. -/
def overwrite (w : Write) (y : Nat × Nat) : Nat × Nat :=
  if y.2 / 2 ^ 63 % 2 = 1 ∨ y.2 % 2 ^ 63 ≤ w.txn.addr % 2 ^ 63 then (w.weight, txnWord w.txn) else y

theorem words_of_tmpVb (h : t.tmpVb = s.tmpVb) : t.words = s.words := by
  funext k
  simp only [words, h]

theorem words_fst (s : VertexEdges) (k : Nat) :
    (s.words k).map Prod.fst = (s.writers .coarse).keys k := by
  unfold words
  rw [List.map_map]
  rfl

theorem stored_of_words (hstamp : t.stampAt = s.stampAt) (hwords : t.words = s.words) :
    t.stored = s.stored := by
  funext e d
  rw [stored, stored, hstamp, hwords]

theorem words_insertVersion (edge block index link lastEpoch oldIntra newIntra : Nat) :
    (s.insertVersion w edge block index link offset lastEpoch oldIntra newIntra).2.words =
      update s.words (w.epoch % 16)
        (s.words (w.epoch % 16) ++ [(clearDelete edge, w.weight, txnWord w.txn)]) := by
  funext k
  by_cases hk : k = w.epoch % 16
  · subst hk
    simp [words, insertVersion, TmpVersionBlock.insertVersion, VersionEntry.key]
  · simp [words, insertVersion, hk]

/-- Entries that change their links only. -/
theorem words_modify {slot i : Nat} {f : VersionEntry → VersionEntry} {vb : TmpVersionBlock}
    (ht : t.tmpVb = update s.tmpVb slot vb) (hvb : vb.entries = (s.tmpVb slot).entries.modify i f)
    (hf : ∀ x, (f x).key = x.key ∧ (f x).weight = x.weight ∧ (f x).txn = x.txn) :
    t.words = s.words := by
  funext k
  simp only [words, ht]
  by_cases hk : k = slot
  · subst hk
    have hid : ∀ x : VersionEntry, ((f x).key, (f x).weight, (f x).txn) =
        id (x.key, x.weight, x.txn) := fun x => by
      obtain ⟨hkey, hweight, htxn⟩ := hf x
      rw [hkey, hweight, htxn, id]
    rw [update_self, hvb, map_modify hid, List.modify_id]
  · rw [update_of_ne hk]

theorem words_linkNext (pending : Bool) (lastEpoch lastIndex idx : Nat) :
    (s.linkNext pending lastEpoch lastIndex epoch idx).words = s.words := by
  unfold linkNext
  split_ifs
  · exact words_modify rfl rfl fun _ => ⟨rfl, rfl, rfl⟩
  · rfl

theorem words_changeVersion {slot index mt : Nat} {vb : TmpVersionBlock}
    (ht : t.tmpVb = update s.tmpVb slot vb)
    (hvb : (s.tmpVb slot).changeVersion w.weight index w.txn mt offset = some vb) :
    t.words = update s.words slot ((s.words slot).modify index (Prod.map id (overwrite w))) := by
  unfold TmpVersionBlock.changeVersion at hvb
  split_ifs at hvb
  obtain rfl := Option.some.inj hvb
  funext k
  by_cases hk : k = slot
  · subst hk
    simp only [words, ht, update_self]
    apply map_modify
    intro x
    dsimp only [VersionEntry.key, VersionEntry.hasReadWriteTxn, overwrite, Prod.map_apply, id]
    simp only [decide_eq_true_eq]
    split_ifs
    · rfl
    · rfl
  · simp only [words, ht, update_of_ne hk]

/-- Opening the slot of an epoch when it is free. -/
theorem stored_openTvb (hfree : s.SlotFree epoch) :
    (s.openTvb .coarse epoch).2.stored = s.stored := by
  have hwords : (s.openTvb .coarse epoch).2.words = s.words := by
    funext k
    exact congrArg (List.map _) (entries_openTvb hfree k)
  have hstamp := (stampAt_openTvb (b := .coarse) (s := s) epoch).2
  funext e d
  rw [stored, stored, hwords, hstamp]
  by_cases hk : e % 16 = epoch % 16
  · rw [hk, update_self]
    by_cases he : epoch = e
    · subst he
      rw [if_pos rfl]
      split_ifs with hs
      · rfl
      · rw [words, hfree.resolve_left hs]
        rfl
    · rw [if_neg he]
      split_ifs with hs
      · rw [words, hfree.resolve_left fun heq => he (heq.symm.trans hs)]
        rfl
      · rfl
  · rw [update_of_ne hk]

/-- A write that changes the words of its own edge only. -/
theorem stored_update (xs : List (Nat × Nat × Nat)) (hstamp : t.stampAt = s.stampAt)
    (hts : s.stampAt (w.epoch % 16) = w.epoch) (hwords : t.words = update s.words (w.epoch % 16) xs)
    (hxs : ∀ d, xs.lookup d = if d = w.dst then
      some (((s.words (w.epoch % 16)).lookup d).elim (w.weight, txnWord w.txn) (overwrite w))
      else (s.words (w.epoch % 16)).lookup d) (e d : Nat) :
    t.stored e d = if e = w.epoch ∧ d = w.dst then
      some ((s.stored e d).elim (w.weight, txnWord w.txn) (overwrite w)) else s.stored e d := by
  unfold stored
  rw [hstamp, hwords]
  by_cases he : e = w.epoch
  · subst he
    rw [if_pos hts, if_pos hts, update_self, hxs]
    simp only [true_and]
  · have hno : ¬(e = w.epoch ∧ d = w.dst) := fun hand => he hand.1
    rw [if_neg hno]
    by_cases hs : s.stampAt (e % 16) = e
    · have hk : e % 16 ≠ w.epoch % 16 := fun heq => he (by rw [← hs, heq, hts])
      rw [update_of_ne hk]
    · rw [if_neg hs, if_neg hs]

/-- The tail of a write folds its words into those of its edge. -/
theorem Owned.stored_writeCoarse (h : Owned s) (hl : l ∈ s.locs) (hk : (s.itemE l).key = w.dst)
    (hts : (s.writers .coarse).stamp (w.epoch % 16) = w.epoch) (hlt : s.vbm.endEpoch < w.epoch)
    (hbuffered : ∀ k, ∀ d ∈ (s.writers .coarse).keys k, ∃ n, (s.writers .coarse).newest d = some n ∧
      n.pending = true ∧ (s.writers .coarse).stamp k ≤ n.epoch) (delete : Bool) (e d : Nat) :
    (s.writeCoarse l offset delete w).2.stored e d =
      if (s.writeCoarse l offset delete w).1 = true ∧ e = w.epoch ∧ d = w.dst then
        some ((s.stored e d).elim (w.weight, txnWord w.txn) (overwrite w))
      else s.stored e d := by
  have hstamp : (s.writeCoarse l offset delete w).2.stampAt = s.stampAt := stampAt_writeCoarse ..
  obtain ⟨-, hr⟩ | ⟨-, -, -, hr⟩ | ⟨-, hsame, -, vb, hvb, hr⟩ |
    ⟨hc, hother, block, index, link, hr⟩ := s.writeCoarse_tail l offset delete w
  · rw [← hr]
    simp
  · rw [← hr]
    simp
  · -- the newest version is of this epoch, so it is pending and names its entry
    rw [← hr] at hstamp ⊢
    obtain ⟨htmp, hblock, hindex⟩ := h.pending_of_epoch hl hk hlt hsame
    have hown : ((s.words (w.epoch % 16)).map Prod.fst)[(s.itemP l).index]? = some w.dst := by
      rw [words_fst, ← hblock]
      exact (h.owner _ _ (h.item_loc hl hk) htmp).2
    simp only [true_and]
    apply stored_update _ hstamp hts
    · rw [words_of_tmpVb (tmpVb_setItemE ..)]
      exact words_changeVersion rfl (hindex ▸ hvb)
    · intro d
      rw [lookup_modify (words_fst s _ ▸ h.single _) hown]
      split_ifs with hd
      · subst hd
        obtain ⟨y, hy, hyd⟩ := List.mem_map.mp (List.mem_of_getElem? hown)
        obtain ⟨x, hx⟩ := Option.isSome_iff_exists.mp
          (List.lookup_isSome_iff.mpr ⟨y, hy, beq_iff_eq.mpr hyd.symm⟩)
        rw [hx]
        rfl
      · rfl
  · rw [← hr] at hstamp ⊢
    have hnew := h.not_buffered hl hk hts hbuffered hc hother
    simp only [true_and]
    apply stored_update (s.words (w.epoch % 16) ++ [(w.dst, w.weight, txnWord w.txn)]) hstamp hts
    · rw [words_of_tmpVb tmpVb_setItem, words_linkNext, words_insertVersion,
        clearDelete_of_lt w.dst_lt]
    · intro d
      rw [List.lookup_append, List.lookup_cons, List.lookup_nil]
      by_cases hd : d = w.dst
      · subst hd
        have hnone : (s.words (w.epoch % 16)).lookup w.dst = none := by
          rw [List.lookup_eq_none_iff]
          intro y hy
          rw [bne_iff_ne]
          intro heq
          rw [← words_fst] at hnew
          exact hnew (List.mem_map.mpr ⟨y, hy, heq.symm⟩)
        rw [hnone, beq_self_eq_true, if_pos rfl]
        rfl
      · rw [beq_false_of_ne hd, if_neg hd, Option.or_none]

section Open

variable (h : Owned s) (hlt : s.vbm.endEpoch < w.epoch) (hfree : s.SlotFree w.epoch)
  (hbuffered : ∀ k, ∀ d ∈ ((s.writers .coarse).openSlot w.epoch).keys k, ∃ n,
    ((s.writers .coarse).openSlot w.epoch).newest d = some n ∧ n.pending = true ∧
      ((s.writers .coarse).openSlot w.epoch).stamp k ≤ n.epoch)

include h hlt hfree hbuffered

theorem Owned.stored_openWrite (hl : l ∈ s.locs) (hk : (s.itemE l).key = w.dst) (delete : Bool)
    (e d : Nat) :
    let r := (s.openTvb .coarse w.epoch).2.writeCoarse l offset delete w
    r.2.stored e d = if r.1 = true ∧ e = w.epoch ∧ d = w.dst then
      some ((s.stored e d).elim (w.weight, txnWord w.txn) (overwrite w)) else s.stored e d := by
  intro r
  obtain ⟨hopen, hwriters⟩ := h.openTvb w.epoch_lt hfree
  have hitems := SameItems.openTvb s w.epoch
  rw [← stored_openTvb hfree]
  apply hopen.stored_writeCoarse
  · rw [hitems.locs]
    exact hl
  · rw [hitems.itemE]
    exact hk
  · rw [hwriters]
    exact update_self ..
  · rw [hitems.vbm]
    exact hlt
  · rw [hwriters]
    exact hbuffered

theorem Owned.stored_found (hlook : s.LookupRight w.dst) (htmp : s.tmpEv < tmpNum) {f : Found}
    (hf : s.findOrAppend w = some f) (e d : Nat) :
    let r := (f.state.openTvb .coarse w.epoch).2.writeCoarse f.loc f.offset false w
    r.2.stored e d = if r.1 = true ∧ e = w.epoch ∧ d = w.dst then
      some ((s.stored e d).elim (w.weight, txnWord w.txn) (overwrite w)) else s.stored e d := by
  obtain ⟨howned, hl, -, hk, htvb, hvbm, hwriters⟩ := h.findOrAppend hlook htmp hf
  have hstored : f.state.stored = s.stored :=
    stored_of_words (stampAt_of_tmpVb htvb) (words_of_tmpVb htvb)
  rw [← hstored]
  apply howned.stored_openWrite _ _ _ hl hk
  · rw [hvbm]
    exact hlt
  · unfold SlotFree
    rw [stampAt_of_tmpVb htvb, htvb]
    exact hfree
  · rcases hwriters with hwriters | ⟨hnone, -, hwriters⟩
    · rw [hwriters]
      exact hbuffered
    · rw [hwriters]
      exact Writers.buffered_adding hnone hbuffered

end Open

section Transform

variable {slot vb n : Nat}

theorem words_changeLast (link : VersionLink) : (s.changeLast link vb).words = s.words :=
  words_modify rfl rfl fun _ => ⟨rfl, rfl, rfl⟩

theorem words_transform (ht : s.transform .coarse S slot vb = some (n, t)) {k : Nat}
    (hk : k ≠ slot) : t.words k = s.words k := by
  unfold VertexEdges.transform at ht
  split_ifs at ht
  · obtain ⟨-, rfl⟩ := Prod.mk.inj (Option.some.inj ht)
    rfl
  · obtain ⟨p, hp, ht⟩ := Option.map_eq_some_iff.mp ht
    obtain ⟨-, rfl⟩ := Prod.mk.inj ht
    have hsame := publishAll_const (F := words) (fun _ _ _ => words_of_tmpVb tmpVb_setItem)
      (fun _ link _ => words_changeLast link) hp
    rw [← hsame]
    show (update p.state.tmpVb slot _ k).entries.map _ = (p.state.tmpVb k).entries.map _
    rw [update_of_ne hk]

/-- Transform leaves what waits in other epochs alone. -/
theorem stored_transform (ht : s.transform .coarse S slot vb = some (n, t))
    (he : s.stampAt slot ≠ epoch) (d : Nat) : t.stored epoch d = s.stored epoch d := by
  unfold stored
  rw [stampAt_transform ht]
  split_ifs with hs
  · rw [words_transform ht fun heq => he (heq ▸ hs)]
  · rfl

theorem wf_transform (h : Wf s) (ht : s.transform .coarse S slot vb = some (n, t)) : Wf t := by
  obtain ⟨n', s', t', hs, ht', halike⟩ := (Alike.refl h).transform (S := S) .coarse slot vb
  rw [ht, Option.some.injEq, Prod.mk.injEq] at hs
  rw [hs.2]
  exact halike.left

/-- Transform in the middle of its loops: the entries `done` have handed over their weights. -/
structure Carried (s : VertexEdges) (slot : Nat) (done : List Nat) (p : Progress) : Prop where
  wf : Wf p.state
  tmpVb : p.state.tmpVb = s.tmpVb
  weight : ∀ i ∈ done, ∃ x, p.state.item (s.entry slot i).key = some x ∧
    x.2.e = (s.entry slot i).weight

variable {done : List Nat} {p q : Progress} {i : Nat}

theorem Carried.step (hp : Carried s slot done p) (hi : i < (s.tmpVb slot).entries.length)
    (hnew : ∀ j ∈ done, (s.entry slot j).key ≠ (s.entry slot i).key) :
    p.state.entry slot i = s.entry slot i ∧ ∃ l, p.state.locate (s.entry slot i) = some l ∧
      ∀ y : Item, y.1.key = (p.state.itemE l).key → y.2.e = (s.entry slot i).weight →
        ∀ edgeNum records,
          Carried s slot (done ++ [i]) ⟨p.state.setItem l y, edgeNum, records⟩ := by
  have hentry : p.state.entry slot i = s.entry slot i := by
    rw [entry, hp.tmpVb]
    rfl
  have hmem : s.entry slot i ∈ (p.state.tmpVb slot).entries := by
    rw [hp.tmpVb, entry, List.getD_eq_getElem _ _ hi]
    exact List.getElem_mem hi
  obtain ⟨l, hl, hloc, hkey⟩ := (hp.wf.placed slot _ hmem).locate hp.wf.rep
  refine ⟨hentry, l, hloc, fun y hy hweight edgeNum records => ?_⟩
  have hitem : ∀ d, (p.state.setItem l y).item d =
      if d = (s.entry slot i).key then some y else p.state.item d := by
    intro d
    rw [hp.wf.rep.item_setItem hl hy, hkey]
  refine ⟨hp.wf.setItem hy, tmpVb_setItem.trans hp.tmpVb, fun j hj => ?_⟩
  rw [hitem]
  rcases List.mem_append.mp hj with hj | hj
  · rw [if_neg (hnew j hj)]
    exact hp.weight j hj
  · obtain rfl := List.mem_singleton.mp hj
    rw [if_pos rfl]
    exact ⟨y, rfl, hweight⟩

/-- After Transform of an epoch whose entries have no later version linked, the items carry the
weights that waited for them. -/
theorem weight_transform (h : Wf s) (hsingle : ((s.writers .coarse).keys slot).Nodup)
    (hunlinked : ∀ y ∈ (s.tmpVb slot).entries, y.link.hasNextVB = false)
    (ht : s.transform .coarse S slot vb = some (n, t)) {d weight txn : Nat}
    (hd : (s.words slot).lookup d = some (weight, txn)) :
    ∃ x, t.item d = some x ∧ x.2.e = weight := by
  obtain ⟨i, hi, hkey, hweight⟩ : ∃ i < (s.tmpVb slot).entries.length, (s.entry slot i).key = d ∧
      (s.entry slot i).weight = weight := by
    obtain ⟨l₁, l₂, hwords, -⟩ := List.lookup_eq_some_iff.mp hd
    have hmem : (d, weight, txn) ∈ s.words slot := by
      rw [hwords]
      exact List.mem_append_right _ List.mem_cons_self
    obtain ⟨y, hy, heq⟩ := List.mem_map.mp hmem
    obtain ⟨i, hi, rfl⟩ := List.getElem_of_mem hy
    rw [Prod.mk.injEq, Prod.mk.injEq] at heq
    refine ⟨i, hi, ?_⟩
    rw [entry, List.getD_eq_getElem _ _ hi]
    exact ⟨heq.1, heq.2.1⟩
  have hne : (s.tmpVb slot).entries ≠ [] := List.ne_nil_of_length_pos (by omega)
  have hnext : ∀ j < (s.tmpVb slot).entries.length, (s.entry slot j).link.hasNextVB = false := by
    intro j hj
    apply hunlinked
    rw [entry, List.getD_eq_getElem _ _ hj]
    exact List.getElem_mem hj
  unfold VertexEdges.transform at ht
  rw [if_neg hne] at ht
  obtain ⟨p, hp, ht⟩ := Option.map_eq_some_iff.mp ht
  obtain ⟨-, rfl⟩ := Prod.mk.inj ht
  obtain ⟨done, hdone, hcarried⟩ := publishAll_entries (Q := Carried s slot)
    ⟨h, rfl, fun j hj => absurd hj List.not_mem_nil⟩
    (fun done p j q hp hj hnew hq => by
      obtain ⟨hentry, l, hloc, hset⟩ := hp.step hj hnew
      unfold VertexEdges.publishFresh at hq
      simp only [hloc, hentry, hnext j hj, Option.map_some, Option.some.injEq, Bool.false_eq_true,
        if_false] at hq
      rw [← hq]
      exact hset _ rfl rfl _ _)
    (fun third done p j q hp hj hnew hq => by
      obtain ⟨hentry, l, hloc, hset⟩ := hp.step hj hnew
      unfold VertexEdges.publishCoarse at hq
      simp only [hloc, hentry, hnext j hj, Option.map_some, Option.some.injEq, Bool.false_eq_true,
        false_and, if_false] at hq
      rw [← hq]
      exact hset _ rfl rfl _ _)
    hsingle hp
  obtain ⟨x, hx, hxw⟩ := hcarried.weight i ((hdone i).mpr hi)
  rw [hkey] at hx
  exact ⟨x, hx, hxw.trans hweight⟩

end Transform

end VertexEdges

/-- The accepted writes of an epoch on an edge, oldest first. -/
def writesOf (log : List Applied) (epoch d : Nat) : List Write :=
  (log.filter fun o => o.write.epoch = epoch ∧ o.write.dst = d).map Applied.write

theorem writesOf_concat (log : List Applied) (o : Applied) (epoch d : Nat) :
    writesOf (log ++ [o]) epoch d = if o.write.epoch = epoch ∧ o.write.dst = d then
      writesOf log epoch d ++ [o.write] else writesOf log epoch d := by
  unfold writesOf
  rw [List.filter_append, List.map_append]
  by_cases hsame : o.write.epoch = epoch ∧ o.write.dst = d
  · simp [hsame]
  · simp [hsame]

/-- Of the writes whose transactions have the greatest address, the last. -/
def greatest (ws : List Write) : Option Write :=
  ws.reverse.argmax fun w => w.txn.addr % 2 ^ 63

theorem greatest_concat (ws : List Write) (w : Write) : greatest (ws ++ [w]) =
    some ((greatest ws).elim w fun v =>
      if v.txn.addr % 2 ^ 63 ≤ w.txn.addr % 2 ^ 63 then w else v) := by
  unfold greatest
  rw [List.reverse_append, List.reverse_singleton, List.singleton_append, List.argmax_cons]
  cases ws.reverse.argmax fun w => w.txn.addr % 2 ^ 63 with
  | none => rfl
  | some v =>
    show (if _ < _ then some v else some w) = some (if _ ≤ _ then w else v)
    by_cases hle : v.txn.addr % 2 ^ 63 ≤ w.txn.addr % 2 ^ 63
    · rw [if_pos hle, if_neg (not_lt.mpr hle)]
    · rw [if_neg hle, if_pos (not_le.mp hle)]

theorem greatest_eq_none {ws : List Write} : greatest ws = none ↔ ws = [] := by
  unfold greatest
  rw [List.argmax_eq_none, List.reverse_eq_nil_iff]

theorem mem_of_greatest {ws : List Write} {v : Write} (h : greatest ws = some v) : v ∈ ws :=
  List.mem_reverse.mp (List.argmax_mem h)

theorem txnWord_of_writeOnly {txn : Transaction} (h : txn.writeOnly = true) :
    txnWord txn = txn.addr % 2 ^ 63 := by
  unfold txnWord
  rw [h, if_pos rfl, Nat.add_zero]

/-- ChangeVersion keeps the words of the greatest address. -/
theorem overwrite_greatest {v w : Write} (hv : v.txn.writeOnly = true) :
    VertexEdges.overwrite w (v.weight, txnWord v.txn) =
      if v.txn.addr % 2 ^ 63 ≤ w.txn.addr % 2 ^ 63 then (w.weight, txnWord w.txn)
      else (v.weight, txnWord v.txn) := by
  have hlt : v.txn.addr % 2 ^ 63 < 2 ^ 63 := Nat.mod_lt _ (by decide)
  have hzero : v.txn.addr % 2 ^ 63 / 2 ^ 63 % 2 ≠ 1 := by
    rw [Nat.div_eq_of_lt hlt]
    decide
  unfold VertexEdges.overwrite
  rw [txnWord_of_writeOnly hv, Nat.mod_mod]
  simp only [hzero, false_or]

namespace Watched

variable {S : StdSort} {env : Env} {h h' : Watched} {epoch : Nat}

def WriteOnly (epoch : Nat) (log : List Applied) : Prop :=
  ∀ o ∈ log, o.write.epoch = epoch → o.write.txn.writeOnly = true

/-- While the epoch is open, the words that wait for an edge are those of the write with the
greatest address. -/
def Folded (epoch : Nat) (h : Watched) : Prop :=
  h.trace.state.vbm.endEpoch < epoch → WriteOnly epoch h.trace.log → ∀ d,
    h.trace.state.stored epoch d =
      (greatest (writesOf h.trace.log epoch d)).map fun v => (v.weight, txnWord v.txn)

theorem Sound.stored_run (hs : Sound .coarse h) {o : Applied} (hord : h.Orderly S (o.op env))
    {r : WriteResult} (hr : o.run .coarse S env h.trace.state = some r) :
    r.state.vbm = h.trace.state.vbm ∧ ∀ e d, r.state.stored e d =
      if r.accepted = true ∧ e = o.write.epoch ∧ d = o.write.dst then
        some ((h.trace.state.stored e d).elim (o.write.weight, txnWord o.write.txn)
          (VertexEdges.overwrite o.write))
      else h.trace.state.stored e d := by
  obtain ⟨delete, w⟩ := o
  obtain ⟨hlook, hend, hfree, -⟩ : (h.trace.state.prepare S env).LookupRight w.dst ∧
      h.trace.state.vbm.endEpoch < w.epoch ∧ h.trace.state.SlotFree w.epoch ∧
      conflicts w.txn (max h.oldest env.oldest) w.epoch = false := by
    cases delete with
    | false => exact hord
    | true => exact hord
  obtain ⟨hwf, hfree', -, hopen⟩ := hs.prepared S env hfree
  have howned := (hs.owned rfl).prepare hwf
  have hend' : (h.trace.state.prepare S env).vbm.endEpoch < w.epoch := by
    rw [VertexEdges.vbm_prepare]
    exact hend
  have htmp : (h.trace.state.prepare S env).tmpVb = h.trace.state.tmpVb :=
    VertexEdges.tmpVb_prepare
  rw [← VertexEdges.stored_of_words (VertexEdges.stampAt_of_tmpVb htmp)
    (VertexEdges.words_of_tmpVb htmp)]
  cases delete with
  | false =>
    have hr : h.trace.state.insertEdgeBlock .coarse S env w = some r := hr
    refine ⟨(VertexEdges.insert_seen 0 hs.wf.rep hlook hr).2.1, ?_⟩
    obtain ⟨f, hf, rfl⟩ := Option.map_eq_some_iff.mp hr
    exact howned.stored_found hend' hfree' hopen.buffered hlook
      (VertexEdges.tmpEv_prepare_lt hs.wf.rep) hf
  | true =>
    have hr : h.trace.state.deleteEdgeBlock .coarse S env w = some r := hr
    refine ⟨(VertexEdges.delete_seen 0 hs.wf.rep hlook hr).2.1, ?_⟩
    unfold VertexEdges.deleteEdgeBlock at hr
    simp only at hr
    cases hm : (h.trace.state.prepare S env).m w.dst with
    | true =>
      obtain ⟨l, hl, offset, hget, hk, -⟩ := hlook hm
      rw [hm, if_pos rfl, hget] at hr
      obtain rfl := Option.some.inj hr
      exact howned.stored_openWrite hend' hfree' hopen.buffered hl hk true
    | false =>
      rw [hm, if_neg Bool.false_ne_true] at hr
      obtain rfl := Option.some.inj hr
      intro e d
      rw [if_neg fun hand => Bool.false_ne_true hand.1]

theorem Folded.write (hf : Folded epoch h) (hs : Sound .coarse h) {o : Applied}
    (hord : h.Orderly S (o.op env)) {r : WriteResult}
    (hr : o.run .coarse S env h.trace.state = some r) (oldest : Nat) :
    Folded epoch ⟨h.trace.record o.delete o.write r, oldest⟩ := by
  obtain ⟨hvbm, hstored⟩ := hs.stored_run hord hr
  intro hopen hwo d
  have hopen : r.state.vbm.endEpoch < epoch := hopen
  have hlog : (h.trace.record o.delete o.write r).log =
      if r.accepted then h.trace.log ++ [o] else h.trace.log := rfl
  show r.state.stored epoch d = (greatest (writesOf (h.trace.record ..).log epoch d)).map _
  rw [hstored]
  rw [hlog] at hwo ⊢
  rw [hvbm] at hopen
  cases hacc : r.accepted with
  | false =>
    rw [hacc] at hwo
    rw [if_neg fun hand => Bool.false_ne_true hand.1, if_neg Bool.false_ne_true]
    exact hf hopen hwo d
  | true =>
    rw [hacc, if_pos rfl] at hwo
    have hold : WriteOnly epoch h.trace.log := fun o' ho' => hwo o' (List.mem_append_left _ ho')
    rw [if_pos rfl, hf hopen hold d]
    simp only [true_and]
    rw [writesOf_concat]
    by_cases hsame : o.write.epoch = epoch ∧ o.write.dst = d
    · obtain ⟨rfl, rfl⟩ := hsame
      rw [if_pos ⟨rfl, rfl⟩, if_pos ⟨rfl, rfl⟩, greatest_concat]
      cases hg : greatest (writesOf h.trace.log o.write.epoch o.write.dst) with
      | none => rfl
      | some v =>
        obtain ⟨o', ho', rfl⟩ := List.mem_map.mp (mem_of_greatest hg)
        obtain ⟨hmem, hpo⟩ := List.mem_filter.mp ho'
        have hv := hold o' hmem (of_decide_eq_true hpo).1
        rw [Option.map_some, Option.elim_some, overwrite_greatest hv, Option.elim_some,
          Option.map_some]
        split_ifs
        · rfl
        · rfl
    · rw [if_neg fun hand => hsame ⟨hand.1.symm, hand.2.symm⟩, if_neg hsame]

theorem Folded.transform (hf : Folded epoch h) (hs : Sound .coarse h) {e vb : Nat} {t : Trace}
    (hstep : h.trace.step .coarse S (.transform e vb) = some t) (oldest : Nat) :
    Folded epoch ⟨t, oldest⟩ := by
  rw [Trace.step] at hstep
  split_ifs at hstep with hstamp
  obtain ⟨⟨n, s⟩, ht, rfl⟩ := Option.map_eq_some_iff.mp hstep
  by_cases hne : (h.trace.state.tmpVb (e % 16)).entries = []
  · unfold VertexEdges.transform at ht
    rw [if_pos hne] at ht
    obtain ⟨-, rfl⟩ := Prod.mk.inj (Option.some.inj ht)
    exact hf
  · have hend : s.vbm.endEpoch = e := by
      have ht := ht
      unfold VertexEdges.transform at ht
      rw [if_neg hne] at ht
      obtain ⟨u, -, ht⟩ := Option.map_eq_some_iff.mp ht
      obtain ⟨-, rfl⟩ := Prod.mk.inj ht
      exact hstamp
    have habove : h.trace.state.vbm.endEpoch < e := by
      have habove := (hs.owned rfl).above (e % 16) fun hnil => hne (VertexEdges.keys_eq_nil.mp hnil)
      have hstamp : (h.trace.state.writers .coarse).stamp (e % 16) = e := hstamp
      rwa [hstamp] at habove
    intro hopen hwo d
    have hopen : e < epoch := hend ▸ hopen
    have hother : h.trace.state.stampAt (e % 16) ≠ epoch := by
      have hstamp : h.trace.state.stampAt (e % 16) = e := hstamp
      omega
    exact (VertexEdges.stored_transform ht hother d).trans (hf (habove.trans hopen) hwo d)

theorem folded_run {s : VertexEdges} (hs : s.Built) {es : List Op}
    (hord : Along (Watched.step .coarse S) (Orderly S) ⟨⟨s, []⟩, 0⟩ es)
    (hok : Along (Watched.step .coarse S) (Tested .coarse S) ⟨⟨s, []⟩, 0⟩ es)
    (hrun : exec (Watched.step .coarse S) ⟨⟨s, []⟩, 0⟩ es = some h) (epoch : Nat) :
    Sound .coarse h ∧ Folded epoch h := by
  have hstart : Folded epoch ⟨⟨s, []⟩, 0⟩ := by
    intro _ _ d
    have hnil : s.words (epoch % 16) = [] := by
      unfold VertexEdges.words
      rw [hs.entries]
      rfl
    show s.stored epoch d = none
    unfold VertexEdges.stored
    rw [hnil, List.lookup_nil]
    exact ite_self _
  have hstep : ∀ h op h', (Sound .coarse h ∧ Folded epoch h) →
      (h.Orderly S op ∧ h.Tested .coarse S op) → Watched.step .coarse S h op = some h' →
        Sound .coarse h' ∧ Folded epoch h' := by
    rintro h op h' ⟨hsound, hfolded⟩ ⟨hord, hok⟩ hstep
    refine ⟨hsound.step hord hok hstep, ?_⟩
    obtain ⟨t, ht, rfl⟩ := Option.map_eq_some_iff.mp hstep
    cases op with
    | insert env w =>
      obtain ⟨r, hr, rfl⟩ := Option.map_eq_some_iff.mp ht
      exact hfolded.write (o := ⟨false, w⟩) hsound hord hr _
    | delete env w =>
      obtain ⟨r, hr, rfl⟩ := Option.map_eq_some_iff.mp ht
      exact hfolded.write (o := ⟨true, w⟩) hsound hord hr _
    | transform e vb => exact hfolded.transform hsound ht _
  exact invariant_of_step hstep ⟨Sound.start hs, hstart⟩ (hord.and hok) hrun

/-- Transform of other epochs leaves the entries of this one to wait. -/
theorem waiting {ts : List (Nat × Nat)} (hts : ∀ p ∈ ts, p.1 ≠ epoch) (hwf : h.trace.state.Wf)
    (hstamp : h.trace.state.stampAt (epoch % 16) = epoch)
    (hpub : exec (Watched.step .coarse S) h (ts.map fun p => .transform p.1 p.2) = some h') :
    h'.trace.state.Wf ∧ h'.trace.state.words (epoch % 16) = h.trace.state.words (epoch % 16) := by
  induction ts generalizing h with
  | nil =>
    obtain rfl : h = h' := by simpa [exec] using hpub
    exact ⟨hwf, rfl⟩
  | cons p ts ih =>
    obtain ⟨u, hu, hpub⟩ := Option.bind_eq_some_iff.mp hpub
    obtain ⟨t, ht, rfl⟩ := Option.map_eq_some_iff.mp hu
    rw [Trace.step] at ht
    split_ifs at ht with hp
    obtain ⟨⟨n, s⟩, htr, rfl⟩ := Option.map_eq_some_iff.mp ht
    have hother : epoch % 16 ≠ p.1 % 16 := by
      intro heq
      apply hts p List.mem_cons_self
      rw [← hp, ← heq]
      exact hstamp
    obtain ⟨hwf', hwords⟩ := ih (fun q hq => hts q (List.mem_cons_of_mem p hq))
      (VertexEdges.wf_transform hwf htr)
      ((congrFun (VertexEdges.stampAt_transform htr) _).trans hstamp) hpub
    exact ⟨hwf', hwords.trans (VertexEdges.words_transform htr hother)⟩

/-- The last accepted write of the epoch on the edge is an insertion with this weight. -/
def LastInserted (log : List Applied) (epoch d weight : Nat) : Prop :=
  ∃ w, (log.filter fun o => o.write.epoch = epoch ∧ o.write.dst = d).getLast? = some ⟨false, w⟩ ∧
    w.weight = weight

/-- Write-only transactions of one epoch, then Transform of other epochs and of this one: each
edge carries the weight of its last writer exactly if the transaction with the greatest address
wrote that weight. -/
theorem last_writer_iff {s : VertexEdges} (hs : s.Built) {es : List Op} {ts : List (Nat × Nat)}
    {vb : Nat} {h₁ h₂ : Watched}
    (hord : Along (step .coarse S) (Orderly S) ⟨⟨s, []⟩, 0⟩ es)
    (hok : Along (step .coarse S) (Tested .coarse S) ⟨⟨s, []⟩, 0⟩ es)
    (hrun : exec (step .coarse S) ⟨⟨s, []⟩, 0⟩ es = some h)
    (hopen : h.trace.state.vbm.endEpoch < epoch) (hwo : WriteOnly epoch h.trace.log)
    (hts : ∀ p ∈ ts, p.1 ≠ epoch)
    (hpub : exec (step .coarse S) h (ts.map fun p => .transform p.1 p.2) = some h₁)
    (hlast : ∀ y ∈ (h₁.trace.state.tmpVb (epoch % 16)).entries, y.link.hasNextVB = false)
    (hstep : h₁.step .coarse S (.transform epoch vb) = some h₂) :
    (∀ d weight, LastInserted h.trace.log epoch d weight →
        ∃ x, h₂.trace.state.item d = some x ∧ x.2.e = weight) ↔
      ∀ d weight, LastInserted h.trace.log epoch d weight →
        ∀ v ∈ greatest (writesOf h.trace.log epoch d), v.weight = weight := by
  obtain ⟨hsound, hfolded⟩ := folded_run hs hord hok hrun epoch
  have hcarried : ∀ d weight, LastInserted h.trace.log epoch d weight →
      ∃ v, greatest (writesOf h.trace.log epoch d) = some v ∧
        ∃ x, h₂.trace.state.item d = some x ∧ x.2.e = v.weight := by
    rintro d weight ⟨w, hw, -⟩
    have hne : writesOf h.trace.log epoch d ≠ [] := by
      intro hnil
      rw [List.map_eq_nil_iff.mp hnil] at hw
      cases hw
    obtain ⟨v, hv⟩ := Option.ne_none_iff_exists'.mp fun hnone => hne (greatest_eq_none.mp hnone)
    have hstored := hfolded hopen hwo d
    rw [hv, Option.map_some] at hstored
    unfold VertexEdges.stored at hstored
    split_ifs at hstored with hstamp
    obtain ⟨hwf, hwords⟩ := waiting hts hsound.wf hstamp hpub
    rw [← hwords] at hstored
    obtain ⟨t, ht, rfl⟩ := Option.map_eq_some_iff.mp hstep
    rw [Trace.step] at ht
    split_ifs at ht
    obtain ⟨⟨n, u⟩, htr, rfl⟩ := Option.map_eq_some_iff.mp ht
    refine ⟨v, hv, VertexEdges.weight_transform hwf ?_ hlast htr hstored⟩
    rw [← VertexEdges.words_fst, hwords, VertexEdges.words_fst]
    exact (hsound.owned rfl).single _
  constructor
  · intro hall d weight hd v hv
    obtain ⟨v', hv', x, hx, hxv⟩ := hcarried d weight hd
    obtain ⟨y, hy, hyw⟩ := hall d weight hd
    rw [hx] at hy
    rw [hv'] at hv
    rw [← Option.some.inj hv, ← hxv, ← hyw, Option.some.inj hy]
  · intro hall d weight hd
    obtain ⟨v, hv, x, hx, hxv⟩ := hcarried d weight hd
    exact ⟨x, hx, hxv.trans (hall d weight hd v hv)⟩

/-- A write-only transaction of epoch 1 at this address writes edge 7. -/
def writeFrom (addr weight : Nat) : Write :=
  ⟨7, weight, 1, ⟨true, 0, 0, addr⟩, Write.seven_lt, Nat.one_pos, Write.one_lt_epoch⟩

/-- Two such transactions, one after the other. -/
def writesFrom (first second : Nat) : List Op :=
  [.insert History.freshEnv (writeFrom first 5), .insert History.freshEnv (writeFrom second 6)]

private theorem exists_writesFrom (first second weight : Nat)
    (h : (exec (step .coarse .stable) ⟨⟨History.fresh.state, []⟩, 0⟩ (writesFrom first second)).any
      (fun h => h.trace.log = [⟨false, writeFrom first 5⟩, ⟨false, writeFrom second 6⟩] ∧
        h.trace.state.vbm.endEpoch < 1 ∧
        (∀ y ∈ (h.trace.state.tmpVb 1).entries, y.link.hasNextVB = false) ∧
        ((h.step .coarse .stable (.transform 1 100)).any fun h₂ =>
          (h₂.trace.state.item 7).map (fun x => x.2.e) = some weight) = true) = true) :
    ∃ h h₂, exec (step .coarse .stable) ⟨⟨History.fresh.state, []⟩, 0⟩ (writesFrom first second) =
        some h ∧
      h.trace.log = [⟨false, writeFrom first 5⟩, ⟨false, writeFrom second 6⟩] ∧
      h.trace.state.vbm.endEpoch < 1 ∧
      (∀ y ∈ (h.trace.state.tmpVb 1).entries, y.link.hasNextVB = false) ∧
      h.step .coarse .stable (.transform 1 100) = some h₂ ∧
      (h₂.trace.state.item 7).map (fun x => x.2.e) = some weight := by
  obtain ⟨h, hrun, hlog, hend, hnext, hstep⟩ := exists_exec h
  obtain ⟨h₂, hstep, hitem⟩ := (Option.any_eq_true ..).mp hstep
  exact ⟨h, h₂, hrun, hlog, hend, hnext, hstep, of_decide_eq_true hitem⟩

/-- The second transaction lies above the first. -/
theorem last_writer_iff_above : ∃ h h₂,
    exec (step .coarse .stable) ⟨⟨History.fresh.state, []⟩, 0⟩ (writesFrom 64 128) = some h ∧
    h.step .coarse .stable (.transform 1 100) = some h₂ ∧
    ((∀ d weight, LastInserted h.trace.log 1 d weight →
        ∃ x, h₂.trace.state.item d = some x ∧ x.2.e = weight) ↔
      ∀ d weight, LastInserted h.trace.log 1 d weight →
        ∀ v ∈ greatest (writesOf h.trace.log 1 d), v.weight = weight) := by
  obtain ⟨h, h₂, hrun, hlog, hend, hnext, hstep, -⟩ :=
    exists_writesFrom 64 128 6 (by decide +kernel)
  have hbuilt : History.fresh.state.Built := ⟨[], [], _, _, rfl, List.Pairwise.nil, by simp⟩
  have hwo : WriteOnly 1 h.trace.log := by
    rw [hlog]
    unfold WriteOnly
    decide
  have hnone : ∀ p ∈ ([] : List (Nat × Nat)), p.1 ≠ 1 := fun _ hp => absurd hp List.not_mem_nil
  refine ⟨h, h₂, hrun, hstep, ?_⟩
  exact last_writer_iff hbuilt (by decide +kernel) (by decide +kernel) hrun hend hwo hnone rfl hnext
    hstep

/-- The second transaction lies below the first: edge 7 keeps the weight of the first. -/
theorem last_writer_lost : ∃ h h₂,
    Along (step .coarse .stable) (Orderly .stable) ⟨⟨History.fresh.state, []⟩, 0⟩
      (writesFrom 128 64) ∧
    exec (step .coarse .stable) ⟨⟨History.fresh.state, []⟩, 0⟩ (writesFrom 128 64) = some h ∧
    WriteOnly 1 h.trace.log ∧ h.step .coarse .stable (.transform 1 100) = some h₂ ∧
    ¬∀ d weight, LastInserted h.trace.log 1 d weight →
      ∃ x, h₂.trace.state.item d = some x ∧ x.2.e = weight := by
  obtain ⟨h, h₂, hrun, hlog, -, -, hstep, hitem⟩ :=
    exists_writesFrom 128 64 5 (by decide +kernel)
  refine ⟨h, h₂, by decide +kernel, hrun, ?_, hstep, fun hall => ?_⟩
  · rw [hlog]
    unfold WriteOnly
    decide
  · obtain ⟨x, hx, hweight⟩ := hall 7 6 ⟨writeFrom 64 6, by rw [hlog]; decide, rfl⟩
    rw [hx, Option.map_some, hweight] at hitem
    cases hitem

end Watched

end AVBGraph
