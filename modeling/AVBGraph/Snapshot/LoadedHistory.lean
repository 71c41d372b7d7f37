import AVBGraph.Snapshot.NewestState
import AVBGraph.Vertex.Alike

namespace AVBGraph

open Framework

namespace View

variable {S : StdSort} {v : View} {slot epoch d : Nat} {w : Write}

/-- Epochs are published in ascending order: pending ones are above the last version block. -/
structure Chained (v : View) : Prop where
  slot : ∀ k, v.changes k ≠ [] → v.stamp k % 16 = k ∧ v.vbm.endEpoch < v.stamp k
  linked : Linked v.vbm.endEpoch v.vbm.vbs
  block_lt : ∀ vb ∈ v.vbm.vbs, ∀ r ∈ vb.records, r.1.block < 2 ^ 31
  old_lt : ∀ k, ∀ c ∈ v.changes k, c.old.e < 2 ^ 31

namespace Chained

theorem merge (h : Chained v) {u : View} (hstamp : u.stamp = v.stamp)
    (hchanges : u.changes = v.changes) (hvbm : u.vbm = v.vbm) : Chained u where
  slot := by
    rw [hchanges, hstamp, hvbm]
    exact h.slot
  linked := by
    rw [hvbm]
    exact h.linked
  block_lt := by
    rw [hvbm]
    exact h.block_lt
  old_lt := by
    rw [hchanges]
    exact h.old_lt

theorem openTvb (h : Chained v)
    (hfree : v.changes (epoch % 16) = [] ∨ v.stamp (epoch % 16) = epoch) :
    Chained (v.openTvb epoch) where
  slot k hk := by
    rw [changes_openTvb_of_free hfree] at hk
    rw [stamp_openTvb_of_free hfree hk, endEpoch_openTvb]
    exact h.slot k hk
  linked := by
    rw [endEpoch_openTvb, vbs_openTvb]
    exact h.linked
  block_lt := by
    rw [vbs_openTvb]
    exact h.block_lt
  old_lt := by
    rw [changes_openTvb_of_free hfree]
    exact h.old_lt

theorem addVersion (h : Chained v) (hlt : v.vbm.endEpoch < w.epoch)
    (hstamp : v.stamp (w.epoch % 16) = w.epoch) {last : Composite} (hlast : last.e < 2 ^ 31)
    (delete pending : Bool) (lastIndex weight : Nat) :
    Chained (v.addVersion delete pending last lastIndex weight w) where
  slot k hk := by
    rw [stamp_addVersion, vbm_addVersion]
    obtain ⟨c, hc⟩ := List.exists_mem_of_ne_nil _ hk
    rcases mem_addVersion hc with ⟨c', hc', -⟩ | ⟨rfl, -⟩
    · exact h.slot k (List.ne_nil_of_mem hc')
    · rw [hstamp]
      exact ⟨rfl, hlt⟩
  linked := by
    rw [vbm_addVersion]
    exact h.linked
  block_lt := by
    rw [vbm_addVersion]
    exact h.block_lt
  old_lt k c hc := by
    rcases mem_addVersion hc with ⟨c', hc', herase⟩ | ⟨-, herase⟩
    · rw [← (Change.erase_eq_erase.mp herase).2.2.1]
      exact h.old_lt k c' hc'
    · have hold : last = c.old := congrArg Change.old herase
      rw [← hold]
      exact hlast

/-- A record of Transform names an entry. -/
theorem entry_of_record {r : Item} (hr : r ∈ (publishAll S slot v).records) :
    ∃ c ∈ v.changes slot, (c.old.e ≠ 0 ∨ isDelete c.edge = true) ∧ r.1.key = c.key ∧
      r.1.block = c.old.e := by
  have hmem := List.mem_map_of_mem (f := Prod.fst) hr
  rw [publishAll_records, List.mem_map] at hmem
  obtain ⟨c, hc, heq⟩ := hmem
  obtain ⟨hc, hor⟩ := mem_replaced.mp hc
  refine ⟨c, hc, hor, ?_, ?_⟩
  · rw [← heq]
    exact clearDelete_clearDelete _
  · rw [← heq]

theorem vbs_transform (hne : v.changes slot ≠ []) (vb : Nat) : ∃ new : VersionBlock,
    (v.transform S slot vb).vbm.vbs = new :: v.vbm.vbs ∧ new.timestamp = v.stamp slot ∧
      new.records = (publishAll S slot v).records ∧
      (v.transform S slot vb).vbm.endEpoch = v.stamp slot := by
  unfold View.transform
  rw [if_neg hne]
  exact ⟨_, rfl, rfl, rfl, rfl⟩

theorem transform (h : Chained v) (hne : v.changes slot ≠ []) (vb : Nat)
    (hasc : ∀ k, v.changes k ≠ [] → v.stamp slot ≤ v.stamp k) :
    Chained (v.transform S slot vb) := by
  obtain ⟨hslot, hlt⟩ := h.slot slot hne
  have hlinked : Linked (v.transform S slot vb).vbm.endEpoch (v.transform S slot vb).vbm.vbs := by
    unfold View.transform
    rw [if_neg hne]
    exact ⟨rfl, hlt, h.linked⟩
  obtain ⟨new, hvbs, -, hrecords, hend⟩ := vbs_transform (S := S) hne vb
  refine ⟨?_, hlinked, ?_, ?_⟩
  · intro k hk
    rw [changes_transform] at hk
    have hks : k ≠ slot := fun heq => hk (if_pos heq)
    rw [if_neg hks] at hk
    rw [stamp_transform, hend]
    obtain ⟨hk16, -⟩ := h.slot k hk
    refine ⟨hk16, lt_of_le_of_ne (hasc k hk) ?_⟩
    intro heq
    rw [← hk16, ← heq, hslot] at hks
    exact hks rfl
  · intro b hb r hr
    rw [hvbs] at hb
    rcases List.mem_cons.mp hb with rfl | hb
    · rw [hrecords] at hr
      obtain ⟨c, hc, -, -, hblock⟩ := entry_of_record hr
      rw [hblock]
      exact h.old_lt slot c hc
    · exact h.block_lt b hb r hr
  · intro k c hc
    rw [changes_transform] at hc
    split_ifs at hc
    · cases hc
    · exact h.old_lt k c hc

end Chained

end View

/-- A merge keeps the entries and the blocks, and drops only deletions without a buffered entry. -/
structure View.Merged (v u : View) : Prop where
  stamp : u.stamp = v.stamp
  changes : u.changes = v.changes
  vbm : u.vbm = v.vbm
  head : ∀ d, u.head d = v.head d ∨ u.head d = none ∧
    (∃ g, v.head d = some g ∧ g.deleted = true) ∧ ∀ k, ∀ c ∈ v.changes k, c.key ≠ d

/-- The first accepted operation on a destination. -/
def Trace.first (log : List Applied) (d : Nat) : Option Applied :=
  (log.filter fun o => o.write.dst = d).head?

theorem Trace.first_concat (log : List Applied) (o : Applied) (d : Nat) :
    first (log ++ [o]) d = (first log d).or (if o.write.dst = d then some o else none) := by
  unfold first
  rw [List.filter_append, List.head?_append]
  by_cases hd : o.write.dst = d
  · simp [hd]
  · simp [hd]

/-- An entry of an edge whose loaded version was deleted in epoch `n`: an insertion that found a
deletion, or a write that replaces a version of that epoch or of a later one. -/
def Change.After (n : Nat) (c : Change) : Prop :=
  c.old.e = 0 ∧ isDelete c.edge = false ∨ n ≤ c.old.e

theorem Change.After.congr {n : Nat} {c c' : Change} (h : c.After n) (heq : c.erase = c'.erase) :
    c'.After n := by
  obtain ⟨hedge, -, hold, -⟩ := Change.erase_eq_erase.mp heq
  unfold Change.After
  rw [← hedge, ← hold]
  exact h

/-- What became of a loaded edge: it was not written, or its first operation was a deletion, whose
entry is pending or whose record is in the block of its epoch, with older versions only. -/
inductive View.Stage (log : List Applied) (v : View) (d weight : Nat) : Prop
  | untouched (g : Head) (first : Trace.first log d = none) (head : v.head d = some g)
      (live : g.deleted = false) (time : g.time = ⟨0, 0⟩) (kept : g.weight = weight)
      (entries : ∀ k, ∀ c ∈ v.changes k, c.key ≠ d)
      (records : ∀ b ∈ v.vbm.vbs, ∀ r ∈ b.records, r.1.key ≠ d)
  | pending (o : Applied) (g : Head) (first : Trace.first log d = some o)
      (head : v.head d = some g) (time : o.write.epoch ≤ g.time.e) (kept : g.weight = weight)
      (stamp : v.stamp (o.write.epoch % 16) = o.write.epoch)
      (entry : (v.changes (o.write.epoch % 16)).countP (fun c => c.key = d ∧ c.old.e = 0) = 1)
      (entries : ∀ k, ∀ c ∈ v.changes k, c.key = d →
        (k = o.write.epoch % 16 ∧ c.old.e = 0 ∧ isDelete c.edge = true) ∨
        (c.After o.write.epoch ∧ o.write.epoch ≤ v.stamp k ∧
          (c.old.e = 0 → o.write.epoch < v.stamp k)))
      (records : ∀ b ∈ v.vbm.vbs, ∀ r ∈ b.records, r.1.key ≠ d)
  | published (o : Applied) (first : Trace.first log d = some o)
      (le : o.write.epoch ≤ v.vbm.endEpoch)
      (head : ∀ g, v.head d = some g → o.write.epoch ≤ g.time.e)
      (entries : ∀ k, ∀ c ∈ v.changes k, c.key = d → c.After o.write.epoch)
      (newer : List VersionBlock) (b : VersionBlock) (older : List VersionBlock) (r : Item)
      (vbs : v.vbm.vbs = newer ++ b :: older) (timestamp : b.timestamp = o.write.epoch)
      (initial : ∀ r ∈ b.records, r.1.block = 0)
      (record : b.records.filter (fun r => r.1.key = d) = [r]) (kept : r.2.e = weight)
      (younger : ∀ b ∈ newer, ∀ r ∈ b.records, r.1.key = d → o.write.epoch ≤ r.1.block)
      (others : ∀ b ∈ older, ∀ r ∈ b.records, r.1.key ≠ d)

namespace View.Stage

variable {S : StdSort} {log : List Applied} {v : View} {d weight epoch slot : Nat} {w : Write}

/-- A merge drops no edge with a buffered entry. -/
theorem merge (h : Stage log v d weight) {u : View} (hstamp : u.stamp = v.stamp)
    (hchanges : u.changes = v.changes) (hvbm : u.vbm = v.vbm) (hhead : u.head d = v.head d ∨
      u.head d = none ∧ (∃ g, v.head d = some g ∧ g.deleted = true) ∧
        ∀ k, ∀ c ∈ v.changes k, c.key ≠ d) : Stage log u d weight := by
  cases h with
  | untouched g first head live time kept entries records =>
    have hu : u.head d = some g := by
      rcases hhead with heq | ⟨-, ⟨g', hg', hdel⟩, -⟩
      · rw [heq, head]
      · rw [head] at hg'
        rw [← Option.some.inj hg', live] at hdel
        cases hdel
    exact .untouched g first hu live time kept (hchanges ▸ entries) (hvbm ▸ records)
  | pending o g first head time kept stamp entry entries records =>
    have hu : u.head d = some g := by
      rcases hhead with heq | ⟨-, -, hno⟩
      · rw [heq, head]
      · obtain ⟨c, hc, hp⟩ := List.countP_pos_iff.mp (entry ▸ Nat.one_pos)
        rw [decide_eq_true_eq] at hp
        exact absurd hp.1 (hno _ c hc)
    exact .pending o g first hu time kept (hstamp ▸ stamp) (hchanges ▸ entry)
      (by rw [hchanges, hstamp]; exact entries) (hvbm ▸ records)
  | published o first le head entries newer b older r vbs timestamp initial record kept younger
      others =>
    refine .published o first (hvbm ▸ le) ?_ (hchanges ▸ entries) newer b older r (hvbm ▸ vbs)
      timestamp initial record kept younger others
    intro g hg
    rcases hhead with heq | ⟨hnone, -⟩
    · exact head g (heq ▸ hg)
    · rw [hnone] at hg
      cases hg

theorem openTvb (h : Stage log v d weight)
    (hfree : v.changes (epoch % 16) = [] ∨ v.stamp (epoch % 16) = epoch) :
    Stage log (v.openTvb epoch) d weight := by
  have hchanges := changes_openTvb_of_free hfree
  have hvbs := v.vbs_openTvb epoch
  cases h with
  | untouched g first head live time kept entries records =>
    refine .untouched g first ?_ live time kept (hchanges ▸ entries) (hvbs ▸ records)
    rw [head_openTvb, head]
  | pending o g first head time kept stamp entry entries records =>
    have hne : v.changes (o.write.epoch % 16) ≠ [] := by
      intro hnil
      rw [hnil] at entry
      cases entry
    refine .pending o g first ?_ time kept ?_ (hchanges ▸ entry) ?_ (hvbs ▸ records)
    · rw [head_openTvb, head]
    · rw [stamp_openTvb_of_free hfree hne, stamp]
    · intro k c hc
      rw [hchanges] at hc
      rw [stamp_openTvb_of_free hfree (List.ne_nil_of_mem hc)]
      exact entries k c hc
  | published o first le head entries newer b older r vbs timestamp initial record kept younger
      others =>
    refine .published o first ?_ ?_ (hchanges ▸ entries) newer b older r (hvbs ▸ vbs) timestamp
      initial record kept younger others
    · rw [endEpoch_openTvb]
      exact le
    · rw [head_openTvb]
      exact head

section Write

variable {delete pending : Bool} {last : Composite} {lastIndex total : Nat}

theorem countP_addVersion {p : Change → Bool} (hp : ∀ c : Change, p c.erase = p c) (k : Nat) :
    ((v.addVersion delete pending last lastIndex total w).changes k).countP p =
      (v.changes k).countP p +
        if k = w.epoch % 16 ∧ p (newChange delete last w) = true then 1 else 0 := by
  have hmap : ∀ cs : List Change, (cs.map Change.erase).countP p = cs.countP p := by
    intro cs
    rw [List.countP_map]
    exact List.countP_congr fun c _ => by simp [hp]
  rw [← hmap, addVersion_erase, List.countP_append, hmap]
  congr 1
  by_cases hk : k = w.epoch % 16
  · rw [if_pos hk]
    simp [hk, List.countP_cons]
  · rw [if_neg hk]
    simp [hk]

/-- An entry of another edge was there before the write. -/
theorem mem_other (hd : w.dst ≠ d) {k : Nat} {c : Change}
    (hc : c ∈ (v.addVersion delete pending last lastIndex total w).changes k) (hkey : c.key = d) :
    ∃ c' ∈ v.changes k, c'.key = d ∧ c'.erase = c.erase := by
  rcases mem_addVersion hc with ⟨c', hc', herase⟩ | ⟨-, herase⟩
  · refine ⟨c', hc', ?_, herase⟩
    rw [← Change.key_erase, herase, Change.key_erase, hkey]
  · rw [← Change.key_erase, ← herase, key_newChange] at hkey
    exact absurd hkey hd

/-- A write on another edge. -/
theorem write_other (h : Stage log v d weight) (hd : w.dst ≠ d) :
    Stage (log ++ [⟨delete, w⟩]) (v.addVersion delete pending last lastIndex total w) d weight := by
  set u := v.addVersion delete pending last lastIndex total w with hu
  have hfirst : Trace.first (log ++ [⟨delete, w⟩]) d = Trace.first log d := by
    rw [Trace.first_concat, if_neg hd, Option.or_none]
  have hhead : u.head d = v.head d := by
    rw [hu, head_addVersion, Function.update_of_ne (Ne.symm hd)]
  have hstamp : u.stamp = v.stamp := stamp_addVersion
  have hvbm : u.vbm = v.vbm := vbm_addVersion
  have hmem : ∀ k, ∀ c ∈ u.changes k, c.key = d →
      ∃ c' ∈ v.changes k, c'.key = d ∧ c'.erase = c.erase := fun _ _ hc hkey =>
    mem_other hd hc hkey
  cases h with
  | untouched g first head live time kept entries records =>
    refine .untouched g (hfirst.trans first) (hhead.trans head) live time kept ?_ (hvbm ▸ records)
    intro k c hc hkey
    obtain ⟨c', hc', hkey', -⟩ := hmem k c hc hkey
    exact entries k c' hc' hkey'
  | pending o g first head time kept stamp entry entries records =>
    refine .pending o g (hfirst.trans first) (hhead.trans head) time kept (hstamp ▸ stamp) ?_ ?_
      (hvbm ▸ records)
    · rw [hu, countP_addVersion (fun _ => rfl), entry, if_neg]
      rintro ⟨-, hp⟩
      rw [decide_eq_true_eq, key_newChange] at hp
      exact hd hp.1
    · intro k c hc hkey
      obtain ⟨c', hc', hkey', herase⟩ := hmem k c hc hkey
      obtain ⟨hedge, -, hold, -⟩ := Change.erase_eq_erase.mp herase
      rw [hstamp, ← hedge, ← hold]
      exact (entries k c' hc' hkey').imp_right fun ⟨hafter, hrest⟩ => ⟨hafter.congr herase, hrest⟩
  | published o first le head entries newer b older r vbs timestamp initial record kept younger
      others =>
    refine .published o (hfirst.trans first) (hvbm ▸ le) (hhead ▸ head) ?_ newer b older r
      (hvbm ▸ vbs) timestamp initial record kept younger others
    intro k c hc hkey
    obtain ⟨c', hc', hkey', herase⟩ := hmem k c hc hkey
    exact (entries k c' hc' hkey').congr herase

/-- The entry of a write on an edge whose loaded version was deleted in epoch `n`. -/
theorem after_newChange {n : Nat} (hhead : ∀ g, v.head w.dst = some g → n ≤ g.time.e)
    (hknown : delete = true → v.head w.dst ≠ none) :
    (newChange delete (Trace.replacedTime delete (v.head w.dst)) w).After n := by
  unfold Change.After newChange Trace.replacedTime
  cases delete with
  | true =>
    obtain ⟨g, hg⟩ := Option.ne_none_iff_exists'.mp (hknown rfl)
    right
    rw [hg]
    exact hhead g hg
  | false =>
    cases hg : v.head w.dst with
    | none => exact Or.inl ⟨rfl, isDelete_of_lt w.dst_lt⟩
    | some g =>
      cases hdel : g.deleted with
      | true =>
        left
        simp [lastTime, hdel, isDelete_of_lt w.dst_lt]
      | false =>
        right
        simp only [lastTime, Option.elim_some, hdel, Bool.false_eq_true, if_false]
        exact hhead g hg

/-- The first write on a loaded edge is a deletion, and the edge is not inserted again in the epoch
of that deletion or an older one while it is pending. -/
theorem write_same (h : Stage log v w.dst weight)
    (hstamp : v.stamp (w.epoch % 16) = w.epoch) (hlt : v.vbm.endEpoch < w.epoch)
    (hknown : delete = true → v.head w.dst ≠ none)
    (hfits : conflicts w.txn (Trace.replacedTime delete (v.head w.dst)).e w.epoch = false)
    (hfirst : delete = false → Trace.first log w.dst = none → v.head w.dst = none)
    (hagain : delete = false → ∀ k, ∀ c ∈ v.changes k, c.key = w.dst → c.old.e = 0 →
      isDelete c.edge = true → v.stamp k < w.epoch) :
    Stage (log ++ [⟨delete, w⟩]) (v.addVersion delete pending
      (Trace.replacedTime delete (v.head w.dst)) lastIndex
      ((v.head w.dst).elim w.weight Head.weight) w) w.dst weight := by
  set last := Trace.replacedTime delete (v.head w.dst) with hlast
  set u := v.addVersion delete pending last lastIndex
    ((v.head w.dst).elim w.weight Head.weight) w with hu
  have hhead : u.head w.dst = some ⟨delete, w.time, true,
      (v.head w.dst).elim w.weight Head.weight,
      if delete then 0 else (v.changes (w.epoch % 16)).length⟩ := by
    rw [hu, head_addVersion, Function.update_self]
  have hstamps : u.stamp = v.stamp := stamp_addVersion
  have hvbm : u.vbm = v.vbm := vbm_addVersion
  cases h with
  | untouched g first head live time kept entries records =>
    have hdelete : delete = true := by
      by_contra hno
      have hnone := hfirst (Bool.not_eq_true _ ▸ hno) first
      rw [head] at hnone
      cases hnone
    subst hdelete
    have hzero : last.e = 0 := by
      rw [hlast, head]
      exact congrArg Composite.e time
    have hnew : ∀ k, ∀ c ∈ u.changes k, c.key = w.dst → k = w.epoch % 16 ∧ c.old.e = 0 ∧
        isDelete c.edge = true := by
      intro k c hc hkey
      rcases mem_addVersion hc with ⟨c', hc', herase⟩ | ⟨hk, herase⟩
      · rw [← Change.key_erase, ← herase, Change.key_erase] at hkey
        exact absurd hkey (entries k c' hc')
      · have hold : c.old = last := (congrArg Change.old herase).symm
        have hedge : c.edge = setDelete w.dst := (congrArg Change.edge herase).symm
        rw [hold, hedge]
        exact ⟨hk, hzero, isDelete_setDelete w.dst⟩
    refine .pending ⟨true, w⟩ _ ?_ hhead le_rfl ?_ (hstamps ▸ hstamp) ?_
      (fun k c hc hkey => Or.inl (hnew k c hc hkey)) (hvbm ▸ records)
    · rw [Trace.first_concat, first, if_pos rfl]
      rfl
    · rw [head]
      exact kept
    · have hnone : (v.changes (w.epoch % 16)).countP
          (fun c => c.key = w.dst ∧ c.old.e = 0) = 0 := by
        apply List.countP_eq_zero.mpr
        intro c hc hp
        rw [decide_eq_true_eq] at hp
        exact entries _ c hc hp.1
      rw [hu, countP_addVersion (fun _ => rfl), hnone, if_pos]
      refine ⟨rfl, ?_⟩
      rw [decide_eq_true_eq]
      exact ⟨key_newChange, hzero⟩
  | pending o g first head time kept stamp entry entries records =>
    have hpos := o.write.epoch_pos
    have hnewest : ∀ g, v.head w.dst = some g → o.write.epoch ≤ g.time.e := by
      intro g' hg'
      rw [head] at hg'
      rw [← Option.some.inj hg']
      exact time
    have hafter := after_newChange hnewest hknown
    have hlater : delete = false → o.write.epoch < w.epoch := by
      intro hinsert
      obtain ⟨c, hc, hp⟩ := List.countP_pos_iff.mp (entry ▸ Nat.one_pos)
      rw [decide_eq_true_eq] at hp
      rcases entries _ c hc hp.1 with ⟨-, -, hdel⟩ | ⟨-, -, hlt⟩
      · rw [← stamp]
        exact hagain hinsert _ c hc hp.1 hp.2 hdel
      · rw [stamp] at hlt
        exact absurd (hlt hp.2) (lt_irrefl _)
    have hle : o.write.epoch ≤ w.epoch := by
      cases delete with
      | false => exact (hlater rfl).le
      | true =>
        have hrep : last.e = g.time.e := by
          rw [hlast, head]
          rfl
        have hge : ¬w.epoch < last.e := by
          intro hlt
          simp [conflicts, hlt] at hfits
        omega
    have hinsert : last.e = 0 → delete = false := by
      intro hz
      rcases hafter with ⟨-, hlive⟩ | hge
      · cases delete with
        | false => rfl
        | true =>
          have hdel : isDelete (newChange true last w).edge = true := isDelete_setDelete w.dst
          rw [hdel] at hlive
          cases hlive
      · have hge : o.write.epoch ≤ last.e := hge
        omega
    refine .pending o _ ?_ hhead hle ?_ (hstamps ▸ stamp) ?_ ?_ (hvbm ▸ records)
    · rw [Trace.first_concat, first]
      rfl
    · rw [head]
      exact kept
    · rw [hu, countP_addVersion (fun _ => rfl), entry, if_neg]
      rintro ⟨hslot, hp⟩
      rw [decide_eq_true_eq] at hp
      have hlt := hlater (hinsert hp.2)
      rw [hslot, hstamp] at stamp
      omega
    · intro k c hc hkey
      rw [hstamps]
      rcases mem_addVersion hc with ⟨c', hc', herase⟩ | ⟨rfl, herase⟩
      · obtain ⟨hedge, -, hold, -⟩ := Change.erase_eq_erase.mp herase
        rw [← Change.key_erase, ← herase, Change.key_erase] at hkey
        rw [← hedge, ← hold]
        rcases entries k c' hc' hkey with hone | ⟨ha, hrest⟩
        · exact Or.inl hone
        · exact Or.inr ⟨ha.congr herase, hrest⟩
      · have hold : c.old = last := (congrArg Change.old herase).symm
        right
        rw [hstamp, hold]
        exact ⟨hafter.congr herase, hle, fun hz => hlater (hinsert hz)⟩
  | published o first le head entries newer b older r vbs timestamp initial record kept younger
      others =>
    have hafter := after_newChange head hknown
    refine .published o ?_ (hvbm ▸ le) ?_ ?_ newer b older r (hvbm ▸ vbs) timestamp initial record
      kept younger others
    · rw [Trace.first_concat, first]
      rfl
    · intro g hg
      rw [hhead] at hg
      rw [← Option.some.inj hg]
      exact le.trans hlt.le
    · intro k c hc hkey
      rcases mem_addVersion hc with ⟨c', hc', herase⟩ | ⟨-, herase⟩
      · rw [← Change.key_erase, ← herase, Change.key_erase] at hkey
        exact (entries k c' hc' hkey).congr herase
      · exact hafter.congr herase

end Write

section Transform

theorem mem_transform {vb k : Nat} {c : Change} (hc : c ∈ (v.transform S slot vb).changes k) :
    k ≠ slot ∧ c ∈ v.changes k := by
  rw [changes_transform] at hc
  split_ifs at hc with hk
  · cases hc
  · exact ⟨hk, hc⟩

/-- Transform leaves no version older than its epoch. -/
theorem publishAll_le {n : Nat} (hn : n ≤ v.stamp slot) (hhead : ∀ g, v.head d = some g →
    n ≤ g.time.e) : ∀ g, (publishAll S slot v).head d = some g → n ≤ g.time.e := by
  have hupdate : ∀ (p : Publication) (f : Head → Head) (key : Nat),
      (∀ g, p.head d = some g → n ≤ g.time.e) → (∀ g, n ≤ g.time.e → n ≤ (f g).time.e) →
      ∀ g, Function.update p.head key ((p.head key).map f) d = some g → n ≤ g.time.e := by
    intro p f key hp hf g hg
    by_cases hd : d = key
    · subst hd
      rw [Function.update_self] at hg
      obtain ⟨g', hg', rfl⟩ := Option.map_eq_some_iff.mp hg
      exact hf g' (hp g' hg')
    · rw [Function.update_of_ne hd] at hg
      exact hp g hg
  apply publishAll_induction (I := fun p => ∀ g, p.head d = some g → n ≤ g.time.e) hhead
  · intro p hp c _ _ _
    apply hupdate p _ _ hp
    intro g hg
    unfold freshHead
    split_ifs
    · exact hg
    · exact hn
  · intro p hp c _ _
    apply hupdate p _ _ hp
    intro g _
    exact hn

/-- Transform of the only entry of an edge, a deletion. -/
theorem publishAll_deletion {c : Change} {g : Head} (hg : v.head d = some g)
    (hc : (v.changes slot).filter (fun c => c.key = d) = [c]) (hdel : isDelete c.edge = true) :
    (∀ g, (publishAll S slot v).head d = some g → g.time.e = v.stamp slot) ∧
      (publishAll S slot v).records.filter (fun r => r.1.key = d) = [recordOf c g.weight] := by
  have hsorted : sortedAt S v slot d = [c] := by
    have hperm : (sortedAt S v slot d).Perm ((v.changes slot).filter fun c => c.key = d) :=
      sortedAt_perm
    rw [hc] at hperm
    exact List.perm_singleton.mp hperm
  have hinserts : (inserts S (v.changes slot)).filter (fun c => c.key = d) = [] := by
    rw [inserts_at, hsorted]
    simp [hdel]
  have hreplaced : (replaced S (v.changes slot)).filter (fun c => c.key = d) = [c] := by
    rw [replaced_at, hsorted]
    by_cases hold : c.old.e = 0
    · simp [hold, hdel]
    · simp [hold]
  have hat := publishAll_at S slot d v
  rw [hinserts, hreplaced, hg] at hat
  constructor
  · intro g' hg'
    have hhead : ((publishAll S slot v).head d).map Head.erase = _ := congrArg Local.head hat
    rw [hg'] at hhead
    exact congrArg (fun g : Head => g.time.e) (Option.some.inj hhead)
  · have hrecords : (publishAll S slot v).records.filter _ = _ := congrArg Local.records hat
    exact hrecords

/-- A Transform of the oldest pending epoch, whose entries all replace versions of epoch 0 if one of
them deletes such a version. -/
theorem transform (h : Stage log v d weight) (hch : Chained v) (hne : v.changes slot ≠ [])
    (vb : Nat) (hasc : ∀ k, v.changes k ≠ [] → v.stamp slot ≤ v.stamp k)
    (hinitial : (∃ c ∈ v.changes slot, c.old.e = 0 ∧ isDelete c.edge = true) →
      ∀ c ∈ v.changes slot, c.old.e = 0) :
    Stage log (v.transform S slot vb) d weight := by
  obtain ⟨hslot, hend⟩ := hch.slot slot hne
  obtain ⟨new, hvbs, hts, hrecords, hepoch⟩ := Chained.vbs_transform (S := S) hne vb
  have hhead : (v.transform S slot vb).head = (publishAll S slot v).head :=
    head_transform hne vb
  have hstamp : (v.transform S slot vb).stamp = v.stamp := stamp_transform vb
  have hfresh : (∀ c ∈ v.changes slot, c.key ≠ d) → ∀ r ∈ new.records, r.1.key ≠ d := by
    intro hno r hr
    rw [hrecords] at hr
    obtain ⟨c, hc, -, hkey, -⟩ := Chained.entry_of_record hr
    rw [hkey]
    exact hno c hc
  have hcons : ∀ P : VersionBlock → Prop, P new → (∀ b ∈ v.vbm.vbs, P b) →
      ∀ b ∈ (v.transform S slot vb).vbm.vbs, P b := by
    intro P hnew hold b hb
    rw [hvbs] at hb
    rcases List.mem_cons.mp hb with rfl | hb
    · exact hnew
    · exact hold b hb
  cases h with
  | untouched g first head live time kept entries records =>
    refine .untouched g first ?_ live time kept ?_ ?_
    · rw [hhead, publishAll_untouched (entries slot), head]
    · intro k c hc
      exact entries k c (mem_transform hc).2
    · exact hcons _ (hfresh (entries slot)) records
  | pending o g first head time kept stamp entry entries records =>
    by_cases hown : slot = o.write.epoch % 16
    · -- the epoch of the deletion
      subst hown
      have hdeletes : ∀ c ∈ v.changes (o.write.epoch % 16), c.key = d →
          c.old.e = 0 ∧ isDelete c.edge = true := by
        intro c hc hkey
        obtain ⟨x, hx, hp⟩ := List.countP_pos_iff.mp (entry ▸ Nat.one_pos)
        rw [decide_eq_true_eq] at hp
        have hfirst : ∃ c ∈ v.changes (o.write.epoch % 16), c.old.e = 0 ∧
            isDelete c.edge = true := by
          rcases entries _ x hx hp.1 with ⟨-, hz, hdel⟩ | ⟨-, -, hlt⟩
          · exact ⟨x, hx, hz, hdel⟩
          · rw [stamp] at hlt
            exact absurd (hlt hp.2) (lt_irrefl _)
        have hz := hinitial hfirst c hc
        rcases entries _ c hc hkey with ⟨-, -, hdel⟩ | ⟨-, -, hlt⟩
        · exact ⟨hz, hdel⟩
        · rw [stamp] at hlt
          exact absurd (hlt hz) (lt_irrefl _)
      obtain ⟨c, hc⟩ : ∃ c, (v.changes (o.write.epoch % 16)).filter (fun c => c.key = d) = [c] := by
        apply List.length_eq_one_iff.mp
        rw [← List.countP_eq_length_filter, ← entry]
        apply List.countP_congr
        intro c hc
        simp only [decide_eq_true_eq]
        exact ⟨fun hkey => ⟨hkey, (hdeletes c hc hkey).1⟩, And.left⟩
      have hmem : c ∈ (v.changes (o.write.epoch % 16)).filter fun c => c.key = d := by
        rw [hc]
        exact List.mem_singleton_self c
      obtain ⟨hmem, hkey⟩ := List.mem_filter.mp hmem
      obtain ⟨hz, hdel⟩ := hdeletes c hmem (of_decide_eq_true hkey)
      obtain ⟨htime, hrecord⟩ := publishAll_deletion (S := S) head hc hdel
      refine .published o first ?_ ?_ ?_ [] new v.vbm.vbs (recordOf c g.weight) hvbs
        (hts.trans stamp) ?_ ?_ kept ?_ records
      · rw [hepoch, stamp]
      · intro g' hg'
        rw [hhead] at hg'
        rw [htime g' hg', stamp]
      · intro k c hc hkey
        obtain ⟨hk, hc⟩ := mem_transform hc
        rcases entries k c hc hkey with ⟨heq, -⟩ | ⟨hafter, -⟩
        · exact absurd heq hk
        · exact hafter
      · intro r hr
        rw [hrecords] at hr
        obtain ⟨x, hx, -, -, hblock⟩ := Chained.entry_of_record hr
        rw [hblock]
        exact hinitial ⟨c, hmem, hz, hdel⟩ x hx
      · rw [hrecords]
        exact hrecord
      · intro b hb
        cases hb
    · -- an older epoch, without entries of the edge
      have hne' : v.changes (o.write.epoch % 16) ≠ [] := by
        intro hnil
        rw [hnil] at entry
        cases entry
      have hno : ∀ c ∈ v.changes slot, c.key ≠ d := by
        intro c hc hkey
        rcases entries slot c hc hkey with ⟨heq, -⟩ | ⟨-, hle, -⟩
        · exact hown heq
        · have hge := hasc _ hne'
          rw [stamp] at hge
          apply hown
          rw [← hslot, le_antisymm hge hle]
      have hkeep : (v.transform S slot vb).changes (o.write.epoch % 16) =
          v.changes (o.write.epoch % 16) := by
        rw [changes_transform, if_neg (Ne.symm hown)]
      refine .pending o g first ?_ time kept (hstamp ▸ stamp) (hkeep ▸ entry) ?_ ?_
      · rw [hhead, publishAll_untouched hno, head]
      · intro k c hc hkey
        rw [hstamp]
        exact entries k c (mem_transform hc).2 hkey
      · exact hcons _ (hfresh hno) records
  | published o first le head entries newer b older r vbs timestamp initial record kept younger
      others =>
    refine .published o first ?_ ?_ ?_ (new :: newer) b older r ?_ timestamp initial record kept ?_
      others
    · rw [hepoch]
      exact le.trans hend.le
    · rw [hhead]
      exact publishAll_le (le.trans hend.le) head
    · intro k c hc hkey
      exact entries k c (mem_transform hc).2 hkey
    · rw [hvbs, vbs]
      rfl
    · intro b hb r hr hkey
      rcases List.mem_cons.mp hb with rfl | hb
      · rw [hrecords] at hr
        obtain ⟨c, hc, hor, hkey', hblock⟩ := Chained.entry_of_record hr
        rw [hblock]
        rcases entries slot c hc (hkey'.symm.trans hkey) with ⟨hz, hlive⟩ | hge
        · rcases hor with hnz | hdel
          · exact absurd hz hnz
          · rw [hlive] at hdel
            cases hdel
        · exact hge
      · exact younger b hb r hr hkey

end Transform

section Read

/-- A block with versions of epoch 0 only shows all of them to the readers of other epochs. -/
theorem emitBlock_initial {readTs : Composite} {b : VersionBlock} (hne : b.timestamp ≠ readTs.e)
    (hinitial : ∀ r ∈ b.records, r.1.block = 0) : emitBlock .fineGrain readTs b = b.records := by
  rw [emitBlock, if_neg fun hown => hne hown.2]
  apply List.takeWhile_eq_self_iff.mpr
  intro r hr
  have hcoarse : r.1.getCoarseC = 0 := by
    rw [EdgeWithIndex.getCoarseC, hinitial r hr]
    rfl
  simp [EdgeWithIndex.isVisibleAt, hcoarse]

theorem filter_emitBlock {readTs : Composite} {b : VersionBlock}
    (hno : ∀ r ∈ emitBlock .fineGrain readTs b, r.1.key ≠ d) :
    (emitBlock .fineGrain readTs b).filter (fun r => r.1.key = d) = [] := by
  apply List.filter_eq_nil_iff.mpr
  intro r hr
  rw [decide_eq_true_eq]
  exact hno r hr

/-- When all epochs are published, a reader at the end of an epoch before the first write gets the
loaded version. -/
theorem emitted (h : Stage log v d weight) (hch : Chained v) (hidle : ∀ k, v.changes k = [])
    {e : Nat} (he : ∀ o, Trace.first log d = some o → e < o.write.epoch) :
    v.emitted ⟨e, intraMax⟩ d = [weight] := by
  have hscan : v.scanTvbs ⟨e, intraMax⟩ = [] := by
    apply List.flatMap_eq_nil_iff.mpr
    intro k _
    rw [hidle, List.reverse_nil, scanChanges, ite_self]
  have hmax : 0 < intraMax := by decide
  unfold View.emitted
  rw [hscan, List.filter_nil, List.map_nil, List.append_nil]
  cases h with
  | untouched g first head live time kept entries records =>
    have hchain : (v.chainScan ⟨e, intraMax⟩).filter (fun r => r.1.key = d) = [] := by
      apply List.filter_eq_nil_iff.mpr
      intro r hr
      obtain ⟨b, hb, hr⟩ := mem_chainScan hr
      rw [decide_eq_true_eq]
      exact records b hb r (mem_emitBlock hr).1
    have hvisible : g.visible ⟨e, intraMax⟩ = true := by
      simp only [Head.visible, live, time, Composite.lt_def, Bool.not_false, Bool.true_and,
        decide_eq_true_eq]
      omega
    rw [hchain, head, Option.filter_some, if_pos hvisible, ← kept]
    rfl
  | pending o g first head time kept stamp entry entries records =>
    rw [hidle] at entry
    cases entry
  | published o first le head entries newer b older r vbs timestamp initial record kept younger
      others =>
    have hlt := he o first
    have hhead : (v.head d).filter (Head.visible ⟨e, intraMax⟩) = none := by
      apply Option.filter_eq_none_iff.mpr
      intro g hg hvisible
      have hge := head g hg
      simp only [Head.visible, Composite.lt_def, Bool.and_eq_true, decide_eq_true_eq] at hvisible
      omega
    have hle : e ≤ v.vbm.endEpoch := hlt.le.trans le
    have hshown : ∀ b, (if b.timestamp < e then [] else
        emitBlock .fineGrain ⟨e, intraMax⟩ b).filter (fun r => r.1.key = d) =
          if b.timestamp < e then [] else
            (emitBlock .fineGrain ⟨e, intraMax⟩ b).filter fun r => r.1.key = d := by
      intro b
      split_ifs <;> rfl
    have hnewer : ∀ b ∈ newer, (emitBlock .fineGrain ⟨e, intraMax⟩ b).filter
        (fun r => r.1.key = d) = [] := by
      intro b hb
      apply filter_emitBlock
      intro r hr hkey
      obtain ⟨hr, hvisible⟩ := mem_emitBlock hr
      have hmem : b ∈ v.vbm.vbs := by
        rw [vbs]
        exact List.mem_append_left _ hb
      have hcoarse : r.1.getCoarseC = r.1.block := clearTmp_of_lt (hch.block_lt b hmem r hr)
      have hcreation : r.1.creation.e = r.1.block := hcoarse
      have hge := younger b hb r hr hkey
      rw [hcoarse, Composite.lt_def, hcreation] at hvisible
      dsimp only at hvisible
      omega
    have holder : ∀ b ∈ older, (emitBlock .fineGrain ⟨e, intraMax⟩ b).filter
        (fun r => r.1.key = d) = [] := by
      intro b hb
      apply filter_emitBlock
      intro r hr
      exact others b hb r (mem_emitBlock hr).1
    have hown : (emitBlock .fineGrain ⟨e, intraMax⟩ b).filter (fun r => r.1.key = d) = [r] := by
      rw [emitBlock_initial _ initial, record]
      rw [timestamp]
      exact hlt.ne'
    have hchain : (v.chainScan ⟨e, intraMax⟩).filter (fun r => r.1.key = d) = [r] := by
      rw [chainScan, if_pos hle, scan_eq_flatMap hch.linked hle hch.block_lt, List.filter_flatMap,
        vbs, List.flatMap_append, List.flatMap_cons]
      have hnew : (newer.flatMap fun b => (if b.timestamp < e then [] else
          emitBlock .fineGrain ⟨e, intraMax⟩ b).filter fun r => r.1.key = d) = [] := by
        apply List.flatMap_eq_nil_iff.mpr
        intro b hb
        rw [hshown, hnewer b hb, ite_self]
      have hold : (older.flatMap fun b => (if b.timestamp < e then [] else
          emitBlock .fineGrain ⟨e, intraMax⟩ b).filter fun r => r.1.key = d) = [] := by
        apply List.flatMap_eq_nil_iff.mpr
        intro b hb
        rw [hshown, holder b hb, ite_self]
      rw [hnew, hold, hshown, hown, if_neg (not_lt.mpr (timestamp ▸ hlt.le)), List.nil_append,
        List.append_nil]
    rw [hhead, hchain, ← kept]
    rfl

end Read

end View.Stage

namespace Trace

variable {S : StdSort} {h h' : Trace}

/-- Writes come for epochs above the last version block, whose slot is free or theirs; their lookup
returns the item of the edge, and the merge drops no edge with a buffered entry. Transform takes the
oldest pending epoch. -/
def Orderly (S : StdSort) (h : Trace) : Op → Prop
  | .insert env w | .delete env w => (h.state.prepare S env).LookupRight w.dst ∧
      h.state.vbm.endEpoch < w.epoch ∧ h.state.SlotFree w.epoch ∧
      ∀ k < 16, ∀ x ∈ (h.state.tmpVb k).entries, ∀ y ∈ h.state.item x.key,
        VertexEdges.dropped env.oldest y.1 = false
  | .transform epoch _ => ∀ k < 16, (h.state.tmpVb k).entries = [] ∨
      epoch ≤ (h.state.tmpVb k).timestamp

/-- The first write on a known edge is not an insertion, no edge is inserted while the deletion of
its loaded version is pending in the same epoch or a later one, and an epoch that deletes loaded
versions replaces no other ones. -/
def KeepsLoaded (h : Trace) : Op → Prop
  | .insert _ w => (first h.log w.dst = none → h.state.m w.dst = false) ∧
      ∀ k < 16, ∀ c ∈ h.state.view.changes k, c.key = w.dst → c.old.e = 0 →
        isDelete c.edge = true → h.state.view.stamp k < w.epoch
  | .delete _ _ => True
  | .transform epoch _ =>
      (∃ c ∈ h.state.view.changes (epoch % 16), c.old.e = 0 ∧ isDelete c.edge = true) →
        ∀ c ∈ h.state.view.changes (epoch % 16), c.old.e = 0

instance (S : StdSort) (h : Trace) (op : Op) : Decidable (h.Orderly S op) :=
  match op with
  | .insert _ _ | .delete _ _ => inferInstanceAs (Decidable (VertexEdges.LookupRight _ _ ∧
      _ < _ ∧ (_ = _ ∨ _ = []) ∧ ∀ k < 16, ∀ x ∈ _, ∀ y ∈ _, _ = false))
  | .transform _ _ => inferInstanceAs (Decidable (∀ k < 16, _ ∨ _))

instance (h : Trace) (op : Op) : Decidable (h.KeepsLoaded op) :=
  match op with
  | .insert _ _ => inferInstanceAs (Decidable ((_ → _ = false) ∧ ∀ k < 16, ∀ c ∈ _, _ → _ → _ → _))
  | .delete _ _ => isTrue trivial
  | .transform _ _ => inferInstanceAs (Decidable ((∃ c ∈ _, _ ∧ _) → ∀ c ∈ _, _))

theorem replacedTime_lt {g : Option Head} {n : Nat} (delete : Bool) (hn : 0 < n)
    (hlt : ∀ x, g = some x → x.time.e < n) : (replacedTime delete g).e < n := by
  unfold replacedTime View.lastTime
  cases g with
  | none => cases delete <;> exact hn
  | some x =>
    have hlt := hlt x rfl
    cases delete with
    | true => exact hlt
    | false =>
      simp only [Bool.false_eq_true, if_false, Option.elim_some]
      split_ifs
      · exact hn
      · exact hlt

/-- What an operation does to a vertex. -/
inductive Moves (S : StdSort) (h h' : Trace) : Op → Prop
  | unknown (env : Env) (w : Write) (log : h'.log = h.log) (merged : h.state.view.Merged h'.state.view) :
      Moves S h h' (.delete env w)
  | wrote (env : Env) (o : Applied) (u : View) (merged : h.state.view.Merged u)
      (lt : u.vbm.endEpoch < o.write.epoch)
      (free : u.changes (o.write.epoch % 16) = [] ∨
        u.stamp (o.write.epoch % 16) = o.write.epoch)
      (head_lt : ∀ g, u.head o.write.dst = some g → g.time.e < 2 ^ 31)
      (outcome : Outcome h h' o.delete o.write (u.openTvb o.write.epoch)) :
      Moves S h h' (o.op env)
  | idle (epoch vb : Nat) (log : h'.log = h.log) (view : h'.state.view = h.state.view) :
      Moves S h h' (.transform epoch vb)
  | transformed (epoch vb : Nat) (log : h'.log = h.log)
      (stamp : h.state.view.stamp (epoch % 16) = epoch)
      (full : h.state.view.changes (epoch % 16) ≠ [])
      (oldest : ∀ k, h.state.view.changes k ≠ [] →
        h.state.view.stamp (epoch % 16) ≤ h.state.view.stamp k)
      (view : h'.state.view = h.state.view.transform S (epoch % 16) vb) :
      Moves S h h' (.transform epoch vb)

/-- A vertex whose epochs are published in ascending order. -/
structure Standing (h : Trace) : Prop where
  wf : h.state.Wf
  chained : h.state.view.Chained

namespace Standing

variable {s : VertexEdges} {env : Env} {w : Write} {op : Op}

theorem start (h : s.Built) : Standing ⟨s, []⟩ where
  wf := h.wf
  chained := by
    have hvbm : s.view.vbm = .empty := h.vbm
    refine ⟨?_, ?_, ?_, ?_⟩
    · intro k hk
      exact absurd (h.changes k) hk
    · rw [hvbm]
      exact rfl
    · rw [hvbm]
      intro b hb
      cases hb
    · intro k c hc
      rw [h.changes] at hc
      cases hc

theorem slot_lt (hs : Standing h) {k : Nat} (hk : h.state.view.changes k ≠ []) : k < 16 := by
  rw [← (hs.chained.slot k hk).1]
  exact Nat.mod_lt _ (by decide)

theorem keepsBuffered (hs : Standing h) (hkeep : ∀ k < 16, ∀ x ∈ (h.state.tmpVb k).entries,
    ∀ y ∈ h.state.item x.key, VertexEdges.dropped env.oldest y.1 = false) :
    VertexEdges.KeepsBuffered env.oldest h.state := by
  intro k x hx y hy
  apply hkeep k _ x hx y hy
  apply hs.slot_lt
  exact List.ne_nil_of_mem (List.mem_map_of_mem (f := VersionEntry.change) hx)

theorem merged (hs : Standing h) (hkeep : VertexEdges.KeepsBuffered env.oldest h.state) :
    h.state.view.Merged (h.state.prepare S env).view where
  stamp := VertexEdges.stamp_prepare
  changes := VertexEdges.changes_prepare
  vbm := VertexEdges.vbm_prepare
  head d := by
    have hhead : ∀ t : VertexEdges, t.view.head d = (t.item d).map headOf := fun _ => rfl
    rw [hhead, hhead]
    rcases (VertexEdges.Alike.prepare (S := S) hs.wf hkeep).item d with
      heq | ⟨hnone, y, hy, hdel, hno⟩
    · left
      rw [heq]
    · right
      rw [hnone, hy]
      refine ⟨rfl, ⟨headOf y, rfl, hdel⟩, ?_⟩
      intro k c hc
      obtain ⟨z, hz, rfl⟩ := List.mem_map.mp hc
      exact hno k z hz

/-- A write on the merged vertex. -/
theorem wrote (hs : Standing h) {o : Applied}
    (hkeep : VertexEdges.KeepsBuffered env.oldest h.state)
    (hlt : h.state.vbm.endEpoch < o.write.epoch) (hfree : h.state.SlotFree o.write.epoch)
    (hout : Outcome h h' o.delete o.write
      ((h.state.prepare S env).view.openTvb o.write.epoch)) : Moves S h h' (o.op env) := by
  have hmerged := hs.merged (S := S) hkeep
  apply Moves.wrote env o _ hmerged
  · rw [hmerged.vbm]
    exact hlt
  · rw [hmerged.changes, hmerged.stamp]
    exact hfree.symm.imp_left VertexEdges.changes_eq_nil.mpr
  · exact VertexEdges.head_lt _ o.write.dst
  · exact hout

theorem moves (hs : Standing h) (hord : h.Orderly S op)
    (hstep : h.step .fineGrain S op = some h') : h'.state.Wf ∧ Moves S h h' op := by
  cases op with
  | insert env w =>
    obtain ⟨hlook, hlt, hfree, hkeep⟩ := hord
    have hkeeps := hs.keepsBuffered hkeep
    obtain ⟨hwf, hout⟩ := insert_cases hs.wf.rep (hs.wf.prepare hkeeps) hlook hstep
    exact ⟨hwf, hs.wrote (o := ⟨false, w⟩) hkeeps hlt hfree hout⟩
  | delete env w =>
    obtain ⟨hlook, hlt, hfree, hkeep⟩ := hord
    have hkeeps := hs.keepsBuffered hkeep
    obtain ⟨hwf, ⟨hlog, hview⟩ | hout⟩ := delete_cases (hs.wf.prepare hkeeps) hlook hstep
    · refine ⟨hwf, .unknown env w hlog ?_⟩
      rw [hview]
      exact hs.merged hkeeps
    · exact ⟨hwf, hs.wrote (o := ⟨true, w⟩) hkeeps hlt hfree hout⟩
  | transform epoch vb =>
    obtain ⟨hwf, hlog, hstamp, hview⟩ := transform_cases hs.wf hstep
    refine ⟨hwf, ?_⟩
    by_cases hne : h.state.view.changes (epoch % 16) = []
    · apply Moves.idle _ _ hlog
      rw [hview, View.transform_of_nil hne]
    · apply Moves.transformed _ _ hlog hstamp hne _ hview
      intro k hk
      rw [hstamp]
      exact (hord k (hs.slot_lt hk)).resolve_left fun hnil =>
        hk (VertexEdges.changes_eq_nil.mpr hnil)

theorem step (hs : Standing h) (hord : h.Orderly S op)
    (hstep : h.step .fineGrain S op = some h') : Standing h' := by
  obtain ⟨hwf, hmoves⟩ := hs.moves hord hstep
  refine ⟨hwf, ?_⟩
  cases hmoves with
  | unknown env w log merged =>
    exact hs.chained.merge merged.stamp merged.changes merged.vbm
  | wrote env o u merged lt free head_lt outcome =>
    have hopen := (hs.chained.merge merged.stamp merged.changes merged.vbm).openTvb free
    cases outcome with
    | refused hlog hview =>
      rw [hview]
      exact hopen
    | accepted pending lastIndex hlog hknown hfits hview =>
      rw [hview]
      apply hopen.addVersion
      · rw [View.endEpoch_openTvb]
        exact lt
      · rw [View.stamp_openTvb, if_pos rfl]
      · rw [View.head_openTvb]
        exact replacedTime_lt o.delete (by decide) head_lt
  | idle epoch vb log view =>
    rw [view]
    exact hs.chained
  | transformed epoch vb log stamp full oldest view =>
    rw [view]
    exact hs.chained.transform full vb oldest

theorem run (hs : s.Built) {es : List Op}
    (hord : Along (Trace.step .fineGrain S) (Orderly S) ⟨s, []⟩ es)
    (hrun : exec (Trace.step .fineGrain S) ⟨s, []⟩ es = some h) : Standing h :=
  invariant_of_step (fun _ _ _ hi ho hstep => hi.step ho hstep) (start hs) hord hrun

end Standing

/-- A vertex after its loaded edges were written. -/
structure Loaded (s : VertexEdges) (h : Trace) : Prop extends Standing h where
  stage : ∀ d x, s.item d = some x → h.state.view.Stage h.log d x.2.e

namespace Loaded

variable {s : VertexEdges} {env : Env} {w : Write}

theorem start (h : s.Built) : Loaded s ⟨s, []⟩ where
  toStanding := Standing.start h
  stage d x hx := by
    have hhead : s.view.head d = some (headOf x) := by
      show (s.item d).map headOf = _
      rw [hx]
      rfl
    have hloaded := h.head hhead
    have hvbm : s.view.vbm = .empty := h.vbm
    refine .untouched (headOf x) rfl hhead ?_ ?_ rfl ?_ ?_
    · rw [hloaded]
      rfl
    · rw [hloaded]
      rfl
    · intro k c hc
      rw [h.changes] at hc
      cases hc
    · rw [hvbm]
      intro b hb
      cases hb

theorem head_none (hl : Loaded s h) {u : View} (hu : h.state.view.Merged u) {d : Nat}
    (hm : h.state.m d = false) : u.head d = none := by
  have hitem : h.state.item d = none := by
    rw [← Option.not_isSome_iff_eq_none, ← hl.wf.rep.m_iff, hm]
    exact Bool.false_ne_true
  rcases hu.head d with heq | ⟨hnone, -⟩
  · rw [heq]
    show (h.state.item d).map headOf = none
    rw [hitem]
    rfl
  · exact hnone

theorem step (hl : Loaded s h) {op : Op} (hok : h.Orderly S op ∧ h.KeepsLoaded op)
    (hstep : h.step .fineGrain S op = some h') : Loaded s h' := by
  obtain ⟨hord, hkeeps⟩ := hok
  refine ⟨hl.toStanding.step hord hstep, ?_⟩
  intro d x hx
  obtain ⟨-, hmoves⟩ := hl.toStanding.moves hord hstep
  have hstage := hl.stage d x hx
  cases hmoves with
  | unknown env w log merged =>
    rw [log]
    exact hstage.merge merged.stamp merged.changes merged.vbm (merged.head d)
  | wrote env o u merged lt free head_lt outcome =>
    have hopen := (hstage.merge merged.stamp merged.changes merged.vbm (merged.head d)).openTvb free
    cases outcome with
    | refused hlog hview =>
      rw [hlog, hview]
      exact hopen
    | accepted pending lastIndex hlog hknown hfits hview =>
      rw [hlog, hview]
      by_cases hd : o.write.dst = d
      · subst hd
        obtain ⟨delete, w⟩ := o
        apply hopen.write_same
        · rw [View.stamp_openTvb, if_pos rfl]
        · rw [View.endEpoch_openTvb]
          exact lt
        · exact hknown
        · exact hfits
        · rw [View.head_openTvb]
          rintro rfl hnone
          exact hl.head_none merged (hkeeps.1 hnone)
        · rintro rfl k c hc hkey hz hdel
          rw [View.changes_openTvb_of_free free] at hc
          rw [View.stamp_openTvb_of_free free (List.ne_nil_of_mem hc), merged.stamp]
          rw [merged.changes] at hc
          exact hkeeps.2 k (hl.slot_lt (List.ne_nil_of_mem hc)) c hc hkey hz hdel
      · exact hopen.write_other hd
  | idle epoch vb log view =>
    rw [log, view]
    exact hstage
  | transformed epoch vb log stamp full oldest view =>
    rw [log, view]
    exact hstage.transform hl.chained full vb oldest hkeeps

theorem run (hs : s.Built) {es : List Op}
    (hord : Along (Trace.step .fineGrain S) (Orderly S) ⟨s, []⟩ es)
    (hok : Along (Trace.step .fineGrain S) KeepsLoaded ⟨s, []⟩ es)
    (hrun : exec (Trace.step .fineGrain S) ⟨s, []⟩ es = some h) : Loaded s h :=
  invariant_of_step (fun _ _ _ hi ho hstep => hi.step ho hstep) (start hs) (hord.and hok) hrun

end Loaded

/-- After any published writes a reader at the end of an epoch before the first write on a loaded
edge gets this edge once, with its loaded weight. -/
theorem loaded_kept {s : VertexEdges} (hs : s.Built) {es : List Op}
    (hord : Along (step .fineGrain S) (Orderly S) ⟨s, []⟩ es)
    (hok : Along (step .fineGrain S) KeepsLoaded ⟨s, []⟩ es)
    (hrun : exec (step .fineGrain S) ⟨s, []⟩ es = some h)
    (hidle : ∀ k < 16, (h.state.tmpVb k).entries = []) {d : Nat} {x : Item}
    (hx : s.item d = some x) {e : Nat} (he : ∀ o, first h.log d = some o → e < o.write.epoch) :
    ((h.state.forEachEdgeWithProperty .fineGrain ⟨e, intraMax⟩).filter
      fun y => y.1.key = d).map (fun y => y.2.e) = [x.2.e] := by
  have hl := Loaded.run hs hord hok hrun
  have hnil : ∀ k, h.state.view.changes k = [] := by
    intro k
    by_contra hne
    have hlt : k < 16 := by
      rw [← (hl.chained.slot k hne).1]
      exact Nat.mod_lt _ (by decide)
    exact hne (VertexEdges.changes_eq_nil.mpr (hidle k hlt))
  rw [VertexEdges.emitted_view hl.wf.rep]
  exact (hl.stage d x hx).emitted hl.chained hnil he

/-- The loaded edge 7 is deleted in epoch 1: the reader at the end of epoch 0 gets its record. -/
theorem loaded_kept_seven : ∃ h, exec (step .fineGrain .stable) ⟨sevenLoaded, []⟩
    [deleteSeven 1 1 (by decide), .transform 1 100] = some h ∧
      ((h.state.forEachEdgeWithProperty .fineGrain ⟨0, intraMax⟩).filter
        fun y => y.1.key = 7).map (fun y => y.2.e) = [3] := by
  obtain ⟨h, hrun, hidle, hfirst⟩ : ∃ h, exec (step .fineGrain .stable) ⟨sevenLoaded, []⟩
      [deleteSeven 1 1 (by decide), .transform 1 100] = some h ∧
        (∀ k < 16, (h.state.tmpVb k).entries = []) ∧
          first h.log 7 = some ⟨true, sevenWrite 1 1 0 (by decide)⟩ := by
    apply exists_exec
    decide +kernel
  have hseven : sevenLoaded.item 7 = some (⟨7, 0, 0⟩, ⟨3, 0, 0⟩) := by decide
  refine ⟨h, hrun, ?_⟩
  apply loaded_kept built_sevenLoaded (by decide +kernel) (by decide +kernel) hrun hidle hseven
  intro o ho
  rw [hfirst] at ho
  rw [← Option.some.inj ho]
  decide

/-- The loaded edge 7 is overwritten in epoch 1: the reader at the end of epoch 0 gets nothing. -/
theorem loaded_lost_seven : ∃ h, exec (step .fineGrain .stable) ⟨sevenLoaded, []⟩
    [overwriteSeven 1 1 4 (by decide), .transform 1 100] = some h ∧
    Along (step .fineGrain .stable) (Orderly .stable) ⟨sevenLoaded, []⟩
      [overwriteSeven 1 1 4 (by decide), .transform 1 100] ∧
    (∀ k < 16, (h.state.tmpVb k).entries = []) ∧
    sevenLoaded.item 7 = some (⟨7, 0, 0⟩, ⟨3, 0, 0⟩) ∧
    first h.log 7 = some ⟨false, sevenWrite 1 1 4 (by decide)⟩ ∧
    h.state.forEachEdgeWithProperty .fineGrain ⟨0, intraMax⟩ = [] := by
  obtain ⟨h, hrun, hidle, hfirst, hread⟩ : ∃ h, exec (step .fineGrain .stable) ⟨sevenLoaded, []⟩
      [overwriteSeven 1 1 4 (by decide), .transform 1 100] = some h ∧
        (∀ k < 16, (h.state.tmpVb k).entries = []) ∧
        first h.log 7 = some ⟨false, sevenWrite 1 1 4 (by decide)⟩ ∧
        h.state.forEachEdgeWithProperty .fineGrain ⟨0, intraMax⟩ = [] := by
    apply exists_exec
    decide +kernel
  exact ⟨h, hrun, by decide +kernel, hidle, by decide, hfirst, hread⟩

end Trace

end AVBGraph
