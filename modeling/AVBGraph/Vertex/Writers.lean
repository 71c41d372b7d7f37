import AVBGraph.Vertex.Alike
import AVBGraph.Vertex.Publication
import AVBGraph.Vertex.Trace

namespace AVBGraph

open Framework Function

theorem conflicts_eq_false {txn : Transaction} {last epoch : Nat} :
    conflicts txn last epoch = false ↔
      last ≤ epoch ∧ (txn.writeOnly = false → last ≤ txn.readEpoch) := by
  cases hw : txn.writeOnly with
  | true => simp [conflicts, hw]
  | false =>
    simp only [conflicts, hw, Bool.not_false, Bool.true_and, Bool.or_eq_false_iff,
      decide_eq_false_iff_not, not_lt, true_implies]
    exact and_comm

/-- A test that a version passes is passed by the older ones. -/
theorem conflicts_mono {txn : Transaction} {m n epoch : Nat} (hmn : m ≤ n)
    (h : conflicts txn n epoch = false) : conflicts txn m epoch = false := by
  rw [conflicts_eq_false] at h ⊢
  exact ⟨hmn.trans h.1, fun hw => hmn.trans (h.2 hw)⟩

/-- The newest version of an edge, as far as the conflict test reads it. -/
@[ext] structure Newest where
  epoch : Nat
  pending : Bool
  deriving DecidableEq

/-- What the conflict tests of a vertex rest on: the newest versions, and the destinations of the
buffered entries with the epochs of the slots. -/
@[ext] structure Writers where
  newest : Nat → Option Newest
  keys : Nat → List Nat
  stamp : Nat → Nat

namespace Writers

variable {b : Build} {log : List Applied} {oldest slot epoch : Nat} {u v : Writers} {w : Write}

def openSlot (u : Writers) (epoch : Nat) : Writers :=
  { u with stamp := update u.stamp (epoch % 16) epoch }

/-- An edge with an item that has no version yet. -/
def adding (u : Writers) (d : Nat) : Writers :=
  { u with newest := update u.newest d (some ⟨0, false⟩) }

/-- The write adds an entry to the slot of its epoch. -/
def append (u : Writers) (w : Write) : Writers :=
  { u with
    newest := update u.newest w.dst (some ⟨w.epoch, true⟩)
    keys := update u.keys (w.epoch % 16) (u.keys (w.epoch % 16) ++ [w.dst]) }

/-- A new item is not the one of a buffered entry. -/
theorem buffered_adding {d : Nat} (hnone : u.newest d = none)
    (h : ∀ k, ∀ c ∈ (u.openSlot epoch).keys k, ∃ n, (u.openSlot epoch).newest c = some n ∧
      n.pending = true ∧ (u.openSlot epoch).stamp k ≤ n.epoch) :
    ∀ k, ∀ c ∈ ((u.adding d).openSlot epoch).keys k, ∃ n,
      ((u.adding d).openSlot epoch).newest c = some n ∧ n.pending = true ∧
        ((u.adding d).openSlot epoch).stamp k ≤ n.epoch := by
  intro k c hc
  obtain ⟨n, hn, hrest⟩ := h k c hc
  refine ⟨n, ?_, hrest⟩
  have hn : u.newest c = some n := hn
  have hne : c ≠ d := by
    rintro rfl
    rw [hnone] at hn
    cases hn
  exact (update_of_ne hne _ _).trans hn

/-- The effect of a write whose slot is open, and whether it is accepted. A repeated write of one
epoch may be folded into its entry. -/
inductive Writes (b : Build) (u : Writers) (w : Write) : Bool → Writers → Prop
  | refused : Writes b u w false u
  | folded (n : Newest) (newest : u.newest w.dst = some n) (epoch : n.epoch = w.epoch)
      (fits : conflicts w.txn n.epoch w.epoch = false) : Writes b u w true u
  | appended (fits : ∀ n, u.newest w.dst = some n → conflicts w.txn n.epoch w.epoch = false)
      (differs : b = .coarse → ∀ n, u.newest w.dst = some n → n.epoch ≠ w.epoch) :
      Writes b u w true (u.append w)

/-- The effect of Transform: the epoch of an edge with an entry in the slot may rise, if no newer
version of it is pending. -/
structure Publishes (slot : Nat) (u v : Writers) : Prop where
  stamp : v.stamp = u.stamp
  keys : v.keys = update u.keys slot []
  newest : ∀ d, v.newest d = u.newest d ∨ d ∈ u.keys slot ∧ ∃ n n', u.newest d = some n ∧
    v.newest d = some n' ∧ n.epoch ≤ n'.epoch ∧ n.epoch ≤ u.stamp slot

/-- No accepted write is younger than the newest version that its edge shows, or, when a merge
dropped the edge, than the epochs that merges went by; and an edge with a buffered entry shows a
pending version that is not older. -/
structure Guard (log : List Applied) (oldest : Nat) (u : Writers) : Prop where
  last : ∀ d n, u.newest d = some n → ∀ o ∈ log, o.write.dst = d → o.write.epoch ≤ n.epoch
  dropped : ∀ d, u.newest d = none → ∀ o ∈ log, o.write.dst = d → o.write.epoch ≤ oldest
  slot : ∀ k, u.keys k ≠ [] → u.stamp k % 16 = k
  buffered : ∀ k, ∀ d ∈ u.keys k, ∃ n, u.newest d = some n ∧ n.pending = true ∧
    u.stamp k ≤ n.epoch

namespace Guard

/-- Before the first write. -/
theorem start (hkeys : ∀ k, u.keys k = []) : Guard [] 0 u where
  last _ _ _ _ ho := absurd ho List.not_mem_nil
  dropped _ _ _ ho := absurd ho List.not_mem_nil
  slot k hk := absurd (hkeys k) hk
  buffered k d hd := by
    rw [hkeys] at hd
    cases hd

theorem slot_lt (h : Guard log oldest u) {k : Nat} (hk : u.keys k ≠ []) : k < 16 := by
  rw [← h.slot k hk]
  exact Nat.mod_lt _ (by decide)

/-- A merge drops versions that are published and older than the epoch that it goes by. -/
theorem merge (h : Guard log oldest u) {oldest' : Nat} (hle : oldest ≤ oldest')
    (hkeys : v.keys = u.keys) (hstamp : v.stamp = u.stamp)
    (hnewest : ∀ d, v.newest d = u.newest d ∨ v.newest d = none ∧
      ∃ n, u.newest d = some n ∧ n.pending = false ∧ n.epoch < oldest') : Guard log oldest' v where
  last d n hn o ho hd := by
    rcases hnewest d with heq | ⟨hnone, -⟩
    · exact h.last d n (heq ▸ hn) o ho hd
    · rw [hnone] at hn
      cases hn
  dropped d hnone o ho hd := by
    rcases hnewest d with heq | ⟨-, n, hn, -, hlt⟩
    · exact (h.dropped d (heq ▸ hnone) o ho hd).trans hle
    · exact (h.last d n hn o ho hd).trans hlt.le
  slot := by
    rw [hkeys, hstamp]
    exact h.slot
  buffered k d hd := by
    rw [hkeys] at hd
    obtain ⟨n, hn, hp, hle⟩ := h.buffered k d hd
    rcases hnewest d with heq | ⟨-, n', hn', hp', -⟩
    · rw [heq, hstamp]
      exact ⟨n, hn, hp, hle⟩
    · rw [hn] at hn'
      rw [Option.some.inj hn', hp'] at hp
      cases hp

theorem openSlot (h : Guard log oldest u)
    (hfree : u.stamp (epoch % 16) = epoch ∨ u.keys (epoch % 16) = []) :
    Guard log oldest (u.openSlot epoch) := by
  have hstamp : ∀ k, u.keys k ≠ [] → (u.openSlot epoch).stamp k = u.stamp k := by
    intro k hk
    show update u.stamp (epoch % 16) epoch k = u.stamp k
    by_cases hs : k = epoch % 16
    · subst hs
      rw [update_self]
      exact (hfree.resolve_right hk).symm
    · rw [update_of_ne hs]
  refine ⟨h.last, h.dropped, ?_, ?_⟩
  · intro k hk
    rw [hstamp k hk]
    exact h.slot k hk
  · intro k d hd
    rw [hstamp k (List.ne_nil_of_mem hd)]
    exact h.buffered k d hd

/-- An accepted write is not older than any accepted write on its edge. -/
theorem fits (h : Guard log oldest u) (hw : Writes b u w true v)
    (hold : conflicts w.txn oldest w.epoch = false) {o : Applied} (ho : o ∈ log)
    (hd : o.write.dst = w.dst) : conflicts w.txn o.write.epoch w.epoch = false := by
  cases hw with
  | folded n hn _ hfits => exact conflicts_mono (h.last _ n hn o ho hd) hfits
  | appended hfits _ =>
    cases hn : u.newest w.dst with
    | none => exact conflicts_mono (h.dropped _ hn o ho hd) hold
    | some n => exact conflicts_mono (h.last _ n hn o ho hd) (hfits n hn)

theorem refuse (h : Guard log oldest u) (hw : Writes b u w false v) : Guard log oldest v := by
  cases hw with
  | refused => exact h

theorem write (h : Guard log oldest u) (hw : Writes b u w true v)
    (hstamp : u.stamp (w.epoch % 16) = w.epoch) (hold : conflicts w.txn oldest w.epoch = false)
    (delete : Bool) : Guard (log ++ [⟨delete, w⟩]) oldest v := by
  have hfits : ∀ o ∈ log, o.write.dst = w.dst → o.write.epoch ≤ w.epoch := by
    intro o ho hd
    exact (conflicts_eq_false.mp (h.fits hw hold ho hd)).1
  have hmem : ∀ o : Applied, o ∈ log ++ [⟨delete, w⟩] → o ∈ log ∨ o.write = w := by
    intro o ho
    rcases List.mem_append.mp ho with ho | ho
    · exact Or.inl ho
    · rw [List.mem_singleton.mp ho]
      exact Or.inr rfl
  cases hw with
  | folded n hn hepoch _ =>
    refine ⟨?_, ?_, h.slot, h.buffered⟩
    · intro d n' hn' o ho hd
      rcases hmem o ho with ho | rfl
      · exact h.last d n' hn' o ho hd
      · subst hd
        rw [hn] at hn'
        rw [← Option.some.inj hn', hepoch]
    · intro d hnone o ho hd
      rcases hmem o ho with ho | rfl
      · exact h.dropped d hnone o ho hd
      · subst hd
        rw [hn] at hnone
        cases hnone
  | appended hfit _ =>
    have hnewest : ∀ d, (u.append w).newest d =
        if d = w.dst then some ⟨w.epoch, true⟩ else u.newest d := fun d => update_apply ..
    have hkeys : ∀ k, (u.append w).keys k =
        if k = w.epoch % 16 then u.keys (w.epoch % 16) ++ [w.dst] else u.keys k :=
      fun k => update_apply ..
    refine ⟨?_, ?_, ?_, ?_⟩
    · intro d n hn o ho hd
      rw [hnewest] at hn
      split_ifs at hn with heq
      · rw [← Option.some.inj hn]
        rcases hmem o ho with ho | rfl
        · exact hfits o ho (hd.trans heq)
        · exact le_rfl
      · rcases hmem o ho with ho | rfl
        · exact h.last d n hn o ho hd
        · exact absurd hd.symm heq
    · intro d hnone o ho hd
      rw [hnewest] at hnone
      split_ifs at hnone with heq
      rcases hmem o ho with ho | rfl
      · exact h.dropped d hnone o ho hd
      · exact absurd hd.symm heq
    · intro k hk
      rw [hkeys] at hk
      split_ifs at hk with hslot
      · show u.stamp k % 16 = k
        rw [hslot, hstamp]
      · exact h.slot k hk
    · intro k d hd
      rw [hkeys] at hd
      rw [hnewest]
      by_cases heq : d = w.dst
      · rw [if_pos heq]
        refine ⟨_, rfl, rfl, ?_⟩
        show u.stamp k ≤ w.epoch
        split_ifs at hd with hslot
        · rw [hslot, hstamp]
        · obtain ⟨n, hn, -, hle⟩ := h.buffered k d hd
          exact hle.trans (conflicts_eq_false.mp (hfit n (heq ▸ hn))).1
      · rw [if_neg heq]
        split_ifs at hd with hslot
        · rw [hslot]
          rcases List.mem_append.mp hd with hd | hd
          · exact h.buffered _ d hd
          · exact absurd (List.mem_singleton.mp hd) heq
        · exact h.buffered k d hd

/-- Transform of the oldest epoch with entries. -/
theorem publish (h : Guard log oldest u) (hp : Publishes slot u v)
    (hasc : ∀ k, u.keys k ≠ [] → u.stamp slot ≤ u.stamp k) : Guard log oldest v := by
  have hkeys : ∀ k, v.keys k = if k = slot then [] else u.keys k := by
    intro k
    rw [hp.keys]
    exact update_apply ..
  refine ⟨?_, ?_, ?_, ?_⟩
  · intro d n' hn' o ho hd
    rcases hp.newest d with heq | ⟨-, n, m, hn, hm, hle, -⟩
    · exact h.last d n' (heq ▸ hn') o ho hd
    · rw [hm] at hn'
      rw [← Option.some.inj hn']
      exact (h.last d n hn o ho hd).trans hle
  · intro d hnone o ho hd
    rcases hp.newest d with heq | ⟨-, n, m, -, hm, -, -⟩
    · exact h.dropped d (heq ▸ hnone) o ho hd
    · rw [hm] at hnone
      cases hnone
  · intro k hk
    rw [hkeys] at hk
    rw [hp.stamp]
    apply h.slot
    intro hnil
    apply hk
    rw [hnil, ite_self]
  · intro k d hd
    rw [hkeys] at hd
    split_ifs at hd with hks
    · cases hd
    · rw [hp.stamp]
      rcases hp.newest d with heq | ⟨hmem, n, -, hn, -, -, hle⟩
      · rw [heq]
        exact h.buffered k d hd
      · -- a slot with this edge would be as old as the one that is transformed
        obtain ⟨n', hn', -, hle'⟩ := h.buffered k d hd
        rw [hn] at hn'
        rw [← Option.some.inj hn'] at hle'
        have hge := hasc k (List.ne_nil_of_mem hd)
        exfalso
        apply hks
        rw [← h.slot k (List.ne_nil_of_mem hd), le_antisymm (hle'.trans hle) hge]
        exact h.slot slot (List.ne_nil_of_mem hmem)

end Guard

end Writers

namespace VertexEdges

variable {S : StdSort} {env : Env} {b : Build} {s : VertexEdges}

/-- The last epoch that insert_edge_block and delete_edge_block read from an item. -/
def lastEpoch (b : Build) (x : Item) : Nat :=
  match b with
  | .fineGrain => x.1.getCoarseC
  | .coarse => if isTmp x.1.block then x.2.block else x.1.block

def writers (b : Build) (s : VertexEdges) : Writers where
  newest d := (s.item d).map fun x => ⟨lastEpoch b x, isTmp x.1.block⟩
  keys k := (s.tmpVb k).entries.map VersionEntry.key
  stamp k := (s.tmpVb k).timestamp

theorem newest_eq_some {d : Nat} {n : Newest} : (s.writers b).newest d = some n ↔
    ∃ x, s.item d = some x ∧ lastEpoch b x = n.epoch ∧ isTmp x.1.block = n.pending := by
  show (s.item d).map _ = some n ↔ _
  rw [Option.map_eq_some_iff]
  apply exists_congr
  intro x
  rw [Newest.ext_iff]

theorem keys_eq_nil {k : Nat} : (s.writers b).keys k = [] ↔ (s.tmpVb k).entries = [] :=
  List.map_eq_nil_iff

/-- An item that a merge drops is published, and its epoch is older than the merge's. -/
theorem lastEpoch_of_dropped (b : Build) {x : Item} (hx : dropped env.oldest x.1 = true) :
    isTmp x.1.block = false ∧ lastEpoch b x < env.oldest := by
  have hlt : x.1.block < env.oldest := by
    unfold dropped at hx
    exact (of_decide_eq_true hx).2
  have htmp : isTmp x.1.block = false := isTmp_of_lt (hlt.trans env.oldest_lt)
  refine ⟨htmp, ?_⟩
  cases b with
  | fineGrain =>
    show clearTmp x.1.block < env.oldest
    rw [clearTmp_of_lt (hlt.trans env.oldest_lt)]
    exact hlt
  | coarse =>
    show (if isTmp x.1.block then x.2.block else x.1.block) < env.oldest
    rw [htmp, if_neg Bool.false_ne_true]
    exact hlt

theorem guard_prepare {log : List Applied} {oldest : Nat} (hrep : Rep s)
    (h : (s.writers b).Guard log oldest) :
    ((s.prepare S env).writers b).Guard log (max oldest env.oldest) := by
  apply h.merge (le_max_left ..)
  · funext k
    show ((s.prepare S env).tmpVb k).entries.map _ = _
    rw [tmpVb_prepare]
    rfl
  · funext k
    show ((s.prepare S env).tmpVb k).timestamp = _
    rw [tmpVb_prepare]
    rfl
  · intro d
    show ((s.prepare S env).item d).map _ = (s.item d).map _ ∨ ((s.prepare S env).item d).map _ = none ∧ _
    rcases (item_prepare hrep d : (s.prepare S env).item d = _ ∨ _) with heq | ⟨hnone, x, hx, hdrop⟩
    · left
      rw [heq]
    · right
      obtain ⟨htmp, hlt⟩ := lastEpoch_of_dropped b hdrop
      rw [hnone]
      refine ⟨rfl, ⟨lastEpoch b x, isTmp x.1.block⟩, ?_, htmp, hlt.trans_le (le_max_right ..)⟩
      exact newest_eq_some.mpr ⟨x, hx, rfl, rfl⟩

/-- A merge drops no edge with a buffered entry. -/
theorem Wf.prepare_of_guard {log : List Applied} {oldest : Nat} (hwf : Wf s)
    (h : (s.writers b).Guard log oldest) (env : Env) : Wf (s.prepare S env) := by
  apply hwf.prepare
  intro slot y hy x hx
  obtain ⟨n, hn, hp, -⟩ := h.buffered slot y.key (List.mem_map_of_mem hy)
  obtain ⟨x', hx', -, htmp⟩ := newest_eq_some.mp hn
  rw [hx] at hx'
  apply not_dropped_of_pending
  rw [Option.some.inj hx', htmp, hp]

end VertexEdges

section FineGrain

variable {S : StdSort} {v : View} {w : Write} {slot epoch : Nat}

def View.writers (v : View) : Writers where
  newest d := (v.head d).map fun g => ⟨g.time.e, g.pending⟩
  keys k := (v.changes k).map Change.key
  stamp := v.stamp

theorem VertexEdges.writers_view (s : VertexEdges) : s.writers .fineGrain = s.view.writers := by
  ext1
  · funext d
    show (s.item d).map _ = ((s.item d).map headOf).map _
    rw [Option.map_map]
    rfl
  · funext k
    show (s.tmpVb k).entries.map _ = ((s.tmpVb k).entries.map VersionEntry.change).map _
    rw [List.map_map]
    rfl
  · rfl

theorem View.writers_openTvb (hfree : v.stamp (epoch % 16) = epoch ∨ v.changes (epoch % 16) = []) :
    (v.openTvb epoch).writers = v.writers.openSlot epoch := by
  ext1
  · funext d
    show ((v.openTvb epoch).head d).map _ = _
    rw [head_openTvb]
    rfl
  · funext k
    show ((v.openTvb epoch).changes k).map _ = (v.changes k).map _
    rw [changes_openTvb_of_free hfree.symm]
  · funext k
    show (v.openTvb epoch).stamp k = update v.stamp (epoch % 16) epoch k
    rw [stamp_openTvb, update_apply]

theorem View.writers_addVersion (delete pending : Bool) (last : Composite) (lastIndex weight : Nat) :
    (v.addVersion delete pending last lastIndex weight w).writers = v.writers.append w := by
  set u := v.addVersion delete pending last lastIndex weight w with hu
  have hkeys : ∀ cs : List Change, cs.map Change.key = (cs.map Change.erase).map Change.key := by
    intro cs
    rw [List.map_map]
    rfl
  ext1
  · funext d
    show (u.head d).map (fun g => Newest.mk g.time.e g.pending) =
      update (fun d => (v.head d).map fun g => Newest.mk g.time.e g.pending) w.dst
        (some ⟨w.epoch, true⟩) d
    rw [hu, head_addVersion]
    by_cases hd : d = w.dst
    · rw [hd, update_self, update_self]
      rfl
    · rw [update_of_ne hd, update_of_ne hd]
  · funext k
    show (u.changes k).map _ = update (fun k => (v.changes k).map Change.key) _ _ k
    rw [hkeys, hu, addVersion_erase, List.map_append, ← hkeys, update_apply]
    split_ifs with hk
    · rw [hk, List.map_singleton, key_newChange]
      rfl
    · rw [List.map_nil, List.append_nil]
  · show (v.addVersion delete pending last lastIndex weight w).stamp = v.stamp
    exact stamp_addVersion

/-- A write in the FINEGRAIN build. An insertion does not test the deletion that it replaces. -/
theorem Trace.Outcome.writes {h h' : Trace} {delete : Bool} (hout : Outcome h h' delete w v)
    (hfit : delete = false → ∀ g, v.head w.dst = some g → g.deleted = true →
      conflicts w.txn g.time.e w.epoch = false) :
    ∃ accepted, Writers.Writes .fineGrain v.writers w accepted h'.state.view.writers ∧
      h'.log = if accepted then h.log ++ [⟨delete, w⟩] else h.log := by
  cases hout with
  | refused hlog hview =>
    refine ⟨false, ?_, hlog⟩
    rw [hview]
    exact .refused
  | accepted pending lastIndex hlog hknown hfits hview =>
    refine ⟨true, ?_, hlog⟩
    rw [hview, View.writers_addVersion]
    refine .appended ?_ fun hb => by cases hb
    intro n hn
    obtain ⟨g, hg, rfl⟩ := Option.map_eq_some_iff.mp hn
    rw [hg] at hfits
    show conflicts w.txn g.time.e w.epoch = false
    cases delete with
    | true => exact hfits
    | false =>
      cases hdel : g.deleted with
      | true => exact hfit rfl g hg hdel
      | false => simpa [replacedTime, View.lastTime, hdel] using hfits

/-- An entry that records a first version, to which a later write is linked. -/
def Change.Linked (c : Change) : Prop :=
  c.old.e = 0 ∧ isDelete c.edge = false ∧ c.next ≠ 0

/-- The epoch and TMPVB_MASK of an item in the middle of Transform: those of the start, or the epoch
of the slot after an entry that is not linked. -/
def View.Displayed (v : View) (slot d : Nat) (x : Option Head) : Prop :=
  x.map (fun g => Newest.mk g.time.e g.pending) =
      (v.head d).map (fun g => Newest.mk g.time.e g.pending) ∨
    (∃ c ∈ v.changes slot, c.key = d ∧ ¬c.Linked) ∧ ∃ g g', v.head d = some g ∧ x = some g' ∧
      g'.time.e = v.stamp slot

theorem View.Displayed.map {d : Nat} {x : Option Head} (h : v.Displayed slot d x) {f : Head → Head}
    (hf : ∀ g, (f g).time.e = v.stamp slot) (hc : ∃ c ∈ v.changes slot, c.key = d ∧ ¬c.Linked) :
    v.Displayed slot d (x.map f) := by
  cases x with
  | none =>
    rcases h with heq | ⟨-, g, g', -, hnone, -⟩
    · exact Or.inl heq
    · cases hnone
  | some g' =>
    right
    refine ⟨hc, ?_⟩
    rcases h with heq | ⟨-, g, -, hg, -, -⟩
    · obtain ⟨g, hg, -⟩ := Option.map_eq_some_iff.mp heq.symm
      exact ⟨g, f g', hg, rfl, hf g'⟩
    · exact ⟨g, f g', hg, rfl, hf g'⟩

theorem View.displayed_publishAll : ∀ d, v.Displayed slot d ((publishAll S slot v).head d) := by
  apply publishAll_induction (I := fun p => ∀ d, v.Displayed slot d (p.head d))
  · intro d
    exact Or.inl rfl
  · intro p hp c hc hz hlive d
    show v.Displayed slot d (update p.head c.key ((p.head c.key).map _) d)
    by_cases hd : d = c.key
    · subst hd
      rw [update_self]
      by_cases hnext : c.next = 0
      · apply (hp c.key).map
        · intro g
          rw [freshHead, if_neg (not_not.mpr hnext)]
        · exact ⟨c, hc, rfl, fun hlink => hlink.2.2 hnext⟩
      · -- a linked entry publishes its weight only
        have hsame : ∀ x : Option Head, (x.map (freshHead (v.stamp slot) c)).map
            (fun g => Newest.mk g.time.e g.pending) =
              x.map fun g => Newest.mk g.time.e g.pending := by
          intro x
          rw [Option.map_map]
          congr 1
          funext g
          simp only [Function.comp, freshHead, ne_eq, hnext, not_false_eq_true, if_true]
        rcases hp c.key with heq | ⟨hc', g, g', hg, hg', htime⟩
        · left
          rw [hsame, heq]
        · right
          refine ⟨hc', g, freshHead (v.stamp slot) c g', hg, ?_, ?_⟩
          · rw [hg', Option.map_some]
          · rw [freshHead, if_pos hnext]
            exact htime
    · rw [update_of_ne hd]
      exact hp d
  · intro p hp c hc hor d
    show v.Displayed slot d (update p.head c.key ((p.head c.key).map _) d)
    by_cases hd : d = c.key
    · subst hd
      rw [update_self]
      apply (hp c.key).map
      · intro g
        rfl
      · refine ⟨c, hc, rfl, ?_⟩
        rintro ⟨hz, hlive, -⟩
        rcases hor with hnz | hdel
        · exact hnz hz
        · rw [hlive] at hdel
          cases hdel
    · rw [update_of_ne hd]
      exact hp d

/-- Transform in the FINEGRAIN build: the entries whose edge has a newer pending version are
linked. -/
theorem View.publishes_transform (vb : Nat) (hnewest : ∀ c ∈ v.changes slot, ¬c.Linked →
    ∀ g, v.head c.key = some g → g.time.e ≤ v.stamp slot) :
    v.writers.Publishes slot (v.transform S slot vb).writers := by
  refine ⟨stamp_transform vb, ?_, ?_⟩
  · funext k
    show ((v.transform S slot vb).changes k).map _ = update (fun k => (v.changes k).map _) slot [] k
    rw [changes_transform, update_apply]
    split_ifs
    · rfl
    · rfl
  · intro d
    have hdisp : v.Displayed slot d ((v.transform S slot vb).head d) := by
      by_cases hne : v.changes slot = []
      · left
        rw [transform_of_nil hne]
      · rw [head_transform hne]
        exact displayed_publishAll d
    refine hdisp.imp_right ?_
    rintro ⟨⟨c, hc, rfl, hlink⟩, g, g', hg, hg', htime⟩
    have hle := hnewest c hc hlink g hg
    refine ⟨List.mem_map_of_mem hc, ⟨g.time.e, g.pending⟩, ⟨g'.time.e, g'.pending⟩, ?_, ?_, ?_, hle⟩
    · show (v.head c.key).map _ = _
      rw [hg]
      rfl
    · show ((v.transform S slot vb).head c.key).map _ = _
      rw [hg']
      rfl
    · show g.time.e ≤ g'.time.e
      rw [htime]
      exact hle

end FineGrain

end AVBGraph
