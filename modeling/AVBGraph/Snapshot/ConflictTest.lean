import AVBGraph.Snapshot.CoarseWriters
import AVBGraph.Snapshot.NewestState

namespace AVBGraph

open Framework Function

/-- insert_edge_block or delete_edge_block. -/
def Applied.run (b : Build) (S : StdSort) (env : Env) (s : VertexEdges) (o : Applied) :
    Option WriteResult :=
  if o.delete then s.deleteEdgeBlock b S env o.write else s.insertEdgeBlock b S env o.write

/-- The g_oldest_epoch that a merge of this operation goes by. -/
def Op.oldest : Op → Nat
  | .insert env _ | .delete env _ => env.oldest
  | .transform _ _ => 0

/-- A vertex with its accepted insertions and deletions, and the largest g_oldest_epoch that merges
went by. -/
structure Watched where
  trace : Trace
  oldest : Nat

namespace Watched

variable {b : Build} {S : StdSort} {env : Env} {h h' : Watched} {t : Trace} {w : Write}

def step (b : Build) (S : StdSort) (h : Watched) (op : Op) : Option Watched :=
  (h.trace.step b S op).map fun t => ⟨t, max h.oldest op.oldest⟩

/-- Writes come for epochs above the last version block, whose slot is free or theirs; their lookup
returns the item of the edge, and g_oldest_epoch was never above the epochs of their transaction.
Transform takes the oldest pending epoch. -/
def Orderly (S : StdSort) (h : Watched) : Op → Prop
  | .insert env w | .delete env w => (h.trace.state.prepare S env).LookupRight w.dst ∧
      h.trace.state.vbm.endEpoch < w.epoch ∧ h.trace.state.SlotFree w.epoch ∧
      conflicts w.txn (max h.oldest env.oldest) w.epoch = false
  | .transform epoch _ => ∀ k < 16, (h.trace.state.tmpVb k).entries = [] ∨
      epoch ≤ (h.trace.state.tmpVb k).timestamp

/-- An insertion in the FINEGRAIN build that replaces a deletion passes the conflict test against
it; and Transform treats no entry whose edge has a newer pending version, except for first versions
in the FINEGRAIN build. -/
def Tested (b : Build) (S : StdSort) (h : Watched) : Op → Prop
  | .insert env w => b = .fineGrain → ∀ x ∈ (h.trace.state.prepare S env).item w.dst,
      isDelete x.1.e = true → conflicts w.txn x.1.getCoarseC w.epoch = false
  | .delete _ _ => True
  | .transform epoch _ => ∀ y ∈ (h.trace.state.tmpVb (epoch % 16)).entries,
      match b with
      | .fineGrain => (y.lastEpoch = 0 ∧ isDelete y.edge = false ∧ y.link.hasNextVB = true) ∨
          ∀ x ∈ h.trace.state.item y.key, VertexEdges.lastEpoch b x ≤ epoch
      | .coarse => y.link.hasNextVB = false ∧
          ∀ x ∈ h.trace.state.item y.key, VertexEdges.lastEpoch b x ≤ epoch

instance (S : StdSort) (h : Watched) (op : Op) : Decidable (h.Orderly S op) :=
  match op with
  | .insert _ _ | .delete _ _ => inferInstanceAs (Decidable (VertexEdges.LookupRight _ _ ∧
      _ < _ ∧ (_ = _ ∨ _ = []) ∧ _ = false))
  | .transform _ _ => inferInstanceAs (Decidable (∀ k < 16, _ ∨ _))

instance (b : Build) (S : StdSort) (h : Watched) (op : Op) : Decidable (h.Tested b S op) :=
  match op, b with
  | .insert _ _, _ => inferInstanceAs (Decidable (_ → ∀ x ∈ _, _ → _))
  | .delete _ _, _ => isTrue trivial
  | .transform _ _, .fineGrain => inferInstanceAs (Decidable (∀ y ∈ _, _ ∨ ∀ x ∈ _, _ ≤ _))
  | .transform _ _, .coarse => inferInstanceAs (Decidable (∀ y ∈ _, _ ∧ ∀ x ∈ _, _ ≤ _))

/-- The invariant of the runs. -/
structure Sound (b : Build) (h : Watched) : Prop where
  wf : h.trace.state.Wf
  guard : (h.trace.state.writers b).Guard h.trace.log h.oldest
  owned : b = .coarse → h.trace.state.Owned

/-- What a write does to a vertex, with the epoch that merges went by. The slot of an accepted write
was opened before. -/
inductive Wrote (b : Build) (log : List Applied) (oldest : Nat) (w : Write)
    (r : WriteResult) : Prop
  | mk (u : Writers) (guard : u.Guard log oldest)
      (stamp : r.accepted = true → u.stamp (w.epoch % 16) = w.epoch)
      (writes : u.Writes b w r.accepted (r.state.writers b)) (wf : r.state.Wf)
      (owned : b = .coarse → r.state.Owned)

namespace Sound

variable {r : WriteResult}

theorem start {s : VertexEdges} (hs : s.Built) : Sound b ⟨⟨s, []⟩, 0⟩ where
  wf := hs.wf
  guard := by
    apply Writers.Guard.start
    intro k
    exact VertexEdges.keys_eq_nil.mpr (hs.entries k)
  owned hb := by
    have hkeys : ∀ k, (s.writers .coarse).keys k = [] := fun k =>
      VertexEdges.keys_eq_nil.mpr (hs.entries k)
    refine ⟨hs.wf, ?_, ?_, ?_, ?_⟩
    · intro d x hx htmp
      have hzero : isTmp 0 = false := by decide
      rw [(hs.words hx).1, hzero] at htmp
      cases htmp
    · intro d x hx _
      rw [(hs.words hx).1]
      exact Nat.zero_le _
    · intro k
      rw [hkeys]
      exact List.nodup_nil
    · intro k hk
      exact absurd (hkeys k) hk

/-- The vertex as it is after the merge that a write may start with. -/
theorem prepared (S : StdSort) (env : Env) (hs : Sound b h)
    (hfree : h.trace.state.SlotFree w.epoch) :
    let s := h.trace.state.prepare S env
    s.Wf ∧ s.SlotFree w.epoch ∧ (s.writers b).Guard h.trace.log (max h.oldest env.oldest) ∧
      ((s.writers b).openSlot w.epoch).Guard h.trace.log (max h.oldest env.oldest) := by
  intro s
  have htmp : s.tmpVb = h.trace.state.tmpVb := VertexEdges.tmpVb_prepare
  have hguard : (s.writers b).Guard h.trace.log (max h.oldest env.oldest) :=
    VertexEdges.guard_prepare hs.wf.rep hs.guard
  have hfree' : s.SlotFree w.epoch := by
    show (s.tmpVb _).timestamp = _ ∨ (s.tmpVb _).entries = _
    rw [htmp]
    exact hfree
  refine ⟨VertexEdges.Wf.prepare_of_guard hs.wf hs.guard env, hfree', hguard, ?_⟩
  apply hguard.openSlot
  exact hfree'.imp_right VertexEdges.keys_eq_nil.mpr

/-- A write in the FINEGRAIN build. -/
theorem fineGrain (hs : Sound .fineGrain h) {o : Applied}
    (hfree : h.trace.state.SlotFree o.write.epoch)
    (hlook : (h.trace.state.prepare S env).LookupRight o.write.dst)
    (hfit : o.delete = false → ∀ x ∈ (h.trace.state.prepare S env).item o.write.dst,
      isDelete x.1.e = true → conflicts o.write.txn x.1.getCoarseC o.write.epoch = false)
    (hr : o.run .fineGrain S env h.trace.state = some r) :
    Wrote .fineGrain h.trace.log (max h.oldest env.oldest) o.write r := by
  obtain ⟨delete, w⟩ := o
  obtain ⟨hwf, hfree', hguard, hopen⟩ := hs.prepared S env hfree
  set s := h.trace.state.prepare S env
  set t := h.trace.record delete w r
  have hwriters : (s.view.openTvb w.epoch).writers = (s.writers .fineGrain).openSlot w.epoch := by
    rw [VertexEdges.writers_view]
    apply View.writers_openTvb
    exact hfree'.imp_right VertexEdges.changes_eq_nil.mpr
  have hopened : t.state.Wf → Trace.Outcome h.trace t delete w (s.view.openTvb w.epoch) →
      Wrote .fineGrain h.trace.log (max h.oldest env.oldest) w r := by
    intro hwf' hout
    have hdeleted : delete = false → ∀ g, (s.view.openTvb w.epoch).head w.dst = some g →
        g.deleted = true → conflicts w.txn g.time.e w.epoch = false := by
      intro hd g hg hdel
      rw [View.head_openTvb] at hg
      obtain ⟨x, hx, rfl⟩ := Option.map_eq_some_iff.mp hg
      exact hfit hd x hx hdel
    obtain ⟨accepted, hwrites, hlog⟩ := hout.writes hdeleted
    rw [hwriters, ← VertexEdges.writers_view, ← Trace.accepted_of_log hlog] at hwrites
    exact ⟨_, hopen, fun _ => update_self .., hwrites, hwf', fun hb => by cases hb⟩
  cases delete with
  | false =>
    have hr : h.trace.state.insertEdgeBlock .fineGrain S env w = some r := hr
    have hstep : h.trace.step .fineGrain S (.insert env w) = some t := by
      rw [Trace.step, hr]
      rfl
    obtain ⟨hwf', hout⟩ := Trace.insert_cases hs.wf.rep hwf hlook hstep
    exact hopened hwf' hout
  | true =>
    have hr : h.trace.state.deleteEdgeBlock .fineGrain S env w = some r := hr
    have hstep : h.trace.step .fineGrain S (.delete env w) = some t := by
      rw [Trace.step, hr]
      rfl
    obtain ⟨hwf', ⟨hlog, hview⟩ | hout⟩ := Trace.delete_cases hwf hlook hstep
    · -- the edge is not known
      have hacc : r.accepted = false := Trace.accepted_of_log (a := false) hlog
      have hsame : r.state.writers .fineGrain = s.writers .fineGrain := by
        rw [VertexEdges.writers_view, VertexEdges.writers_view]
        exact congrArg View.writers hview
      refine ⟨_, hguard, ?_, ?_, hwf', fun hb => by cases hb⟩
      · intro htrue
        rw [hacc] at htrue
        cases htrue
      · rw [hacc, hsame]
        exact .refused
    · exact hopened hwf' hout

/-- A write in the AVB_COARSE build. -/
theorem coarse (hs : Sound .coarse h) {o : Applied}
    (hfree : h.trace.state.SlotFree o.write.epoch)
    (hend : h.trace.state.vbm.endEpoch < o.write.epoch)
    (hlook : (h.trace.state.prepare S env).LookupRight o.write.dst)
    (hr : o.run .coarse S env h.trace.state = some r) :
    Wrote .coarse h.trace.log (max h.oldest env.oldest) o.write r := by
  obtain ⟨delete, w⟩ := o
  obtain ⟨hwf, hfree', hguard, hopen⟩ := hs.prepared S env hfree
  have howned := (hs.owned rfl).prepare hwf
  have hend' : (h.trace.state.prepare S env).vbm.endEpoch < w.epoch := by
    rw [VertexEdges.vbm_prepare]
    exact hend
  set s := h.trace.state.prepare S env with hsdef
  cases delete with
  | false =>
    have hr : h.trace.state.insertEdgeBlock .coarse S env w = some r := hr
    obtain ⟨f, hf, rfl⟩ := Option.map_eq_some_iff.mp hr
    obtain ⟨howned', hwrites⟩ := howned.found hend' hfree' hopen.buffered hlook
      (VertexEdges.tmpEv_prepare_lt hs.wf.rep) hf
    exact ⟨_, hopen, fun _ => update_self .., hwrites, howned'.wf, fun _ => howned'⟩
  | true =>
    have hr : h.trace.state.deleteEdgeBlock .coarse S env w = some r := hr
    unfold VertexEdges.deleteEdgeBlock at hr
    simp only [← hsdef] at hr
    cases hm : s.m w.dst with
    | true =>
      obtain ⟨l, hl, offset, hget, hk, hoff⟩ := hlook hm
      rw [hm, if_pos rfl, hget] at hr
      obtain rfl := Option.some.inj hr
      obtain ⟨howned', hwrites⟩ :=
        howned.openWrite hend' hfree' hopen.buffered hl hoff hk true
      exact ⟨_, hopen, fun _ => update_self .., hwrites, howned'.wf, fun _ => howned'⟩
    | false =>
      rw [hm, if_neg Bool.false_ne_true] at hr
      obtain rfl := Option.some.inj hr
      exact ⟨_, hguard, fun htrue => absurd htrue Bool.false_ne_true, .refused, hwf, fun _ => howned⟩

theorem write (hs : Sound b h) {o : Applied} (hord : h.Orderly S (o.op env))
    (hok : h.Tested b S (o.op env)) (hr : o.run b S env h.trace.state = some r) :
    Wrote b h.trace.log (max h.oldest env.oldest) o.write r ∧
      conflicts o.write.txn (max h.oldest env.oldest) o.write.epoch = false := by
  obtain ⟨delete, w⟩ := o
  obtain ⟨hlook, hend, hfree, hold⟩ : (h.trace.state.prepare S env).LookupRight w.dst ∧
      h.trace.state.vbm.endEpoch < w.epoch ∧ h.trace.state.SlotFree w.epoch ∧
      conflicts w.txn (max h.oldest env.oldest) w.epoch = false := by
    cases delete with
    | false => exact hord
    | true => exact hord
  refine ⟨?_, hold⟩
  cases b with
  | fineGrain =>
    refine hs.fineGrain hfree hlook ?_ hr
    intro hdelete
    obtain rfl : delete = false := hdelete
    exact hok rfl
  | coarse => exact hs.coarse hfree hend hlook hr

theorem step_write (hs : Sound b h) {o : Applied} (hord : h.Orderly S (o.op env))
    (hok : h.Tested b S (o.op env)) (hr : o.run b S env h.trace.state = some r) :
    Sound b ⟨h.trace.record o.delete o.write r, max h.oldest env.oldest⟩ := by
  obtain ⟨⟨u, hguard, hstamp, hwrites, hwf, howned⟩, hold⟩ := hs.write hord hok hr
  refine ⟨hwf, ?_, howned⟩
  show Writers.Guard (if r.accepted then _ else _) _ _
  cases hacc : r.accepted with
  | true =>
    rw [hacc] at hwrites
    exact hguard.write hwrites (hstamp hacc) hold o.delete
  | false =>
    rw [hacc] at hwrites
    exact hguard.refuse hwrites

/-- Transform takes the oldest slot with entries. -/
theorem ascending (hs : Sound b h) {epoch vb : Nat} (hord : h.Orderly S (.transform epoch vb))
    (hstamp : (h.trace.state.writers b).stamp (epoch % 16) = epoch) (k : Nat)
    (hk : (h.trace.state.writers b).keys k ≠ []) :
    (h.trace.state.writers b).stamp (epoch % 16) ≤ (h.trace.state.writers b).stamp k := by
  rw [hstamp]
  rcases hord k (hs.guard.slot_lt hk) with hnil | hle
  · exact absurd (VertexEdges.keys_eq_nil.mpr hnil) hk
  · exact hle

theorem transformFine (hs : Sound .fineGrain h) {epoch vb : Nat}
    (hok : h.Tested .fineGrain S (.transform epoch vb))
    (hstep : h.trace.step .fineGrain S (.transform epoch vb) = some t) :
    t.log = h.trace.log ∧ t.state.Wf ∧
      (h.trace.state.writers .fineGrain).stamp (epoch % 16) = epoch ∧
      (h.trace.state.writers .fineGrain).Publishes (epoch % 16) (t.state.writers .fineGrain) := by
  obtain ⟨hwf, hlog, hstamp, hview⟩ := Trace.transform_cases hs.wf hstep
  refine ⟨hlog, hwf, hstamp, ?_⟩
  rw [VertexEdges.writers_view, VertexEdges.writers_view, hview]
  apply View.publishes_transform
  intro c hc hlink g hg
  obtain ⟨y, hy, rfl⟩ := List.mem_map.mp hc
  obtain ⟨x, hx, rfl⟩ := Option.map_eq_some_iff.mp hg
  rw [hstamp]
  rcases hok y hy with ⟨hz, hlive, hnext⟩ | hnewest
  · exfalso
    apply hlink
    refine ⟨hz, hlive, ?_⟩
    show clearTmp y.link.block ≠ 0
    simpa [VersionLink.hasNextVB] using hnext
  · exact hnewest x hx

theorem transformCoarse (hs : Sound .coarse h) {epoch vb : Nat}
    (hord : h.Orderly S (.transform epoch vb)) (hok : h.Tested .coarse S (.transform epoch vb))
    (hstep : h.trace.step .coarse S (.transform epoch vb) = some t) :
    t.log = h.trace.log ∧ t.state.Owned ∧
      (h.trace.state.writers .coarse).stamp (epoch % 16) = epoch ∧
      (h.trace.state.writers .coarse).Publishes (epoch % 16) (t.state.writers .coarse) := by
  rw [Trace.step] at hstep
  split_ifs at hstep with hstamp
  obtain ⟨⟨n, s⟩, ht, rfl⟩ := Option.map_eq_some_iff.mp hstep
  have hready : VertexEdges.Ready h.trace.state (epoch % 16) := by
    refine ⟨fun y hy => (hok y hy).1, ?_⟩
    intro y hy
    obtain ⟨m, hm, hp, hle⟩ := hs.guard.buffered _ y.key (List.mem_map_of_mem hy)
    obtain ⟨x, hx, hlast, htmp⟩ := VertexEdges.newest_eq_some.mp hm
    rw [hp] at htmp
    have hge := (hok y hy).2 x hx
    rw [← hlast, VertexEdges.lastEpoch_tmp htmp] at hle
    rw [VertexEdges.lastEpoch_tmp htmp, ← hstamp] at hge
    exact ⟨x, hx, htmp, le_antisymm hge hle⟩
  by_cases hne : (h.trace.state.tmpVb (epoch % 16)).entries = []
  · unfold VertexEdges.transform at ht
    rw [if_pos hne] at ht
    obtain ⟨-, rfl⟩ := Prod.mk.inj (Option.some.inj ht)
    refine ⟨rfl, hs.owned rfl, hstamp, rfl, ?_, fun d => Or.inl rfl⟩
    rw [← VertexEdges.keys_eq_nil (b := .coarse).mpr hne, update_eq_self]
  · obtain ⟨howned, hpub⟩ := (hs.owned rfl).transform hready hs.guard.slot
      (hs.ascending hord hstamp) hne ht
    exact ⟨rfl, howned, hstamp, hpub⟩

theorem step_transform (hs : Sound b h) {epoch vb : Nat}
    (hord : h.Orderly S (.transform epoch vb)) (hok : h.Tested b S (.transform epoch vb))
    (hstep : h.trace.step b S (.transform epoch vb) = some t) :
    Sound b ⟨t, max h.oldest 0⟩ := by
  rw [Nat.max_zero]
  cases b with
  | fineGrain =>
    obtain ⟨hlog, hwf, hstamp, hpub⟩ := hs.transformFine hok hstep
    refine ⟨hwf, ?_, fun hb => by cases hb⟩
    rw [hlog]
    exact hs.guard.publish hpub (hs.ascending hord hstamp)
  | coarse =>
    obtain ⟨hlog, howned, hstamp, hpub⟩ := hs.transformCoarse hord hok hstep
    refine ⟨howned.wf, ?_, fun _ => howned⟩
    rw [hlog]
    exact hs.guard.publish hpub (hs.ascending hord hstamp)

theorem step (hs : Sound b h) {op : Op} (hord : h.Orderly S op) (hok : h.Tested b S op)
    (hstep : h.step b S op = some h') : Sound b h' := by
  obtain ⟨t, ht, rfl⟩ := Option.map_eq_some_iff.mp hstep
  cases op with
  | insert env w =>
    obtain ⟨r, hr, rfl⟩ := Option.map_eq_some_iff.mp ht
    exact hs.step_write (o := ⟨false, w⟩) hord hok hr
  | delete env w =>
    obtain ⟨r, hr, rfl⟩ := Option.map_eq_some_iff.mp ht
    exact hs.step_write (o := ⟨true, w⟩) hord hok hr
  | transform epoch vb => exact hs.step_transform hord hok ht

theorem run {s : VertexEdges} (hs : s.Built) {es : List Op}
    (hord : Along (Watched.step b S) (Orderly S) ⟨⟨s, []⟩, 0⟩ es)
    (hok : Along (Watched.step b S) (Tested b S) ⟨⟨s, []⟩, 0⟩ es)
    (hrun : exec (Watched.step b S) ⟨⟨s, []⟩, 0⟩ es = some h) : Sound b h :=
  invariant_of_step (fun _ _ _ hi ho hstep => hi.step ho.1 ho.2 hstep) (start hs) (hord.and hok)
    hrun

end Sound

/-- A write that is accepted after any run is not older than the writes that were accepted on its
edge, by its own epoch and by the read epoch of its transaction. -/
theorem conflict_test_sound {s : VertexEdges} (hs : s.Built) {es : List Op} {o : Applied}
    (hord : Along (step b S) (Orderly S) ⟨⟨s, []⟩, 0⟩ (es ++ [o.op env]))
    (hok : Along (step b S) (Tested b S) ⟨⟨s, []⟩, 0⟩ (es ++ [o.op env]))
    (hrun : exec (step b S) ⟨⟨s, []⟩, 0⟩ es = some h) {r : WriteResult}
    (hr : o.run b S env h.trace.state = some r) (hacc : r.accepted = true) :
    ∀ last ∈ h.trace.log, last.write.dst = o.write.dst →
      last.write.epoch ≤ o.write.epoch ∧
        (o.write.txn.writeOnly = false → last.write.epoch ≤ o.write.txn.readEpoch) := by
  rw [along_append hrun] at hord hok
  obtain ⟨⟨u, hguard, -, hwrites, -, -⟩, hold⟩ :=
    (Sound.run hs hord.1 hok.1 hrun).write hord.2.1 hok.2.1 hr
  rw [hacc] at hwrites
  intro last hlast hd
  exact conflicts_eq_false.mp (hguard.fits hwrites hold hlast hd)

/-- A write of edge 7 by a transaction that reads. -/
def readWriteSeven (epoch readEpoch : Nat) (h : 0 < epoch ∧ epoch < 2 ^ 31) : Write :=
  ⟨7, 9, epoch, ⟨false, readEpoch, 1, 64⟩, Write.seven_lt, Write.pos_of_epoch h, Write.lt_of_epoch h⟩

/-- The deletion of edge 7 in epoch 1 is published; a transaction of epoch 2 that reads epoch 1
inserts the edge again. -/
theorem conflict_test_sound_seven : ∃ h r,
    exec (step .fineGrain .stable) ⟨⟨sevenLoaded, []⟩, 0⟩
      [Trace.deleteSeven 1 1 (by decide), .transform 1 100] = some h ∧
    Applied.run .fineGrain .stable History.freshEnv h.trace.state
      ⟨false, readWriteSeven 2 1 (by decide)⟩ = some r ∧ r.accepted = true ∧
    h.trace.log.map (fun last => (last.write.dst, last.write.epoch)) = [(7, 1)] ∧
    ∀ last ∈ h.trace.log, last.write.dst = 7 →
      last.write.epoch ≤ 2 ∧ (false = false → last.write.epoch ≤ 1) := by
  obtain ⟨h, hrun, hlog, hany⟩ : ∃ h, exec (step .fineGrain .stable) ⟨⟨sevenLoaded, []⟩, 0⟩
      [Trace.deleteSeven 1 1 (by decide), .transform 1 100] = some h ∧
        h.trace.log.map (fun last => (last.write.dst, last.write.epoch)) = [(7, 1)] ∧
        (Applied.run .fineGrain .stable History.freshEnv h.trace.state
          ⟨false, readWriteSeven 2 1 (by decide)⟩).any (fun r => r.accepted) = true := by
    apply exists_exec
    decide +kernel
  obtain ⟨r, hr, hacc⟩ := (Option.any_eq_true ..).mp hany
  refine ⟨h, r, hrun, hr, hacc, hlog, ?_⟩
  exact conflict_test_sound built_sevenLoaded (by decide +kernel) (by decide +kernel) hrun hr hacc

/-- Two overwrites of edge 7 are pending when Transform takes the first one. -/
def hiddenSeven : List Op :=
  [overwriteSeven 1 1 4 Write.epoch_one, .transform 1 100, overwriteSeven 2 1 5 Write.epoch_two,
    overwriteSeven 3 1 6 Write.epoch_three, .transform 2 200]

private theorem exists_accepted (b : Build) (es : List Op) (w : Write) (n : Nat)
    (h : (exec (step b .stable) ⟨⟨sevenLoaded, []⟩, 0⟩ es).any (fun h =>
      (Applied.run b .stable History.freshEnv h.trace.state ⟨false, w⟩).any
        (fun r => r.accepted) &&
      h.trace.log.any fun last => last.write.dst = 7 && n < last.write.epoch) = true) :
    ∃ h r, exec (step b .stable) ⟨⟨sevenLoaded, []⟩, 0⟩ es = some h ∧
      Applied.run b .stable History.freshEnv h.trace.state ⟨false, w⟩ = some r ∧
      r.accepted = true ∧ ∃ last ∈ h.trace.log, last.write.dst = 7 ∧ ¬last.write.epoch ≤ n := by
  obtain ⟨h, hrun, hall⟩ := (Option.any_eq_true ..).mp h
  obtain ⟨hrun', hlast⟩ := (Bool.and_eq_true _ _).mp hall
  obtain ⟨r, hr, hacc⟩ := (Option.any_eq_true ..).mp hrun'
  refine ⟨h, r, hrun, hr, hacc, ?_⟩
  simpa using hlast

/-- In the FINEGRAIN build edge 7 is deleted in epoch 5 and inserted again in epoch 3. In both
builds Transform of epoch 2 hides the pending write of epoch 3 from a transaction of epoch 4 that
reads epoch 2. -/
theorem conflict_test_passed_seven :
    (Along (step .fineGrain .stable) (Orderly .stable) ⟨⟨sevenLoaded, []⟩, 0⟩
        ([Trace.deleteSeven 5 1 (by decide)] ++
          [Applied.op History.freshEnv ⟨false, sevenWrite 3 1 4 (by decide)⟩]) ∧
      ∃ h r, exec (step .fineGrain .stable) ⟨⟨sevenLoaded, []⟩, 0⟩
          [Trace.deleteSeven 5 1 (by decide)] = some h ∧
        Applied.run .fineGrain .stable History.freshEnv h.trace.state
          ⟨false, sevenWrite 3 1 4 (by decide)⟩ = some r ∧ r.accepted = true ∧
        ∃ last ∈ h.trace.log, last.write.dst = 7 ∧ ¬last.write.epoch ≤ 3) ∧
    ∀ b, Along (step b .stable) (Orderly .stable) ⟨⟨sevenLoaded, []⟩, 0⟩
        (hiddenSeven ++ [Applied.op History.freshEnv ⟨false, readWriteSeven 4 2 (by decide)⟩]) ∧
      ∃ h r, exec (step b .stable) ⟨⟨sevenLoaded, []⟩, 0⟩ hiddenSeven = some h ∧
        Applied.run b .stable History.freshEnv h.trace.state
          ⟨false, readWriteSeven 4 2 (by decide)⟩ = some r ∧ r.accepted = true ∧
        ∃ last ∈ h.trace.log, last.write.dst = 7 ∧ ¬last.write.epoch ≤ 2 := by
  refine ⟨⟨by decide +kernel, ?_⟩, fun b => ⟨?_, ?_⟩⟩
  · apply exists_accepted
    decide +kernel
  · cases b
    · decide +kernel
    · decide +kernel
  · apply exists_accepted
    cases b
    · decide +kernel
    · decide +kernel

end Watched

end AVBGraph
