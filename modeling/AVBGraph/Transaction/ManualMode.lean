import AVBGraph.Transaction.Ordered
import AVBGraph.Transaction.Registered
import AVBGraph.Transaction.TimeOrder

namespace AVBGraph

open Framework Function

/-- What the thread of a serial program is in the middle of. -/
inductive Phase
  | idle
  | writing (t : Nat)
  | publishing (c : Nat)
  deriving DecidableEq

/-- An AllVBManager that was built with on = false, and a thread that runs one transaction after
the other on it. -/
structure Manual where
  journal : Journal
  cur : Nat
  readEpoch : Nat
  phase : Phase

/-- One step of the thread: registerTransaction, a step of insertedge or commit,
deregisterTransaction, or commitVersionBlock with the rounds of its loop. -/
inductive Act
  | registerTransaction (t : Nat) (x : Txn) (create : Bool)
  | thread (e : Event)
  | deregisterTransaction
  | commitVersionBlock (c : Nat)
  | collect
  | handOver (i vb : Nat)
  | advance
  | unlock

/-- The transaction whose thread makes a step. -/
def Event.thread : Event → Option Nat
  | .call t _ | .lock t | .run t _ | .commit t | .unlock t => some t
  | .register _ _ | .collect _ | .handOver _ _ _ => none

/-- The steps inside a call of commitVersionBlock. -/
def Act.Publishes : Act → Prop
  | .collect | .handOver _ _ | .advance | .unlock => True
  | _ => False

namespace Manual

def system (s : Manual) : System := s.journal.system

def start (vertices : Nat → VertexEdges) : Manual := ⟨.start vertices, 1, 0, .idle⟩

def next (S : StdSort) (s : Manual) (e : Event) : Option Manual :=
  (s.journal.step .fineGrain S e).map fun j => { s with journal := j }

/-- The loop of commitVersionBlock(c) is not finished. -/
def Publishing (s : Manual) : Prop :=
  match s.phase with
  | .publishing c => s.readEpoch + 1 < c
  | _ => False

instance (s : Manual) : Decidable s.Publishing :=
  match h : s.phase with
  | .publishing c => decidable_of_iff (s.readEpoch + 1 < c) (by simp [Publishing, h])
  | .idle => isFalse (by simp [Publishing, h])
  | .writing _ => isFalse (by simp [Publishing, h])

/-- registerTransaction takes the current epoch, unless test1 waits for room in the ring;
`create` is its random branch, which opens the next epoch. -/
def step (S : StdSort) (s : Manual) : Act → Option Manual
  | .registerTransaction t x create =>
    if s.phase = .idle ∧ s.cur - s.readEpoch < 16 ∧ x.epoch = s.cur ∧ x.readEpoch = s.readEpoch then
      (s.next S (.register t x)).map fun s =>
        { s with cur := if create then s.cur + 1 else s.cur, phase := .writing t }
    else none
  | .thread e =>
    match s.phase with
    | .writing t => if e.thread = some t then s.next S e else none
    | _ => none
  | .deregisterTransaction =>
    match s.phase with
    | .writing t =>
      if (s.system.txns t).map Txn.pc = some (.committing []) then some { s with phase := .idle }
      else none
    | _ => none
  | .commitVersionBlock c =>
    if s.phase = .idle ∧ c ≤ s.cur + 1 then some { s with phase := .publishing c } else none
  | .collect => if s.Publishing then s.next S (.collect (s.readEpoch + 1)) else none
  | .handOver i vb => if s.Publishing then s.next S (.handOver (s.readEpoch + 1) i vb) else none
  | .advance =>
    if s.Publishing ∧ s.system.Published (s.readEpoch + 1) then
      some { s with readEpoch := s.readEpoch + 1 }
    else none
  | .unlock =>
    match s.phase with
    | .publishing c => if s.readEpoch + 1 < c then none else some { s with phase := .idle }
    | _ => none

/-- The newest accepted write of every edge is what a reader of the published epochs is given. -/
def Visible (s : Manual) : Prop :=
  ∀ v d w, ((s.journal.writesAt v).filter fun w => w.dst = d).getLast? = some w →
    s.journal.weights ⟨s.readEpoch, intraMax⟩ v d = [w.weight]

/-- A transaction writes to an unpublished epoch; and between two calls of the thread a
commitVersionBlock(cur_ + 1) makes all accepted writes visible. -/
def Safe (S : StdSort) (s : Manual) : Prop :=
  (∀ t, s.phase = .writing t → ∀ x ∈ s.system.txns t, s.readEpoch < x.epoch) ∧
  (s.phase = .idle → ∃ acts u, (∀ a ∈ acts, a.Publishes) ∧
    exec (step S) s (.commitVersionBlock (s.cur + 1) :: acts) = some u ∧ u.phase = .idle ∧
      u.Visible)

/-- An insertedge call of a thread that commitVersionBlock knows, whose lookup returns the item of
its destination and which finds the newest version there, below the bounds of timestamps and
entries. -/
def CallOk (S : StdSort) (s : Manual) : Act → Prop
  | .registerTransaction _ x _ => x.threadid < writeThread
  | .thread (.run t env) => s.system.Inside t fun x c =>
      let v := s.system.vertices c.src
      c.delete = false ∧ (v.prepare S env).LookupRight c.dst ∧
      (∀ k < 16, (v.tmpVb k).entries.length < 2 ^ 32) ∧
      x.getIntraC (s.system.vbData x.epoch) < intraMax ∧
      (v.prepare S env).liveTime c.dst = s.journal.newestAt c.src c.dst
  | _ => True

/-- registerTransaction finds an epoch that is not published. -/
def Unpublished (s : Manual) : Act → Prop
  | .registerTransaction _ _ _ => s.readEpoch < s.cur
  | _ => True

/-- The epochs that may have been handed over. -/
def reached (s : Manual) : Nat := if s.Publishing then s.readEpoch + 1 else s.readEpoch

/-- The vertices and the VBData of a serial run in which the epochs up to `readEpoch` are published,
those up to `reached` may have been handed over and none above `cur` was written. -/
structure Base (malloc tmp : Nat → Nat → EdgeWithIndex) (j : Journal) (cur readEpoch reached : Nat) :
    Prop where
  ordered : j.Ordered malloc tmp
  registry : System.Registry j.system
  published : ∀ e, 0 < e → e ≤ readEpoch → j.system.Published e
  fresh : ∀ e, reached < e → (j.system.vbData e).todo = none
  stamp_le : ∀ v k, (j.system.vertices v).view.stamp k ≤ cur
  pending : ∀ v k, (j.system.vertices v).view.changes k ≠ [] →
    readEpoch < (j.system.vertices v).view.stamp k
  handed_le : ∀ h ∈ j.system.handed, h.epoch ≤ reached
  handed : ∀ h ∈ j.system.handed, (j.system.vertices h.src).view.stamp h.slot = h.epoch →
    (j.system.vertices h.src).view.changes h.slot = []
  end_le : ∀ v, (j.system.vertices v).view.vbm.endEpoch ≤ reached
  recent : ∀ v, ∀ w ∈ j.writesAt v, w.epoch ≤ cur ∧
    w.txn.intra ≤ (j.system.vbData w.epoch).intraCounter

end Manual

namespace System

variable {S : StdSort} {s s' : System} {e : Event} {t : Nat} {x : Txn} {c : Call} {env : Env}

/-- What the end of a write does to its transaction and to the counters. -/
theorem finish_txn (S : StdSort) (s : System) (t : Nat) (x : Txn) (c : Call) (env : Env)
    (r : WriteResult) :
    let s' := s.finish .fineGrain S env t x c r
    let d := s.vbData x.epoch
    ∃ y : Txn, s'.txns = update s.txns t (some y) ∧ y.epoch = x.epoch ∧ y.threadid = x.threadid ∧
      if r.accepted = true then y.intra = x.getIntraC d ∧ y.ebVec = x.ebVec ++ [c.src] ∧
        ∀ e, (s'.vbData e).intraCounter = (update s.vbData x.epoch (x.drawIntra d) e).intraCounter
      else y.intra = x.intra ∧ y.ebVec = x.ebVec ∧
        ∀ e, (s'.vbData e).intraCounter = (s.vbData e).intraCounter := by
  intro s' d
  have hreg : (if r.registered then d.pushback (c.src, x.epoch % 16) x.threadid else d).intraCounter =
      d.intraCounter := by
    split_ifs <;> rfl
  have hdraw : ∀ d' : VBData, (x.drawIntra d').intraCounter =
      if x.intra = 0 then d'.intraCounter + 1 else d'.intraCounter := by
    intro d'
    unfold Txn.drawIntra
    split_ifs <;> rfl
  unfold s' finish
  dsimp only
  cases hacc : r.accepted with
  | false =>
    refine ⟨{ x with pc := .ready }, rfl, rfl, rfl, ?_⟩
    rw [if_neg Bool.false_ne_true]
    refine ⟨rfl, rfl, fun e => ?_⟩
    rw [if_neg Bool.false_ne_true]
    by_cases he : e = x.epoch
    · subst he
      simp only [update_self]
      exact hreg
    · simp only [update_of_ne he]
  | true =>
    refine ⟨{ x with intra := x.getIntraC d, ebVec := x.ebVec ++ [c.src], pc := .ready }, rfl, rfl,
      rfl, ?_⟩
    rw [if_pos rfl]
    refine ⟨rfl, rfl, fun e => ?_⟩
    rw [if_pos rfl]
    by_cases he : e = x.epoch
    · subst he
      simp only [update_self, hdraw]
      rw [hreg]
    · simp only [update_of_ne he]

/-- A step of a transaction outside its writes touches itself, and at most draws its timestamp. -/
theorem step_thread (ht : e.thread = some t) (hrun : ∀ env, e ≠ .run t env)
    (h : s.step .fineGrain S e = some s') : ∃ x y, s.txns t = some x ∧
      s'.txns = update s.txns t (some y) ∧ y.epoch = x.epoch ∧ y.threadid = x.threadid ∧
      y.ebVec = x.ebVec ∧ s'.handed = s.handed ∧
      (y.intra = x.intra ∧ s'.vbData = s.vbData ∨
        y.intra = x.getIntraC (s.vbData x.epoch) ∧
          s'.vbData = update s.vbData x.epoch (x.drawIntra (s.vbData x.epoch))) := by
  cases e with
  | register u x => cases ht
  | collect epoch => cases ht
  | handOver epoch i vb => cases ht
  | run u env =>
    obtain rfl : u = t := Option.some.inj ht
    exact absurd rfl (hrun env)
  | call u c =>
    obtain rfl : u = t := Option.some.inj ht
    simp only [step, Option.bind_eq_bind, Option.bind_eq_some_iff] at h
    obtain ⟨x, hx, h⟩ := h
    split_ifs at h
    obtain rfl := Option.some.inj h
    exact ⟨x, _, hx, rfl, rfl, rfl, rfl, rfl, Or.inl ⟨rfl, rfl⟩⟩
  | lock u =>
    obtain rfl : u = t := Option.some.inj ht
    simp only [step, Option.bind_eq_bind, Option.bind_eq_some_iff] at h
    obtain ⟨x, hx, h⟩ := h
    split at h
    · split_ifs at h
      obtain rfl := Option.some.inj h
      exact ⟨x, _, hx, rfl, rfl, rfl, rfl, rfl, Or.inl ⟨rfl, rfl⟩⟩
    · simp at h
  | commit u =>
    obtain rfl : u = t := Option.some.inj ht
    simp only [step, Option.bind_eq_bind, Option.bind_eq_some_iff] at h
    obtain ⟨x, hx, h⟩ := h
    split_ifs at h
    obtain rfl := Option.some.inj h
    exact ⟨x, _, hx, rfl, rfl, rfl, rfl, rfl, Or.inr ⟨rfl, rfl⟩⟩
  | unlock u =>
    obtain rfl : u = t := Option.some.inj ht
    simp only [step, Option.bind_eq_bind, Option.bind_eq_some_iff] at h
    obtain ⟨x, hx, h⟩ := h
    split at h
    · obtain rfl := Option.some.inj h
      exact ⟨x, _, hx, rfl, rfl, rfl, rfl, rfl, Or.inl ⟨rfl, rfl⟩⟩
    · simp at h

end System

namespace Manual

namespace Base

variable {S : StdSort} {malloc tmp : Nat → Nat → EdgeWithIndex} {j j' : Journal}
  {cur readEpoch reached : Nat}

theorem start : Base malloc tmp (.start (Journal.built malloc tmp)) 1 0 0 where
  ordered := Journal.ordered_start
  registry := System.registry_start fun _ _ => rfl
  published e h0 hle := absurd h0 (by omega)
  fresh _ _ := rfl
  stamp_le _ _ := Nat.zero_le _
  pending v k hne := absurd rfl hne
  handed_le _ hh := absurd hh (by simp [Journal.start, System.start])
  handed _ hh := absurd hh (by simp [Journal.start, System.start])
  end_le _ := le_rfl
  recent _ _ hw := absurd hw (by simp [Journal.start, Journal.writesAt])

theorem mono (h : Base malloc tmp j cur readEpoch reached) {cur' reached' : Nat} (hc : cur ≤ cur')
    (hr : reached ≤ reached') : Base malloc tmp j cur' readEpoch reached' where
  ordered := h.ordered
  registry := h.registry
  published := h.published
  fresh e he := h.fresh e (hr.trans_lt he)
  stamp_le v k := (h.stamp_le v k).trans hc
  pending := h.pending
  handed_le g hg := (h.handed_le g hg).trans hr
  handed := h.handed
  end_le v := (h.end_le v).trans hr
  recent v w hw := ⟨(h.recent v w hw).1.trans hc, (h.recent v w hw).2⟩

/-- A step that leaves the vertices alone, and at most draws a timestamp. -/
theorem silent (h : Base malloc tmp j cur readEpoch reached)
    (hreg : System.Registry j'.system) (hvert : j'.system.vertices = j.system.vertices)
    (hret : j'.returned = j.returned) (hh : j'.system.handed = j.system.handed)
    (htodo : ∀ e, (j'.system.vbData e).todo = (j.system.vbData e).todo)
    (hcount : ∀ e, (j.system.vbData e).intraCounter ≤ (j'.system.vbData e).intraCounter) :
    Base malloc tmp j' cur readEpoch reached where
  ordered := h.ordered.silent hvert hret
  registry := hreg
  published e h0 hle := (htodo e).trans (h.published e h0 hle)
  fresh e he := (htodo e).trans (h.fresh e he)
  stamp_le := by rw [hvert]; exact h.stamp_le
  pending := by rw [hvert]; exact h.pending
  handed_le := by rw [hh]; exact h.handed_le
  handed := by rw [hh, hvert]; exact h.handed
  end_le := by rw [hvert]; exact h.end_le
  recent v w hw := by
    rw [Journal.writesAt, hret] at hw
    obtain ⟨hle, hi⟩ := h.recent v w hw
    exact ⟨hle, hi.trans (hcount _)⟩

/-- A slot that holds the epoch of a writer, none, or a published one. -/
theorem slot_cases (h : Base malloc tmp j cur readEpoch reached) (hcur : cur ≤ readEpoch + 16)
    {epoch : Nat} (hlt : readEpoch < epoch) (hle : epoch ≤ cur) (v : Nat) :
    let ts := (j.system.vertices v).stampAt (epoch % 16)
    ts = epoch ∨ (ts = 0 ∨ j.system.Published ts) ∧
      (j.system.vertices v).view.changes (epoch % 16) = [] := by
  intro ts
  by_cases hts : ts ≤ readEpoch
  · by_cases heq : ts = epoch
    · exact Or.inl heq
    · refine Or.inr ⟨?_, ?_⟩
      · by_cases hz : ts = 0
        · exact Or.inl hz
        · exact Or.inr (h.published ts (Nat.pos_of_ne_zero hz) hts)
      · by_contra hne
        exact absurd (h.pending v _ hne) (not_lt.mpr hts)
  · -- both epochs lie in the window of the ring
    left
    have hle' : ts ≤ cur := h.stamp_le v _
    have hmod := (h.registry.current v (epoch % 16) (by
      show ts ≠ 0
      omega)).1
    have hmod' : ts % 16 = epoch % 16 := hmod
    omega

/-- A write leaves entries behind in the slot of its epoch only. -/
theorem insert_slots {h h' : History} {env : Env} {w : Write} (hwf : h.state.Wf)
    (hlive : h.state.view.Live) (hlook : (h.state.prepare S env).LookupRight w.dst)
    (hstep : h.step .fineGrain S (.insert env w) = some h') :
    h'.state.view.vbm.endEpoch = h.state.view.vbm.endEpoch ∧
    (∀ k, h'.state.view.stamp k = if k = w.epoch % 16 then w.epoch else h.state.view.stamp k) ∧
    ∀ k, k ≠ w.epoch % 16 → (h'.state.view.changes k ≠ [] ↔ h.state.view.changes k ≠ []) := by
  have hopen : ∀ k, k ≠ w.epoch % 16 →
      (h.state.view.openTvb w.epoch).changes k = h.state.view.changes k := by
    intro k hk
    rw [View.changes_openTvb, if_neg]
    exact fun hc => hk hc.1
  obtain ⟨-, ⟨-, -, hview⟩ | ⟨-, -, unset, hview⟩⟩ := History.insert_cases hwf hlive hlook hstep
  · rw [hview]
    refine ⟨View.endEpoch_openTvb _, fun k => View.stamp_openTvb _ _, fun k hk => ?_⟩
    rw [hopen k hk]
  · rw [hview]
    refine ⟨?_, fun k => ?_, fun k hk => ?_⟩
    · rw [View.vbm_addVersion, View.endEpoch_openTvb]
    · rw [View.stamp_addVersion, View.stamp_openTvb]
    · have he := @View.addVersion_erase (h.state.view.openTvb w.epoch) w false
        (View.isPending (h.state.view.head w.dst)) (View.lastTime (h.state.view.head w.dst))
        (View.lastIndex unset (h.state.view.head w.dst))
        ((h.state.view.head w.dst).elim w.weight Head.weight) k
      rw [if_neg hk, List.append_nil, hopen k hk] at he
      have hlen := congrArg List.length he
      simp only [List.length_map] at hlen
      rw [← List.length_pos_iff, ← List.length_pos_iff, hlen]

section Run

variable {t : Nat} {env : Env} {x : Txn} {c : Call}

/-- A call of insertedge into an unpublished epoch. -/
theorem run (h : Base malloc tmp j cur readEpoch readEpoch) (hcur : cur ≤ readEpoch + 16)
    (hx : j.system.txns t = some x) (hpc : x.pc = .inside c) (hth : x.threadid < writeThread)
    (hlt : readEpoch < x.epoch) (hle : x.epoch ≤ cur)
    (hcount : x.intra ≤ (j.system.vbData x.epoch).intraCounter)
    (hdel : c.delete = false) (hlook : ((j.system.vertices c.src).prepare S env).LookupRight c.dst)
    (hroom : ∀ k < 16, ((j.system.vertices c.src).tmpVb k).entries.length < 2 ^ 32)
    (hmax : x.getIntraC (j.system.vbData x.epoch) < intraMax) (hf : j.FindsNewest S env x c)
    (hstep : j.step .fineGrain S (.run t env) = some j') :
    Base malloc tmp j' cur readEpoch readEpoch := by
  have hslot := h.slot_cases hcur hlt hle c.src
  have hreg : System.Registry j'.system := by
    refine System.registry_step h.registry ?_ (Journal.system_step hstep)
    intro y hy c' hpc'
    obtain rfl : x = y := Option.some.inj (hx.symm.trans hy)
    obtain rfl : c = c' := Pc.inside.inj (hpc.symm.trans hpc')
    exact ⟨hth, h.fresh _ hlt, hslot.imp_right And.left⟩
  obtain ⟨y, c', r, hy, hpc', hr, hsys, hret⟩ := Journal.step_run hstep
  obtain rfl : x = y := Option.some.inj (hx.symm.trans hy)
  obtain rfl : c = c' := Pc.inside.inj (hpc.symm.trans hpc')
  have hplaced : j.WellPlaced S env x c := by
    refine ⟨hdel, hlook, (h.end_le c.src).trans_lt hlt, ?_, hroom, hmax⟩
    exact hslot.symm.imp_left fun hs => VertexEdges.changes_eq_nil.mp hs.2
  obtain ⟨hordered, -⟩ := h.ordered.run hplaced hf hr hsys hret
  obtain ⟨hins, hother⟩ := Journal.history_run hr hdel hsys hret
  obtain ⟨hend, hstamp, hchanges⟩ := insert_slots (h.ordered.wf c.src) (h.ordered.pipe c.src).live hlook
    hins
  have hend : (j'.system.vertices c.src).view.vbm.endEpoch =
      (j.system.vertices c.src).view.vbm.endEpoch := hend
  have hstamp : ∀ k, (j'.system.vertices c.src).view.stamp k =
      if k = x.epoch % 16 then x.epoch else (j.system.vertices c.src).view.stamp k := hstamp
  have hchanges : ∀ k, k ≠ x.epoch % 16 → ((j'.system.vertices c.src).view.changes k ≠ [] ↔
      (j.system.vertices c.src).view.changes k ≠ []) := hchanges
  have hrest : ∀ v, v ≠ c.src → j'.system.vertices v = j.system.vertices v := fun v hv =>
    congrArg History.state (hother v hv)
  obtain ⟨-, hhanded, htodo, -, -⟩ := System.finish_fields .fineGrain S j.system t x c env r
  rw [← hsys] at hhanded htodo
  obtain ⟨y', -, -, -, hy'⟩ := System.finish_txn S j.system t x c env r
  rw [← hsys] at hy'
  have hcounter : ∀ e, (j.system.vbData e).intraCounter ≤ (j'.system.vbData e).intraCounter := by
    intro e
    split_ifs at hy' with hacc
    · rw [hy'.2.2 e]
      by_cases he : e = x.epoch
      · subst he
        rw [update_self]
        exact System.le_drawIntra x _
      · rw [update_of_ne he]
    · rw [hy'.2.2 e]
  refine ⟨hordered, hreg, ?_, ?_, fun v k => ?_, fun v k hne => ?_, ?_, fun g hg hts => ?_,
    fun v => ?_, fun v w hw => ?_⟩
  · intro e h0 hle
    exact (htodo e).trans (h.published e h0 hle)
  · intro e he
    exact (htodo e).trans (h.fresh e he)
  · by_cases hv : v = c.src
    · subst hv
      rw [hstamp k]
      split_ifs
      · exact hle
      · exact h.stamp_le _ k
    · rw [hrest v hv]
      exact h.stamp_le v k
  · by_cases hv : v = c.src
    · subst hv
      rw [hstamp k]
      split_ifs with hk
      · exact hlt
      · exact h.pending _ k ((hchanges k hk).mp hne)
    · rw [hrest v hv] at hne ⊢
      exact h.pending v k hne
  · rw [hhanded]
    exact h.handed_le
  · rw [hhanded] at hg
    by_cases hv : g.src = c.src
    · rw [hv] at hts ⊢
      rw [hstamp g.slot] at hts
      split_ifs at hts with hk
      · -- the slot was handed over for an older epoch
        have hgle := h.handed_le g hg
        rw [← hts] at hgle
        exact absurd hgle (not_le.mpr hlt)
      · by_contra hne
        have hold := h.handed g hg
        rw [hv] at hold
        exact (hchanges _ hk).mp hne (hold hts)
    · rw [hrest _ hv] at hts ⊢
      exact h.handed g hg hts
  · by_cases hv : v = c.src
    · subst hv
      rw [hend]
      exact h.end_le _
    · rw [hrest v hv]
      exact h.end_le v
  · obtain ⟨q, hq, hqs, hqa, rfl⟩ := Journal.mem_writesAt.mp hw
    rw [hret, List.mem_append, List.mem_singleton] at hq
    rcases hq with hq | rfl
    · obtain ⟨h1, h2⟩ := h.recent v q.write (Journal.mem_writesAt.mpr ⟨q, hq, hqs, hqa, rfl⟩)
      exact ⟨h1, h2.trans (hcounter _)⟩
    · have hacc : r.accepted = true := hqa
      rw [if_pos hacc] at hy'
      refine ⟨hle, ?_⟩
      show x.getIntraC (j.system.vbData x.epoch) ≤ (j'.system.vbData x.epoch).intraCounter
      rw [hy'.2.2, update_self]
      exact System.getIntraC_le hcount

end Run

section Publish

theorem collect (h : Base malloc tmp j cur readEpoch (readEpoch + 1))
    (hstep : j.step .fineGrain S (.collect (readEpoch + 1)) = some j') :
    Base malloc tmp j' cur readEpoch (readEpoch + 1) := by
  have hreg : System.Registry j'.system :=
    System.registry_step (e := .collect (readEpoch + 1)) h.registry trivial (Journal.system_step hstep)
  obtain ⟨hvert, hret⟩ := Journal.step_silent hstep (by simp) (by simp)
  have hs := Journal.system_step hstep
  simp only [System.step] at hs
  split_ifs at hs
  have hs := Option.some.inj hs
  have hother : ∀ e, e ≠ readEpoch + 1 → j'.system.vbData e = j.system.vbData e := by
    intro e he
    rw [← hs]
    exact update_of_ne he _ _
  have hcount : ∀ e, (j'.system.vbData e).intraCounter = (j.system.vbData e).intraCounter := by
    intro e
    by_cases he : e = readEpoch + 1
    · subst he
      rw [← hs]
      simp only [update_self]
    · rw [hother e he]
  have hh : j'.system.handed = j.system.handed := by rw [← hs]
  refine ⟨h.ordered.silent hvert hret, hreg, fun e h0 hle => ?_, fun e he => ?_, ?_, ?_, ?_, ?_, ?_,
    fun v w hw => ?_⟩
  · rw [System.Published, hother e (by omega)]
    exact h.published e h0 hle
  · rw [hother e (by omega)]
    exact h.fresh e he
  · rw [hvert]
    exact h.stamp_le
  · rw [hvert]
    exact h.pending
  · rw [hh]
    exact h.handed_le
  · rw [hh, hvert]
    exact h.handed
  · rw [hvert]
    exact h.end_le
  · rw [Journal.writesAt, hret] at hw
    rw [hcount]
    exact h.recent v w hw

theorem handOver (h : Base malloc tmp j cur readEpoch (readEpoch + 1)) {i vb : Nat}
    (hstep : j.step .fineGrain S (.handOver (readEpoch + 1) i vb) = some j') :
    Base malloc tmp j' cur readEpoch (readEpoch + 1) := by
  have hreg : System.Registry j'.system := System.registry_step
    (e := .handOver (readEpoch + 1) i vb) h.registry trivial (Journal.system_step hstep)
  obtain ⟨todo, v, slot, n, w, htodo, hi, hw, hvert, -, hret⟩ := Journal.step_handOver hstep
  obtain ⟨hslot, hts⟩ := h.registry.stamp_of_todo htodo (List.mem_of_getElem? hi)
  have hts' : (j.system.vertices v).view.stamp slot = readEpoch + 1 := hts
  obtain ⟨n', w', hw', hwf, hview⟩ := VertexEdges.transform_refines (S := S) (h.ordered.wf v) slot vb
  obtain rfl : w' = w := congrArg Prod.snd (Option.some.inj (hw'.symm.trans hw))
  have hordered : j'.Ordered malloc tmp := by
    refine h.ordered.handOver ?_ hstep
    intro p hp
    rw [htodo] at hp
    obtain rfl : (v, slot) = p := Option.some.inj (hi.symm.trans hp)
    intro k _ hk
    have hlt := h.pending v k fun hnil => hk (VertexEdges.changes_eq_nil.mp hnil)
    have hle : ((j.system.vertices v).tmpVb slot).timestamp = readEpoch + 1 := hts
    exact hle.trans_le hlt
  have hs := Journal.system_step hstep
  simp only [System.step, Option.bind_eq_bind, Option.bind_eq_some_iff] at hs
  obtain ⟨todo', htodo', p, hi', hs⟩ := hs
  split_ifs at hs
  obtain ⟨q, -, hs⟩ := Option.bind_eq_some_iff.mp hs
  have hs := Option.some.inj hs
  obtain rfl : todo = todo' := Option.some.inj (htodo.symm.trans htodo')
  obtain rfl : (v, slot) = p := Option.some.inj (hi.symm.trans hi')
  have hother : ∀ e, e ≠ readEpoch + 1 → j'.system.vbData e = j.system.vbData e := by
    intro e he
    rw [← hs]
    exact update_of_ne he _ _
  have hcount : ∀ e, (j'.system.vbData e).intraCounter = (j.system.vbData e).intraCounter := by
    intro e
    by_cases he : e = readEpoch + 1
    · subst he
      rw [← hs]
      simp only [update_self]
    · rw [hother e he]
  have hh : j'.system.handed = j.system.handed ++
      [⟨readEpoch + 1, v, slot, ((j.system.vertices v).tmpVb slot).timestamp⟩] := by rw [← hs]
  have hself : j'.system.vertices v = w' := by rw [hvert, update_self]
  have hrest : ∀ u, u ≠ v → j'.system.vertices u = j.system.vertices u := fun u hu => by
    rw [hvert, update_of_ne hu]
  have hstamp : ∀ u, (j'.system.vertices u).view.stamp = (j.system.vertices u).view.stamp := by
    intro u
    by_cases hu : u = v
    · rw [hu, hself, hview, View.transform]
      split_ifs <;> rfl
    · rw [hrest u hu]
  have hchanges : ∀ u k, (j'.system.vertices u).view.changes k =
      if u = v ∧ k = slot then [] else (j.system.vertices u).view.changes k := by
    intro u k
    by_cases hu : u = v
    · rw [hu, hself, hview, View.transform]
      split_ifs with hnil hk hk
      · rw [hk.2, hnil]
      · rfl
      · rw [hk.2]
        exact update_self ..
      · exact update_of_ne (fun hks => hk ⟨rfl, hks⟩) _ _
    · rw [hrest u hu, if_neg fun hc => hu hc.1]
  refine ⟨hordered, hreg, fun e h0 hle => ?_, fun e he => ?_, fun u k => ?_, fun u k hne => ?_,
    fun g hg => ?_, fun g hg hgts => ?_, fun u => ?_, fun u w hw => ?_⟩
  · rw [System.Published, hother e (by omega)]
    exact h.published e h0 hle
  · rw [hother e (by omega)]
    exact h.fresh e he
  · rw [hstamp]
    exact h.stamp_le u k
  · rw [hstamp]
    rw [hchanges] at hne
    split_ifs at hne
    · exact absurd rfl hne
    · exact h.pending u k hne
  · rw [hh] at hg
    rcases List.mem_append.mp hg with hg | hg
    · exact h.handed_le g hg
    · rw [List.mem_singleton.mp hg]
  · rw [hstamp] at hgts
    rw [hchanges]
    split_ifs with hc
    · rfl
    · rw [hh] at hg
      rcases List.mem_append.mp hg with hg | hg
      · exact h.handed g hg hgts
      · rw [List.mem_singleton.mp hg] at hc
        exact absurd ⟨rfl, rfl⟩ hc
  · by_cases hu : u = v
    · rw [hu, hself, hview, View.transform]
      split_ifs
      · exact h.end_le v
      · exact hts'.le
    · rw [hrest u hu]
      exact h.end_le u
  · rw [Journal.writesAt, hret] at hw
    rw [hcount]
    exact h.recent u w hw

/-- The end of a round: nothing of the epoch is pending any more. -/
theorem advance (h : Base malloc tmp j cur readEpoch (readEpoch + 1))
    (hpub : j.system.Published (readEpoch + 1)) :
    Base malloc tmp j cur (readEpoch + 1) (readEpoch + 1) where
  ordered := h.ordered
  registry := h.registry
  published e h0 hle := by
    rcases Nat.lt_or_eq_of_le hle with hlt | rfl
    · exact h.published e h0 (Nat.le_of_lt_succ hlt)
    · exact hpub
  fresh := h.fresh
  stamp_le := h.stamp_le
  pending v k hne := by
    refine lt_of_le_of_ne (h.pending v k hne) fun heq => hne ?_
    have hstamp : (j.system.vertices v).stampAt k = readEpoch + 1 := heq.symm
    obtain ⟨hmod, hone⟩ := h.registry.current v k (by rw [hstamp]; exact Nat.succ_ne_zero _)
    rw [hstamp] at hmod hone
    obtain ⟨-, hsum⟩ := h.registry.during _ _ hpub
    have hcount := hsum v
    rw [hone, List.count_nil, Nat.zero_add] at hcount
    obtain ⟨g, hg, hgv⟩ := List.countP_pos_iff.mp (by rw [hcount]; exact Nat.one_pos)
    obtain ⟨hge, hgsrc⟩ := of_decide_eq_true hgv
    obtain ⟨hgslot, -⟩ := h.registry.handed g hg
    have hk : g.slot = k := by rw [hgslot, hge, hmod]
    have := h.handed g hg
    rw [hgsrc, hk, hge] at this
    exact this heq.symm
  handed_le := h.handed_le
  handed := h.handed
  end_le := h.end_le
  recent := h.recent

end Publish

end Base

end Manual

end AVBGraph
