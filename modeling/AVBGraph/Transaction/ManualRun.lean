import AVBGraph.Transaction.ManualMode

namespace AVBGraph

open Framework Function

namespace Manual

/-- Serial runs keep the ring of epochs, the registrations and the order of the writes. -/
structure Inv (malloc tmp : Nat → Nat → EdgeWithIndex) (s : Manual) : Prop where
  base : Base malloc tmp s.journal s.cur s.readEpoch s.reached
  locks : System.LocksHeld s.system
  read_le : s.readEpoch ≤ s.cur
  cur_le : s.cur ≤ s.readEpoch + 16
  range : ∀ c, s.phase = .publishing c → c ≤ s.cur + 1
  others : ∀ t x, s.system.txns t = some x → x.pc = .committing [] ∨ s.phase = .writing t
  writer : ∀ t, s.phase = .writing t → ∀ x, s.system.txns t = some x →
    s.readEpoch < x.epoch ∧ x.epoch ≤ s.cur ∧ x.threadid < writeThread ∧
      x.intra ≤ (s.system.vbData x.epoch).intraCounter
  current : ∀ t, s.phase = .writing t → ∀ x, s.system.txns t = some x → ∀ v, v ∉ x.ebVec →
    ∀ w ∈ s.journal.writesAt v, w.epoch ≤ x.epoch ∧
      (w.epoch = x.epoch → x.intra ≠ 0 → w.txn.intra < x.intra)

namespace Inv

variable {S : StdSort} {malloc tmp : Nat → Nat → EdgeWithIndex} {s s' : Manual}

theorem reached_of_publishing (h : s.Publishing) : s.reached = s.readEpoch + 1 := if_pos h

theorem reached_of_not (h : ¬s.Publishing) : s.reached = s.readEpoch := if_neg h

theorem le_reached (s : Manual) : s.readEpoch ≤ s.reached := by
  unfold reached
  split_ifs <;> omega

theorem not_publishing (h : ∀ c, s.phase ≠ .publishing c) : ¬s.Publishing := by
  unfold Publishing
  split
  · next c hc => exact absurd hc (h c)
  · exact id

theorem publishing_phase (h : s.Publishing) : ∃ c, s.phase = .publishing c ∧ s.readEpoch + 1 < c := by
  unfold Publishing at h
  split at h
  · next c hc => exact ⟨c, hc, h⟩
  · exact absurd h id

theorem start : Inv malloc tmp (.start (Journal.built malloc tmp)) where
  base := Base.start
  locks := System.locksHeld_start
  read_le := Nat.zero_le _
  cur_le := by
    show 1 ≤ 0 + 16
    omega
  range _ hc := absurd hc (by simp [Manual.start])
  others _ _ hx := absurd hx (by simp [system, Manual.start, Journal.start, System.start])
  writer _ ht := absurd ht (by simp [Manual.start])
  current _ ht := absurd ht (by simp [Manual.start])

theorem next_journal {e : Event} (h : s.next S e = some s') :
    s.journal.step .fineGrain S e = some s'.journal ∧ s'.cur = s.cur ∧
      s'.readEpoch = s.readEpoch ∧ s'.phase = s.phase := by
  obtain ⟨j, hj, rfl⟩ := Option.map_eq_some_iff.mp h
  exact ⟨hj, rfl, rfl, rfl⟩

theorem reached_congr (hr : s'.readEpoch = s.readEpoch) (hp : s'.phase = s.phase) :
    s'.reached = s.reached := by
  have hiff : s'.Publishing ↔ s.Publishing := by
    unfold Publishing
    rw [hr, hp]
  unfold reached
  simp only [hiff, hr]

/-- The timestamp that a write takes is above those of the other transactions of its epoch. -/
theorem intra_lt (h : Inv malloc tmp s) {t : Nat} {x : Txn} (hph : s.phase = .writing t)
    (hx : s.system.txns t = some x) {v : Nat} (hv : v ∉ x.ebVec) {w : Write}
    (hw : w ∈ s.journal.writesAt v) (heq : w.epoch = x.epoch) :
    w.txn.intra < x.getIntraC (s.system.vbData x.epoch) := by
  unfold Txn.getIntraC
  split_ifs with hz
  · have hle := (h.base.recent v w hw).2
    rw [heq] at hle
    exact Nat.lt_succ_of_le hle
  · exact (h.current t hph x hx v hv w hw).2 heq hz

/-- A serial write is later than every other write of its edge. -/
theorem later (h : Inv malloc tmp s) {t : Nat} {x : Txn} {c : Call} (hph : s.phase = .writing t)
    (hx : s.system.txns t = some x) (hpc : x.pc = .inside c) :
    s.journal.newestAt c.src c.dst < (x.write (s.system.vbData x.epoch) c).time := by
  have hfree : c.src ∉ x.ebVec := by
    have hnodup := h.locks.nodup t
    have hheld : System.heldBy (s.system.txns t) = c.src :: x.ebVec := by
      simp [System.heldBy, hx, Txn.held, hpc]
    rw [hheld] at hnodup
    exact (List.nodup_cons.mp hnodup).1
  unfold Journal.newestAt
  cases hl : ((s.journal.writesAt c.src).filter fun w => w.dst = c.dst).getLast? with
  | none => exact Or.inl x.epoch_pos
  | some w =>
    have hw : w ∈ s.journal.writesAt c.src := (List.mem_filter.mp (List.mem_of_getLast? hl)).1
    rcases Nat.lt_or_eq_of_le (h.current t hph x hx c.src hfree w hw).1 with hlt | heq
    · exact Or.inl hlt
    · exact Or.inr ⟨heq, h.intra_lt hph hx hfree hw heq⟩

section Writer

theorem registerTransaction (h : Inv malloc tmp s) {t : Nat} {x : Txn} {create : Bool}
    (hth : x.threadid < writeThread) (hun : s.readEpoch < s.cur)
    (hstep : s.step S (.registerTransaction t x create) = some s') : Inv malloc tmp s' := by
  simp only [step] at hstep
  by_cases hc : s.phase = .idle ∧ s.cur - s.readEpoch < 16 ∧ x.epoch = s.cur ∧
      x.readEpoch = s.readEpoch
  swap
  · rw [if_neg hc] at hstep
    cases hstep
  rw [if_pos hc] at hstep
  obtain ⟨hidle, hroom, hepoch, -⟩ := hc
  obtain ⟨u, hu, rfl⟩ := Option.map_eq_some_iff.mp hstep
  obtain ⟨hj, hcur, hread, -⟩ := next_journal hu
  have hsys := Journal.system_step hj
  have hreg : System.Registry u.journal.system :=
    System.registry_step (e := .register t x) h.base.registry trivial hsys
  obtain ⟨hvert, hret⟩ := Journal.step_silent hj (by simp) (by simp)
  have hlocks := h.locks.move (System.lockMove_step hsys)
  have hs := hsys
  simp only [System.step] at hs
  split_ifs at hs with hnone
  have hs := Option.some.inj hs
  have hreached : s.reached = s.readEpoch :=
    reached_of_not (not_publishing fun c hc => by simp [hidle] at hc)
  have hbase := h.base.silent hreg hvert hret (by rw [← hs]) (fun e => by rw [← hs])
    (fun e => by rw [← hs])
  have htxns : u.journal.system.txns =
      update s.system.txns t (some { x with intra := 0, ebVec := [], pc := .ready }) := by
    rw [← hs]
    rfl
  have hle : s.cur ≤ if create then u.cur + 1 else u.cur := by
    rw [hcur]
    split_ifs <;> omega
  refine ⟨?_, hlocks, ?_, ?_, fun c hc => by simp at hc, fun v y hy => ?_, fun v hv y hy => ?_,
    fun v hv y hy => ?_⟩
  · rw [reached_of_not (not_publishing fun c hc => by simp at hc)]
    show Base malloc tmp u.journal _ u.readEpoch u.readEpoch
    rw [hread]
    rw [hreached] at hbase
    exact hbase.mono hle le_rfl
  · show u.readEpoch ≤ _
    rw [hread]
    exact h.read_le.trans hle
  · show (if create then u.cur + 1 else u.cur) ≤ u.readEpoch + 16
    rw [hread, hcur]
    have := h.read_le
    split_ifs <;> omega
  · by_cases hvt : v = t
    · exact Or.inr (by rw [hvt])
    · have hy : u.journal.system.txns v = some y := hy
      rw [htxns, update_of_ne hvt] at hy
      rcases h.others v y hy with hpc | hph
      · exact Or.inl hpc
      · rw [hidle] at hph
        cases hph
  · obtain rfl : t = v := Phase.writing.inj hv
    have hy : u.journal.system.txns t = some y := hy
    rw [htxns, update_self] at hy
    rw [← Option.some.inj hy]
    refine ⟨?_, ?_, hth, Nat.zero_le _⟩
    · show u.readEpoch < x.epoch
      rw [hread, hepoch]
      exact hun
    · show x.epoch ≤ _
      rw [hepoch]
      exact hle
  · obtain rfl : t = v := Phase.writing.inj hv
    have hy : u.journal.system.txns t = some y := hy
    rw [htxns, update_self] at hy
    rw [← Option.some.inj hy]
    intro d _ w hw
    refine ⟨?_, fun _ hne => absurd rfl hne⟩
    have hw : w ∈ u.journal.writesAt d := hw
    rw [Journal.writesAt, hret] at hw
    exact (h.base.recent d w hw).1.trans_eq hepoch.symm

/-- A step of the writer outside its writes. -/
theorem thread (h : Inv malloc tmp s) {t : Nat} {e : Event} (hph : s.phase = .writing t)
    (ht : e.thread = some t) (hrun : ∀ env, e ≠ .run t env) (hstep : s.next S e = some s') :
    Inv malloc tmp s' := by
  obtain ⟨hj, hcur, hread, hphase⟩ := next_journal hstep
  have hsys := Journal.system_step hj
  have hne : (∀ u env, e ≠ .run u env) ∧ (∀ epoch i vb, e ≠ .handOver epoch i vb) ∧
      s.system.RegisterOk e := by
    cases e with
    | run u env =>
      obtain rfl : u = t := Option.some.inj ht
      exact absurd rfl (hrun env)
    | handOver epoch i vb => cases ht
    | register u x => cases ht
    | collect epoch => cases ht
    | call u c => exact ⟨by simp, by simp, trivial⟩
    | lock u => exact ⟨by simp, by simp, trivial⟩
    | commit u => exact ⟨by simp, by simp, trivial⟩
    | unlock u => exact ⟨by simp, by simp, trivial⟩
  have hreg := System.registry_step h.base.registry hne.2.2 hsys
  obtain ⟨hvert, hret⟩ := Journal.step_silent hj hne.1 hne.2.1
  have hlocks := h.locks.move (System.lockMove_step hsys)
  obtain ⟨x, y, hx, htxns, hepoch, hth, heb, hh, hdraw⟩ := System.step_thread ht hrun hsys
  obtain ⟨hlt, hle, hthread, hcount⟩ := h.writer t hph x hx
  have hlists : ∀ e, (s'.system.vbData e).todo = (s.system.vbData e).todo ∧
      (s.system.vbData e).intraCounter ≤ (s'.system.vbData e).intraCounter := by
    intro e
    rcases hdraw with ⟨-, hvb⟩ | ⟨-, hvb⟩
    · rw [show s'.system.vbData = s.system.vbData from hvb]
      exact ⟨rfl, le_rfl⟩
    · rw [show s'.system.vbData = _ from hvb]
      by_cases he : e = x.epoch
      · subst he
        rw [update_self]
        exact ⟨(System.drawIntra_lists x _).2, System.le_drawIntra x _⟩
      · rw [update_of_ne he]
        exact ⟨rfl, le_rfl⟩
  have hbase := h.base.silent hreg hvert hret hh (fun e => (hlists e).1) fun e => (hlists e).2
  have hself : s'.system.txns t = some y := by
    rw [show s'.system.txns = _ from htxns, update_self]
  refine ⟨?_, hlocks, ?_, ?_, fun c hc => ?_, fun v z hz => ?_, fun v hv z hz => ?_,
    fun v hv z hz => ?_⟩
  · rw [reached_congr hread hphase, hcur, hread]
    exact hbase
  · rw [hread, hcur]
    exact h.read_le
  · rw [hread, hcur]
    exact h.cur_le
  · rw [hphase, hph] at hc
    cases hc
  · by_cases hvt : v = t
    · exact Or.inr (by rw [hphase, hph, hvt])
    · rw [show s'.system.txns = _ from htxns, update_of_ne hvt] at hz
      rw [hphase]
      exact h.others v z hz
  · obtain rfl : t = v := Phase.writing.inj (hph.symm.trans (hphase.symm.trans hv))
    obtain rfl : y = z := Option.some.inj (hself.symm.trans hz)
    rw [hepoch, hth, hread, hcur]
    refine ⟨hlt, hle, hthread, ?_⟩
    rcases hdraw with ⟨hi, -⟩ | ⟨hi, hvb⟩
    · rw [hi]
      exact hcount.trans (hlists _).2
    · rw [hi, show s'.system.vbData = _ from hvb, update_self]
      exact System.getIntraC_le hcount
  · obtain rfl : t = v := Phase.writing.inj (hph.symm.trans (hphase.symm.trans hv))
    obtain rfl : y = z := Option.some.inj (hself.symm.trans hz)
    rw [hepoch, heb]
    intro d hd w hw
    rw [Journal.writesAt, hret] at hw
    obtain ⟨hwle, hwi⟩ := h.current t hph x hx d hd w hw
    refine ⟨hwle, fun heq hne => ?_⟩
    rcases hdraw with ⟨hi, -⟩ | ⟨hi, -⟩
    · rw [hi] at hne ⊢
      exact hwi heq hne
    · rw [hi]
      exact h.intra_lt hph hx hd hw heq

/-- A call of insertedge. -/
theorem run (h : Inv malloc tmp s) {t : Nat} {env : Env} (hph : s.phase = .writing t)
    (hok : CallOk S s (.thread (.run t env))) (hstep : s.next S (.run t env) = some s') :
    Inv malloc tmp s' := by
  obtain ⟨hj, hcur, hread, hphase⟩ := next_journal hstep
  obtain ⟨x, c, r, hx, hpc, hr, hsys, hret⟩ := Journal.step_run hj
  obtain ⟨hdel, hlook, hroom, hmax, hfound⟩ := hok x hx c hpc
  obtain ⟨hlt, hle, hthread, hcount⟩ := h.writer t hph x hx
  have hreached : s.reached = s.readEpoch :=
    reached_of_not (not_publishing fun c hc => by simp [hph] at hc)
  have hbase := h.base
  rw [hreached] at hbase
  have hbase' := hbase.run h.cur_le hx hpc hthread hlt hle hcount hdel hlook hroom hmax
    ⟨hfound, h.later hph hx hpc⟩ hj
  have hlocks := h.locks.move (System.lockMove_step (Journal.system_step hj))
  obtain ⟨y, htxns, hepoch, hth, hfinish⟩ :=
    System.finish_txn S s.journal.system t x c env r
  rw [← hsys] at htxns hfinish
  have hself : s'.system.txns t = some y := by
    rw [show s'.system.txns = _ from htxns, update_self]
  have hwrites : ∀ v, ∀ w ∈ s'.journal.writesAt v,
      w ∈ s.journal.writesAt v ∨ v = c.src ∧ r.accepted = true := by
    intro v w hw
    obtain ⟨q, hq, hqs, hqa, rfl⟩ := Journal.mem_writesAt.mp hw
    rw [hret, List.mem_append, List.mem_singleton] at hq
    rcases hq with hq | rfl
    · exact Or.inl (Journal.mem_writesAt.mpr ⟨q, hq, hqs, hqa, rfl⟩)
    · exact Or.inr ⟨hqs.symm, hqa⟩
  refine ⟨?_, hlocks, ?_, ?_, fun c hc => ?_, fun v z hz => ?_, fun v hv z hz => ?_,
    fun v hv z hz => ?_⟩
  · rw [reached_congr hread hphase, hcur, hread, hreached]
    exact hbase'
  · rw [hread, hcur]
    exact h.read_le
  · rw [hread, hcur]
    exact h.cur_le
  · rw [hphase, hph] at hc
    cases hc
  · by_cases hvt : v = t
    · exact Or.inr (by rw [hphase, hph, hvt])
    · rw [show s'.system.txns = _ from htxns, update_of_ne hvt] at hz
      rw [hphase]
      exact h.others v z hz
  · obtain rfl : t = v := Phase.writing.inj (hph.symm.trans (hphase.symm.trans hv))
    obtain rfl : y = z := Option.some.inj (hself.symm.trans hz)
    rw [hepoch, hth, hread, hcur]
    refine ⟨hlt, hle, hthread, ?_⟩
    split_ifs at hfinish
    · rw [hfinish.1, show (s'.system.vbData x.epoch).intraCounter = _ from hfinish.2.2 x.epoch,
        update_self]
      exact System.getIntraC_le hcount
    · rw [hfinish.1, show (s'.system.vbData x.epoch).intraCounter = _ from hfinish.2.2 x.epoch]
      exact hcount
  · obtain rfl : t = v := Phase.writing.inj (hph.symm.trans (hphase.symm.trans hv))
    obtain rfl : y = z := Option.some.inj (hself.symm.trans hz)
    rw [hepoch]
    intro d hd w hw
    split_ifs at hfinish with hacc
    · obtain ⟨hintra, heb, -⟩ := hfinish
      rw [heb, List.mem_append, List.mem_singleton, not_or] at hd
      obtain hw | ⟨hdc, -⟩ := hwrites d w hw
      · refine ⟨(h.current t hph x hx d hd.1 w hw).1, fun heq _ => ?_⟩
        rw [hintra]
        exact h.intra_lt hph hx hd.1 hw heq
      · exact absurd hdc hd.2
    · obtain ⟨hintra, heb, -⟩ := hfinish
      rw [heb] at hd
      rw [hintra]
      obtain hw | ⟨-, hacc'⟩ := hwrites d w hw
      · exact h.current t hph x hx d hd w hw
      · exact absurd hacc' hacc

theorem deregisterTransaction (h : Inv malloc tmp s)
    (hstep : s.step S .deregisterTransaction = some s') : Inv malloc tmp s' := by
  simp only [step] at hstep
  split at hstep
  · next t hph =>
    split_ifs at hstep with hpc
    obtain rfl := Option.some.inj hstep
    have hreached : s.reached = s.readEpoch :=
      reached_of_not (not_publishing fun c hc => by simp [hph] at hc)
    have hbase := h.base
    rw [hreached] at hbase
    refine ⟨?_, h.locks, h.read_le, h.cur_le, fun c hc => by simp at hc, fun v x hx => ?_,
      fun v hv => by simp at hv, fun v hv => by simp at hv⟩
    · rw [reached_of_not (not_publishing fun c hc => by simp at hc)]
      exact hbase
    · have hx : s.system.txns v = some x := hx
      rcases h.others v x hx with hcom | hwr
      · exact Or.inl hcom
      · obtain rfl : t = v := Phase.writing.inj (hph.symm.trans hwr)
        rw [hx] at hpc
        exact Or.inl (Option.some.inj hpc)
  · cases hstep

end Writer

section Publish

/-- Nobody writes while epochs are published. -/
theorem publish (h : Inv malloc tmp s) {c : Nat} (hph : s.phase = .publishing c)
    (hlocks : System.LocksHeld s'.system)
    (hbase : Base malloc tmp s'.journal s'.cur s'.readEpoch s'.reached)
    (htxns : s'.system.txns = s.system.txns) (hcur : s'.cur = s.cur)
    (hle : s.readEpoch ≤ s'.readEpoch) (hle' : s'.readEpoch ≤ s.cur)
    (hphase : s'.phase = s.phase ∨ s'.phase = .idle) : Inv malloc tmp s' := by
  have hnone : ∀ t, s'.phase ≠ .writing t := by
    intro t ht
    rcases hphase with hp | hp
    · rw [hp, hph] at ht
      cases ht
    · rw [hp] at ht
      cases ht
  refine ⟨hbase, hlocks, ?_, ?_, fun d hd => ?_, fun v x hx => ?_, fun v hv => absurd hv (hnone v),
    fun v hv => absurd hv (hnone v)⟩
  · rw [hcur]
    exact hle'
  · rw [hcur]
    exact h.cur_le.trans (Nat.add_le_add_right hle 16)
  · rw [hcur]
    rcases hphase with hp | hp
    · exact h.range d (hp ▸ hd)
    · rw [hp] at hd
      cases hd
  · rw [htxns] at hx
    rcases h.others v x hx with hcom | hwr
    · exact Or.inl hcom
    · rw [hph] at hwr
      cases hwr

theorem commitVersionBlock (h : Inv malloc tmp s) {c : Nat}
    (hstep : s.step S (.commitVersionBlock c) = some s') : Inv malloc tmp s' := by
  simp only [step] at hstep
  split_ifs at hstep with hc
  obtain ⟨hidle, hle⟩ := hc
  obtain rfl := Option.some.inj hstep
  have hreached : s.reached = s.readEpoch :=
    reached_of_not (not_publishing fun c hc => by simp [hidle] at hc)
  have hbase := h.base
  rw [hreached] at hbase
  refine ⟨hbase.mono le_rfl (le_reached { s with phase := .publishing c }), h.locks, h.read_le,
    h.cur_le, fun d hd => ?_, fun v x hx => ?_, fun v hv => by simp at hv, fun v hv => by simp at hv⟩
  · obtain rfl : c = d := Phase.publishing.inj hd
    exact hle
  · rcases h.others v x hx with hcom | hwr
    · exact Or.inl hcom
    · rw [hidle] at hwr
      cases hwr

theorem publishing_le (h : Inv malloc tmp s) (hp : s.Publishing) : s.readEpoch + 1 ≤ s.cur := by
  obtain ⟨c, hc, hlt⟩ := publishing_phase hp
  have := h.range c hc
  omega

/-- One call inside a round of commitVersionBlock. -/
theorem round (h : Inv malloc tmp s) {e : Event} (hp : s.Publishing) (hstep : s.next S e = some s')
    (htxns : s'.system.txns = s.system.txns)
    (hbase : Base malloc tmp s'.journal s.cur s.readEpoch (s.readEpoch + 1)) : Inv malloc tmp s' := by
  obtain ⟨hj, hcur, hread, hphase⟩ := next_journal hstep
  obtain ⟨c, hc, -⟩ := publishing_phase hp
  apply h.publish hc (h.locks.move (System.lockMove_step (Journal.system_step hj))) _ htxns hcur
    hread.ge (hread.trans_le h.read_le) (Or.inl hphase)
  rw [reached_congr hread hphase, reached_of_publishing hp, hcur, hread]
  exact hbase

theorem collect (h : Inv malloc tmp s) (hstep : s.step S .collect = some s') : Inv malloc tmp s' := by
  simp only [step] at hstep
  split_ifs at hstep with hp
  have hbase := h.base
  rw [reached_of_publishing hp] at hbase
  have hj := (next_journal hstep).1
  apply h.round hp hstep _ (hbase.collect hj)
  have hs := Journal.system_step hj
  simp only [System.step] at hs
  split_ifs at hs
  have hs : _ = s'.system := Option.some.inj hs
  rw [← hs]
  rfl

theorem handOver (h : Inv malloc tmp s) {i vb : Nat}
    (hstep : s.step S (.handOver i vb) = some s') : Inv malloc tmp s' := by
  simp only [step] at hstep
  split_ifs at hstep with hp
  have hbase := h.base
  rw [reached_of_publishing hp] at hbase
  have hj := (next_journal hstep).1
  obtain ⟨-, -, -, -, -, -, -, -, -, htxns, -⟩ := Journal.step_handOver hj
  exact h.round hp hstep htxns (hbase.handOver hj)

theorem advance (h : Inv malloc tmp s) (hstep : s.step S .advance = some s') : Inv malloc tmp s' := by
  simp only [step] at hstep
  split_ifs at hstep with hc
  obtain ⟨hp, hpub⟩ := hc
  obtain rfl := Option.some.inj hstep
  have hbase := h.base
  rw [reached_of_publishing hp] at hbase
  obtain ⟨c, hc, -⟩ := publishing_phase hp
  exact h.publish hc h.locks ((hbase.advance hpub).mono le_rfl
    (le_reached { s with readEpoch := s.readEpoch + 1 })) rfl rfl
    (Nat.le_succ _) (h.publishing_le hp) (Or.inl rfl)

theorem unlock (h : Inv malloc tmp s) (hstep : s.step S .unlock = some s') : Inv malloc tmp s' := by
  simp only [step] at hstep
  split at hstep
  · next c hph =>
    split_ifs at hstep with hlt
    obtain rfl := Option.some.inj hstep
    have hnot : ¬s.Publishing := fun hp => by
      obtain ⟨d, hd, hlt'⟩ := publishing_phase hp
      obtain rfl : c = d := Phase.publishing.inj (hph.symm.trans hd)
      exact hlt hlt'
    have hbase := h.base
    rw [reached_of_not hnot] at hbase
    exact h.publish hph h.locks (hbase.mono le_rfl (le_reached { s with phase := .idle })) rfl
      rfl le_rfl h.read_le (Or.inr rfl)
  · cases hstep

end Publish

/-- Every step of a serial run keeps the invariant. -/
theorem step (h : Inv malloc tmp s) {a : Act} (hok : CallOk S s a) (hun : Unpublished s a)
    (hstep : s.step S a = some s') : Inv malloc tmp s' := by
  cases a with
  | registerTransaction t x create => exact h.registerTransaction hok hun hstep
  | deregisterTransaction => exact h.deregisterTransaction hstep
  | commitVersionBlock c => exact h.commitVersionBlock hstep
  | collect => exact h.collect hstep
  | handOver i vb => exact h.handOver hstep
  | advance => exact h.advance hstep
  | unlock => exact h.unlock hstep
  | thread e =>
    simp only [Manual.step] at hstep
    split at hstep
    · next t hph =>
      split_ifs at hstep with ht
      by_cases hrun : ∃ env, e = .run t env
      · obtain ⟨env, rfl⟩ := hrun
        exact h.run hph hok hstep
      · exact h.thread hph ht (fun env he => hrun ⟨env, he⟩) hstep
    · cases hstep

end Inv

section Completion

variable {S : StdSort} {malloc tmp : Nat → Nat → EdgeWithIndex} {s s' u : Manual}

/-- Steps inside commitVersionBlock lead from one state to another. -/
def Completes (S : StdSort) (s u : Manual) : Prop :=
  ∃ acts, (∀ a ∈ acts, a.Publishes) ∧ exec (step S) s acts = some u

theorem Completes.refl (S : StdSort) (s : Manual) : Completes S s s := ⟨[], by simp, rfl⟩

theorem Completes.head {a : Act} (ha : a.Publishes) (hstep : s.step S a = some s')
    (h : Completes S s' u) : Completes S s u := by
  obtain ⟨acts, hacts, hrun⟩ := h
  refine ⟨a :: acts, ?_, by simpa [exec, hstep] using hrun⟩
  simpa using ⟨ha, hacts⟩

theorem Completes.trans (h : Completes S s s') (h' : Completes S s' u) : Completes S s u := by
  obtain ⟨acts, hacts, hrun⟩ := h
  obtain ⟨acts', hacts', hrun'⟩ := h'
  refine ⟨acts ++ acts', fun a ha => ?_, by rw [exec_append, hrun]; exact hrun'⟩
  rcases List.mem_append.mp ha with ha | ha
  · exact hacts a ha
  · exact hacts' a ha

theorem Inv.free (h : Inv malloc tmp s) {c : Nat} (hph : s.phase = .publishing c) (v : Nat) :
    s.system.holder v = none := by
  cases hv : s.system.holder v with
  | none => rfl
  | some t =>
    have hheld := (h.locks.holder v t).mp hv
    cases hx : s.system.txns t with
    | none => simp [hx, System.heldBy] at hheld
    | some x =>
      rcases h.others t x hx with hcom | hwr
      · simp [hx, System.heldBy, Txn.held, hcom] at hheld
      · rw [hph] at hwr
        cases hwr

theorem step_handOver_of (h : Inv malloc tmp s) (hp : s.Publishing) {p : Nat × Nat}
    {todo : List (Nat × Nat)}
    (htodo : (s.system.vbData (s.readEpoch + 1)).todo = some (p :: todo)) :
    ∃ u, s.step S (.handOver 0 0) = some u ∧ u.cur = s.cur ∧ u.readEpoch = s.readEpoch ∧
      u.phase = s.phase ∧ (u.system.vbData (s.readEpoch + 1)).todo = some todo := by
  obtain ⟨v, slot⟩ := p
  obtain ⟨c, hc, -⟩ := Inv.publishing_phase hp
  obtain ⟨n, w, hw, -, -⟩ :=
    VertexEdges.transform_refines (S := S) (h.base.ordered.wf v) slot 0
  have hw : (s.system.vertices v).transform .fineGrain S slot 0 = some (n, w) := hw
  simp only [step, if_pos hp, next, Journal.step]
  have htodo' : (s.journal.system.vbData (s.readEpoch + 1)).todo = some ((v, slot) :: todo) := htodo
  have hfree : s.journal.system.holder v = none := h.free hc v
  have hw' : (s.journal.system.vertices v).transform .fineGrain S slot 0 = some (n, w) := hw
  simp [System.step, htodo', hfree, hw', system]

/-- The loop of VBData::commitVersionBlock ends. -/
theorem drain (h : Inv malloc tmp s) (hp : s.Publishing) {todo : List (Nat × Nat)}
    (htodo : (s.system.vbData (s.readEpoch + 1)).todo = some todo) :
    ∃ u, Completes S s u ∧ Inv malloc tmp u ∧ u.cur = s.cur ∧ u.readEpoch = s.readEpoch ∧
      u.phase = s.phase ∧ u.system.Published (s.readEpoch + 1) := by
  induction todo generalizing s with
  | nil => exact ⟨s, .refl S s, h, rfl, rfl, rfl, htodo⟩
  | cons p todo ih =>
    obtain ⟨s', hstep, hcur, hread, hphase, htodo'⟩ := step_handOver_of (S := S) h hp htodo
    have h' : Inv malloc tmp s' := h.step (a := .handOver 0 0) trivial trivial hstep
    have hp' : s'.Publishing := by
      unfold Publishing
      rw [hphase, hread]
      exact hp
    rw [← hread] at htodo'
    obtain ⟨u, hu, hinv, hcur', hread', hphase', hpub⟩ := ih h' hp' htodo'
    refine ⟨u, hu.head (a := .handOver 0 0) trivial hstep, hinv, hcur'.trans hcur, hread'.trans hread,
      hphase'.trans hphase, ?_⟩
    rwa [hread] at hpub

/-- One round of AllVBManager::commitVersionBlock. -/
theorem round (h : Inv malloc tmp s) (hp : s.Publishing)
    (hfresh : ∀ e, s.readEpoch < e → (s.system.vbData e).todo = none) :
    ∃ u, Completes S s u ∧ Inv malloc tmp u ∧ u.cur = s.cur ∧ u.readEpoch = s.readEpoch + 1 ∧
      u.phase = s.phase ∧ ∀ e, u.readEpoch < e → (u.system.vbData e).todo = none := by
  obtain ⟨s₁, hcollect, hcur₁, hread₁, hphase₁, todo, htodo⟩ : ∃ s₁, s.step S .collect = some s₁ ∧
      s₁.cur = s.cur ∧ s₁.readEpoch = s.readEpoch ∧ s₁.phase = s.phase ∧
      ∃ todo, (s₁.system.vbData (s.readEpoch + 1)).todo = some todo := by
    have hnone : (s.journal.system.vbData (s.readEpoch + 1)).todo = none :=
      hfresh _ (Nat.lt_succ_self _)
    simp [step, hp, next, Journal.step, System.step, hnone, system]
  have h₁ : Inv malloc tmp s₁ := h.step (a := .collect) trivial trivial hcollect
  have hp₁ : s₁.Publishing := by
    unfold Publishing
    rw [hphase₁, hread₁]
    exact hp
  rw [← hread₁] at htodo
  obtain ⟨s₂, hdrain, h₂, hcur₂, hread₂, hphase₂, hpub⟩ := drain (S := S) h₁ hp₁ htodo
  have hread : s₂.readEpoch = s.readEpoch := hread₂.trans hread₁
  have hp₂ : s₂.Publishing := by
    unfold Publishing
    rw [hphase₂, hread₂]
    exact hp₁
  have hadv : s₂.step S .advance = some { s₂ with readEpoch := s₂.readEpoch + 1 } := by
    rw [← hread₂] at hpub
    exact if_pos ⟨hp₂, hpub⟩
  refine ⟨_, (hdrain.head (a := .collect) trivial hcollect).trans
      (.head (a := .advance) trivial hadv (.refl S _)),
    h₂.step (a := .advance) trivial trivial hadv, hcur₂.trans hcur₁, ?_, hphase₂.trans hphase₁,
    fun e he => ?_⟩
  · rw [hread]
  · have hfresh₂ := h₂.base.fresh e
    rw [Inv.reached_of_publishing hp₂] at hfresh₂
    exact hfresh₂ he

/-- commitVersionBlock(cur_ + 1) publishes every epoch. -/
theorem publish_all (h : Inv malloc tmp s) (hph : s.phase = .publishing (s.cur + 1))
    (hfresh : ∀ e, s.readEpoch < e → (s.system.vbData e).todo = none) :
    ∃ u, Completes S s u ∧ Inv malloc tmp u ∧ u.phase = .idle ∧ u.readEpoch = u.cur := by
  induction hn : s.cur - s.readEpoch generalizing s with
  | zero =>
    have heq : s.readEpoch = s.cur := by
      have := h.read_le
      omega
    have hunlock : s.step S .unlock = some { s with phase := .idle } := by
      simp [step, hph, heq]
    exact ⟨_, .head (a := .unlock) trivial hunlock (.refl S _),
      h.step (a := .unlock) trivial trivial hunlock, rfl, heq⟩
  | succ n ih =>
    have hp : s.Publishing := by
      unfold Publishing
      rw [hph]
      show s.readEpoch + 1 < s.cur + 1
      omega
    obtain ⟨s', hround, h', hcur, hread, hphase, hfresh'⟩ := round (S := S) h hp hfresh
    have hph' : s'.phase = .publishing (s'.cur + 1) := by rw [hphase, hph, hcur]
    obtain ⟨u, hu, hinv, hidle, heq⟩ := ih h' hph' hfresh' (by omega)
    exact ⟨u, hround.trans hu, hinv, hidle, heq⟩

/-- Once every epoch is published, everything is visible. -/
theorem Inv.visible (h : Inv malloc tmp s) (heq : s.readEpoch = s.cur) : s.Visible := by
  intro v d w hw
  have hempty : ∀ slot < 16, ((s.system.vertices v).tmpVb slot).entries = [] := by
    intro slot _
    by_contra hne
    have hlt := h.base.pending v slot fun hnil => hne (VertexEdges.changes_eq_nil.mp hnil)
    have hle := h.base.stamp_le v slot
    omega
  have hall : ((s.journal.writesAt v).filter fun w => w.dst = d ∧ w.epoch ≤ s.readEpoch) =
      (s.journal.writesAt v).filter fun w => w.dst = d := by
    refine List.filter_congr fun u hu => ?_
    have hle : u.epoch ≤ s.readEpoch := (h.base.recent v u hu).1.trans_eq heq.symm
    simp [hle]
  rw [h.base.ordered.weights_eq hempty, hall, hw]
  rfl

theorem Inv.toSafe (h : Inv malloc tmp s) : Safe S s := by
  refine ⟨fun t ht x hx => (h.writer t ht x hx).1, fun hidle => ?_⟩
  have hcommit : s.step S (.commitVersionBlock (s.cur + 1)) =
      some { s with phase := .publishing (s.cur + 1) } := if_pos ⟨hidle, le_rfl⟩
  have h' := h.step (a := .commitVersionBlock (s.cur + 1)) trivial trivial hcommit
  have hfresh := h.base.fresh
  rw [Inv.reached_of_not (Inv.not_publishing fun c hc => by simp [hidle] at hc)] at hfresh
  obtain ⟨u, ⟨acts, hacts, hrun⟩, hinv, hidle', heq⟩ := publish_all (S := S) h' rfl hfresh
  refine ⟨acts, u, hacts, ?_, hidle', hinv.visible heq⟩
  rw [exec, hcommit]
  exact hrun

/-- Every serial run is safe whose transactions find an unpublished epoch. -/
theorem serial_safe {acts : List Act}
    (hok : Along (step S) (fun s a => CallOk S s a ∧ Unpublished s a)
      (start (Journal.built malloc tmp)) acts)
    (hrun : exec (step S) (start (Journal.built malloc tmp)) acts = some s) : Safe S s :=
  (invariant_of_step (fun _ _ _ h hok hstep => h.step hok.1 hok.2 hstep) Inv.start hok hrun).toSafe

end Completion

section Runs

instance (S : StdSort) (s : Manual) : ∀ a, Decidable (CallOk S s a)
  | .thread (.run t _) => inferInstanceAs (Decidable (s.system.Inside t _))
  | .registerTransaction _ _ _ => inferInstanceAs (Decidable (_ < _))
  | .thread (.register _ _) | .thread (.call _ _) | .thread (.lock _) | .thread (.commit _)
  | .thread (.unlock _) | .thread (.collect _) | .thread (.handOver _ _ _) | .deregisterTransaction
  | .commitVersionBlock _ | .collect | .handOver _ _ | .advance | .unlock => isTrue trivial

instance (s : Manual) : ∀ a, Decidable (Unpublished s a)
  | .registerTransaction _ _ _ => inferInstanceAs (Decidable (_ < _))
  | .thread _ | .deregisterTransaction | .commitVersionBlock _ | .collect | .handOver _ _ | .advance
  | .unlock => isTrue trivial

private def noise : Nat → Nat → EdgeWithIndex := fun _ _ => ⟨0, 0, 0⟩

private def writer (readEpoch epoch : Nat) (h : 0 < epoch ∧ epoch < 2 ^ 31) : Txn :=
  ⟨true, readEpoch, epoch, 0, 0, 0, [], .ready, Write.pos_of_epoch h, Write.lt_of_epoch h, vbVectorLength_pos⟩

/-- A transaction of epoch 1 inserts edge 2->7. -/
private def load (create : Bool) : List Act :=
  [[.registerTransaction 0 (writer 0 1 Write.epoch_one) create],
    [.call 0 ⟨false, 2, 7, 5, Write.seven_lt⟩, .lock 0, .run 0 History.freshEnv, .commit 0,
      .unlock 0].map .thread,
    [.deregisterTransaction]].flatten

/-- Then epoch 1 is published, and the next transaction registers. -/
private def reload (create : Bool) (x : Txn) : List Act :=
  [load create, [.commitVersionBlock 2, .collect, .handOver 0 100, .advance, .unlock],
    [.registerTransaction 1 x false]].flatten

theorem serial_safe_reload : ∃ s,
    exec (step .stable) (start (Journal.built noise noise))
      (reload true (writer 1 2 (by decide))) = some s ∧ s.journal.returned.length = 1 ∧
      s.readEpoch = 1 ∧ s.phase = .writing 1 ∧ Safe .stable s := by
  obtain ⟨s, hrun, hlen, hread, hphase⟩ : ∃ s,
      exec (step .stable) (start (Journal.built noise noise))
        (reload true (writer 1 2 (by decide))) = some s ∧ s.journal.returned.length = 1 ∧
        s.readEpoch = 1 ∧ s.phase = .writing 1 := by
    apply exists_exec
    decide +kernel
  exact ⟨s, hrun, hlen, hread, hphase, serial_safe (by decide +kernel) hrun⟩

/-- Without the random branch, commitVersionBlock(cur_ + 1) publishes the epoch that the next
transaction is given. -/
theorem registers_published : ¬∀ (S : StdSort) (malloc tmp : Nat → Nat → EdgeWithIndex)
    (acts : List Act) (s : Manual),
    Along (step S) (CallOk S) (start (Journal.built malloc tmp)) acts →
    exec (step S) (start (Journal.built malloc tmp)) acts = some s → Safe S s := by
  intro hall
  obtain ⟨s, hrun, hphase, hread, x, hx, hepoch⟩ : ∃ s,
      exec (step .stable) (start (Journal.built noise noise))
        (reload false (writer 1 1 (by decide))) = some s ∧ s.phase = .writing 1 ∧
        s.readEpoch = 1 ∧ ∃ x ∈ s.system.txns 1, x.epoch = 1 := by
    apply exists_exec
    decide +kernel
  have hlt := (hall .stable _ _ _ s (by decide +kernel) hrun).1 1 hphase x hx
  rw [hread, hepoch] at hlt
  exact absurd hlt (Nat.lt_irrefl 1)

end Runs

end Manual

end AVBGraph
