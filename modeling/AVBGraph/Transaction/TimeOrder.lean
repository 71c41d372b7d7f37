import AVBGraph.Transaction.Deadlock
import AVBGraph.Vertex.Times

namespace AVBGraph

open Framework Function

namespace System

variable {S : StdSort} {env : Env} {s s' : System} {e : Event} {t : Nat} {x : Txn} {c : Call}

/-- A transaction has written vertex `v` at this composite time. -/
def WroteAt (s : System) (v : Nat) (time : Composite) : Prop :=
  ∃ u y, s.txns u = some y ∧ v ∈ y.ebVec ∧ time = ⟨y.epoch, y.intra⟩

/-- The version that the conflict test of a write looks at. -/
def lastTime (p : VertexEdges) (c : Call) : Composite :=
  if c.delete then p.foundTime c.dst else p.liveTime c.dst

/-- Every transaction of the epoch that has written `v` before `t` drew a smaller timestamp, or
`t` has not drawn its timestamp yet. -/
def DrawnLater (s : System) (t : Nat) (x : Txn) (v : Nat) : Prop :=
  x.intra ≠ 0 → ∀ u y, u ≠ t → s.txns u = some y → y.epoch = x.epoch → v ∈ y.ebVec →
    y.intra < x.intra

/-- The lookup of a write returns the item of its destination; and if the conflict test lets the
write pass, no transaction that drew its timestamp later was first on the vertex, and a deleted
destination was not deleted in a later epoch. -/
def WriteOk (S : StdSort) (s : System) : Event → Prop
  | .run t env => ∀ x c, s.txns t = some x → x.pc = .inside c →
      let p := (s.vertices c.src).prepare S env
      p.LookupRight c.dst ∧
      (conflicts (x.write (s.vbData x.epoch) c).txn (lastTime p c).e x.epoch = false →
        DrawnLater s t x c.src ∧ (p.foundTime c.dst).e ≤ x.epoch)
  | _ => True

/-- Every accepted version is younger than the one that it replaces, superseded versions have a
non-empty validity interval, and times increase along every TmpVersionBlock. -/
structure ChainsOrdered (s : System) : Prop where
  accepted : ∀ a ∈ s.accepted, ∀ r, a.replaced = some r → r < a.time
  vertex : ∀ v, TimeOrdered (s.vertices v).view

/-- The timestamps that transactions have drawn, and the times that their writes left. -/
structure Drawn (s : System) : Prop where
  counter : ∀ u y, s.txns u = some y → y.intra ≤ (s.vbData y.epoch).intraCounter
  wrote : ∀ u y, s.txns u = some y → y.ebVec ≠ [] → y.intra ≠ 0
  vertex : ∀ v, Stamped (s.WroteAt v) (s.vertices v)

section Mono

/-- What happened to a transaction stays. -/
def Kept (s s' : System) : Prop :=
  ∀ u y, s.txns u = some y → y.ebVec ≠ [] →
    ∃ z, s'.txns u = some z ∧ z.epoch = y.epoch ∧ z.intra = y.intra ∧ y.ebVec ⊆ z.ebVec

theorem Kept.wroteAt (h : Kept s s') {v : Nat} {time : Composite} (hw : s.WroteAt v time) :
    s'.WroteAt v time := by
  obtain ⟨u, y, hy, hv, rfl⟩ := hw
  obtain ⟨z, hz, he, hi, hsub⟩ := h u y hy (List.ne_nil_of_mem hv)
  exact ⟨u, z, hz, hsub hv, by rw [he, hi]⟩

theorem kept_update {y : Txn} (hx : ∀ z, s.txns t = some z → z.ebVec ≠ [] →
      y.epoch = z.epoch ∧ y.intra = z.intra ∧ z.ebVec ⊆ y.ebVec)
    (ht : s'.txns = update s.txns t (some y)) : Kept s s' := by
  intro u z hz hne
  by_cases hu : u = t
  · subst hu
    obtain ⟨he, hi, hsub⟩ := hx z hz hne
    exact ⟨y, by rw [ht, update_self], he, hi, hsub⟩
  · exact ⟨z, by rw [ht, update_of_ne hu, hz], rfl, rfl, fun _ hv => hv⟩

theorem stamped_mono (h : Kept s s') {v : Nat} {w : VertexEdges} (hw : Stamped (s.WroteAt v) w) :
    Stamped (s'.WroteAt v) w :=
  VertexEdges.stamped_of_items hw rfl rfl rfl rfl rfl rfl rfl (fun _ => h.wroteAt)
    (fun k c hc => h.wroteAt (hw.entry k c hc)) hw.stamp

end Mono

section Silent

/-- A step of one transaction outside its writes: it may draw its timestamp before its first
write, and the counters do not fall. -/
theorem Drawn.of_update (h : Drawn s) {y : Txn} (hkept : Kept s s')
    (ht : s'.txns = update s.txns t (some y)) (hvert : s'.vertices = s.vertices)
    (hcount : ∀ e, (s.vbData e).intraCounter ≤ (s'.vbData e).intraCounter)
    (hy : y.intra ≤ (s'.vbData y.epoch).intraCounter) (hwrote : y.ebVec ≠ [] → y.intra ≠ 0) :
    Drawn s' := by
  refine ⟨fun u z hz => ?_, fun u z hz => ?_, fun v => ?_⟩
  · rw [ht] at hz
    by_cases hu : u = t
    · subst hu
      obtain rfl : y = z := by simpa using hz
      exact hy
    · rw [update_of_ne hu] at hz
      exact (h.counter u z hz).trans (hcount _)
  · rw [ht] at hz
    by_cases hu : u = t
    · subst hu
      obtain rfl : y = z := by simpa using hz
      exact hwrote
    · rw [update_of_ne hu] at hz
      exact h.wrote u z hz
  · rw [hvert]
    exact stamped_mono hkept (h.vertex v)

theorem ChainsOrdered.congr (h : ChainsOrdered s) (ha : s'.accepted = s.accepted)
    (hv : s'.vertices = s.vertices) : ChainsOrdered s' :=
  ⟨by rw [ha]; exact h.accepted, by rw [hv]; exact h.vertex⟩

end Silent

section Draw

theorem getIntraC_ne_zero (x : Txn) (d : VBData) : x.getIntraC d ≠ 0 := by
  unfold Txn.getIntraC
  split_ifs with h
  · omega
  · exact h

theorem getIntraC_le {d : VBData} (h : x.intra ≤ d.intraCounter) :
    x.getIntraC d ≤ (x.drawIntra d).intraCounter := by
  unfold Txn.getIntraC Txn.drawIntra
  split_ifs
  · exact le_rfl
  · exact h

theorem le_drawIntra (x : Txn) (d : VBData) : d.intraCounter ≤ (x.drawIntra d).intraCounter := by
  unfold Txn.drawIntra
  split_ifs
  · exact Nat.le_succ _
  · exact le_rfl

/-- A write of a transaction is younger than every other write of the vertex at its epoch. -/
theorem wroteAt_lt (h : Drawn s) (hl : LocksHeld s) (hx : s.txns t = some x)
    (hpc : x.pc = .inside c) (hok : DrawnLater s t x c.src) {time : Composite}
    (hw : s.WroteAt c.src time) (he : time.e ≤ x.epoch) :
    time < ⟨x.epoch, x.getIntraC (s.vbData x.epoch)⟩ := by
  obtain ⟨u, y, hy, hv, rfl⟩ := hw
  have hut : u ≠ t := by
    rintro rfl
    obtain rfl : x = y := Option.some.inj (hx.symm.trans hy)
    have hnd := hl.nodup u
    simp only [heldBy, hx, Option.elim_some, Txn.held, hpc, List.nodup_cons] at hnd
    exact hnd.1 hv
  rcases Nat.lt_or_eq_of_le he with hlt | heq
  · exact Or.inl hlt
  · refine Or.inr ⟨heq, ?_⟩
    have heq : y.epoch = x.epoch := heq
    show y.intra < x.getIntraC (s.vbData x.epoch)
    unfold Txn.getIntraC
    split_ifs with hzero
    · have := h.counter u y hy
      rw [heq] at this
      omega
    · exact hok hzero u y hut hy heq hv

end Draw

section Write

variable {r : WriteResult} {P : Composite → Prop}

theorem runCall_effect (h : Stamped P (s.vertices c.src))
    (hlook : ((s.vertices c.src).prepare S env).LookupRight c.dst)
    (hr : s.runCall .fineGrain S env x c = some r) : ∃ u, VertexEdges.WriteEffect P (s.vertices c.src)
      (x.write (s.vbData x.epoch) c) (lastTime ((s.vertices c.src).prepare S env) c) r u := by
  unfold runCall at hr
  unfold lastTime
  split_ifs at hr ⊢ with hd
  · exact VertexEdges.delete_effect (w := x.write (s.vbData x.epoch) c) h hlook hr
  · exact VertexEdges.insert_effect (w := x.write (s.vbData x.epoch) c) h hlook hr

/-- The version that a write finds is one that build or an earlier write left. -/
theorem foundTime_cases {p : VertexEdges} (h : Stamped P p) (d : Nat) :
    p.foundTime d = ⟨0, 0⟩ ∨ P (p.foundTime d) := by
  unfold VertexEdges.foundTime
  cases hi : p.item d with
  | none => exact Or.inl rfl
  | some y =>
    obtain ⟨l, hl, rfl, -⟩ := VertexEdges.exists_loc hi
    exact h.item l hl

theorem lastTime_cases (p : VertexEdges) (c : Call) :
    lastTime p c = ⟨0, 0⟩ ∨ lastTime p c = p.foundTime c.dst := by
  unfold lastTime VertexEdges.liveTime VertexEdges.foundTime
  cases p.item c.dst with
  | none => simp
  | some y =>
    simp only [Option.elim_some]
    split_ifs <;> simp

theorem foundTime_lt (h : Drawn s) (hl : LocksHeld s) (hx : s.txns t = some x)
    (hpc : x.pc = .inside c) (hok : DrawnLater s t x c.src)
    (he : (((s.vertices c.src).prepare S env).foundTime c.dst).e ≤ x.epoch) :
    ((s.vertices c.src).prepare S env).foundTime c.dst <
      ⟨x.epoch, x.getIntraC (s.vbData x.epoch)⟩ := by
  rcases foundTime_cases (VertexEdges.stamped_prepare (h.vertex c.src)) c.dst with hzero | hw
  · rw [hzero]
    exact Or.inl x.epoch_pos
  · exact wroteAt_lt h hl hx hpc hok hw he

theorem Drawn.finish (h : Drawn s) (hx : s.txns t = some x)
    (hlook : ((s.vertices c.src).prepare S env).LookupRight c.dst)
    (hr : s.runCall .fineGrain S env x c = some r) : Drawn (s.finish .fineGrain S env t x c r) := by
  obtain ⟨u, heff⟩ := runCall_effect (h.vertex c.src) hlook hr
  have hcount := h.counter t x hx
  set d := s.vbData x.epoch with hd
  set reg := if r.registered then d.pushback (c.src, x.epoch % 16) x.threadid else d with hreg
  have hregc : reg.intraCounter = d.intraCounter := by
    rw [hreg]
    split_ifs <;> rfl
  have hother : ∀ s' : System, Kept s s' → (s'.vertices = update s.vertices c.src r.state) →
      (r.accepted = true → s'.WroteAt c.src (x.write d c).time) →
      ∀ v, Stamped (s'.WroteAt v) (s'.vertices v) := by
    intro s' hkept hv hw v
    rw [hv]
    by_cases hvc : v = c.src
    · subst hvc
      rw [update_self]
      exact heff.stamped_state (fun _ => hkept.wroteAt) hw
    · rw [update_of_ne hvc]
      exact stamped_mono hkept (h.vertex v)
  cases hacc : r.accepted with
  | false =>
    simp only [System.finish, hacc, Bool.false_eq_true, if_false, ← hd, ← hreg]
    have hcounter : ∀ e, (s.vbData e).intraCounter ≤
        (update s.vbData x.epoch reg e).intraCounter := by
      intro e
      by_cases he : e = x.epoch
      · subst he
        rw [update_self, hregc]
      · rw [update_of_ne he]
    set y : Txn := { x with pc := .ready } with hy
    set s' : System := { s with
      vertices := update s.vertices c.src r.state
      holder := update s.holder c.src none
      txns := update s.txns t (some y)
      vbData := update s.vbData x.epoch reg } with hs'
    have hkept : Kept s s' := by
      refine kept_update (t := t) (y := y) (fun z hz _ => ?_) rfl
      obtain rfl : x = z := Option.some.inj (hx.symm.trans hz)
      exact ⟨rfl, rfl, fun _ hv => hv⟩
    have hbase : Drawn { s' with vertices := s.vertices } :=
      h.of_update (t := t) (y := y) hkept rfl rfl hcounter (hcount.trans (hcounter _)) (h.wrote t x hx)
    refine ⟨hbase.counter, hbase.wrote, hother s' hkept rfl fun h => ?_⟩
    rw [hacc] at h
    cases h
  | true =>
    simp only [System.finish, hacc, if_true, ← hd, ← hreg]
    have hcounter : ∀ e, (s.vbData e).intraCounter ≤
        (update s.vbData x.epoch (x.drawIntra reg) e).intraCounter := by
      intro e
      by_cases he : e = x.epoch
      · subst he
        rw [update_self, ← hd, ← hregc]
        exact le_drawIntra x reg
      · rw [update_of_ne he]
    set y : Txn := { x with intra := x.getIntraC d, ebVec := x.ebVec ++ [c.src], pc := .ready } with hy
    set s' : System := { s with
      vertices := update s.vertices c.src r.state
      txns := update s.txns t (some y)
      vbData := update s.vbData x.epoch (x.drawIntra reg)
      accepted := s.accepted ++ [⟨t, c.src, c.dst, s.found S env c, ⟨x.epoch, x.getIntraC d⟩⟩] }
      with hs'
    have hkept : Kept s s' := by
      refine kept_update (t := t) (y := y) (fun z hz hne => ?_) rfl
      obtain rfl : x = z := Option.some.inj (hx.symm.trans hz)
      refine ⟨rfl, ?_, fun v hv => List.mem_append_left _ hv⟩
      exact if_neg (h.wrote t x hx hne)
    have hle : x.getIntraC d ≤ (update s.vbData x.epoch (x.drawIntra reg) x.epoch).intraCounter := by
      rw [update_self]
      have hle := getIntraC_le (x := x) (d := reg) (hregc.symm ▸ hcount)
      have hsame : x.getIntraC reg = x.getIntraC d := by simp only [Txn.getIntraC, hregc]
      rwa [hsame] at hle
    have hbase : Drawn { s' with vertices := s.vertices } :=
      h.of_update (t := t) (y := y) hkept rfl rfl hcounter hle fun _ => getIntraC_ne_zero x d
    refine ⟨hbase.counter, hbase.wrote, hother s' hkept rfl fun _ => ?_⟩
    exact ⟨t, y, update_self .., by simp [hy], rfl⟩

theorem ChainsOrdered.finish (h : ChainsOrdered s) (hd : Drawn s) (hl : LocksHeld s)
    (hx : s.txns t = some x) (hpc : x.pc = .inside c)
    (hlook : ((s.vertices c.src).prepare S env).LookupRight c.dst)
    (hok : conflicts (x.write (s.vbData x.epoch) c).txn
        (lastTime ((s.vertices c.src).prepare S env) c).e x.epoch = false →
      DrawnLater s t x c.src ∧ (((s.vertices c.src).prepare S env).foundTime c.dst).e ≤ x.epoch)
    (hr : s.runCall .fineGrain S env x c = some r) : ChainsOrdered (s.finish .fineGrain S env t x c r) := by
  obtain ⟨u, heff⟩ := runCall_effect (hd.vertex c.src) hlook hr
  set w := x.write (s.vbData x.epoch) c with hw
  set p := (s.vertices c.src).prepare S env with hp
  have hfound : r.accepted = true → p.foundTime c.dst < w.time := by
    intro hacc
    obtain ⟨hlater, hle⟩ := hok (heff.passes hacc)
    exact foundTime_lt hd hl hx hpc hlater hle
  have hstate : TimeOrdered r.state.view := by
    apply heff.ordered_state (h.vertex c.src)
    · intro hacc
      rcases lastTime_cases p c with hzero | heq
      · rw [hzero]
        exact Or.inl x.epoch_pos
      · rw [heq]
        exact hfound hacc
    · intro hacc hts c' hc'
      have hw' := (hd.vertex c.src).entry _ c' hc'
      rw [hts] at hw'
      have hlt := wroteAt_lt hd hl hx hpc (hok (heff.passes hacc)).1 hw' le_rfl
      rcases hlt with hlt | ⟨-, hlt⟩
      · exact absurd hlt (lt_irrefl _)
      · exact hlt
  have hvert : ∀ v, TimeOrdered (update s.vertices c.src r.state v).view := by
    intro v
    by_cases hv : v = c.src
    · subst hv
      rw [update_self]
      exact hstate
    · rw [update_of_ne hv]
      exact h.vertex v
  cases hacc : r.accepted with
  | false =>
    simp only [System.finish, hacc, Bool.false_eq_true, if_false]
    exact ⟨h.accepted, hvert⟩
  | true =>
    simp only [System.finish, hacc, if_true]
    refine ⟨fun a ha q hq => ?_, hvert⟩
    rcases List.mem_append.mp ha with ha | ha
    · exact h.accepted a ha q hq
    · obtain rfl := List.mem_singleton.mp ha
      obtain ⟨y, hy, rfl⟩ := Option.map_eq_some_iff.mp hq
      have := hfound hacc
      rwa [VertexEdges.foundTime, hy] at this

end Write

section Run

/-- The invariant of the runs that meet the condition. -/
structure Chained (s : System) : Prop where
  locks : LocksHeld s
  drawn : Drawn s
  chains : ChainsOrdered s

theorem chained_start {vertices : Nat → VertexEdges} (h : ∀ v, (vertices v).Built) :
    Chained (start vertices) :=
  ⟨locksHeld_start, ⟨by simp [start], by simp [start], fun v => (h v).stamped⟩,
    ⟨by simp [start], fun v => (h v).ordered⟩⟩

/-- A step of a transaction outside its writes. -/
theorem Chained.silent (h : Chained s) (hl : LocksHeld s') {y : Txn}
    (ht : s'.txns = update s.txns t (some y))
    (hx : ∀ z, s.txns t = some z → z.ebVec ≠ [] →
      y.epoch = z.epoch ∧ y.intra = z.intra ∧ z.ebVec ⊆ y.ebVec)
    (hvert : s'.vertices = s.vertices) (ha : s'.accepted = s.accepted)
    (hcount : ∀ e, (s.vbData e).intraCounter ≤ (s'.vbData e).intraCounter)
    (hy : y.intra ≤ (s'.vbData y.epoch).intraCounter) (hwrote : y.ebVec ≠ [] → y.intra ≠ 0) :
    Chained s' :=
  ⟨hl, h.drawn.of_update (kept_update hx ht) ht hvert hcount hy hwrote, h.chains.congr ha hvert⟩

theorem chained_step (h : Chained s) (hok : WriteOk S s e) (hstep : s.step .fineGrain S e = some s') :
    Chained s' := by
  have hl := h.locks.move (lockMove_step hstep)
  cases e with
  | register t x =>
    simp only [step] at hstep
    split_ifs at hstep with ht
    obtain rfl := Option.some.inj hstep
    refine h.silent hl rfl (fun z hz => ?_) rfl rfl (fun _ => le_rfl) (Nat.zero_le _) (by simp)
    rw [ht] at hz
    cases hz
  | call t c =>
    simp only [step, Option.bind_eq_bind, Option.bind_eq_some_iff] at hstep
    obtain ⟨x, hx, hstep⟩ := hstep
    split_ifs at hstep
    obtain rfl := Option.some.inj hstep
    refine h.silent hl rfl (fun z hz _ => ?_) rfl rfl (fun _ => le_rfl) (h.drawn.counter t x hx)
      (h.drawn.wrote t x hx)
    obtain rfl : x = z := Option.some.inj (hx.symm.trans hz)
    exact ⟨rfl, rfl, fun _ hv => hv⟩
  | lock t =>
    simp only [step, Option.bind_eq_bind, Option.bind_eq_some_iff] at hstep
    obtain ⟨x, hx, hstep⟩ := hstep
    split at hstep
    · split_ifs at hstep
      obtain rfl := Option.some.inj hstep
      refine h.silent hl rfl (fun z hz _ => ?_) rfl rfl (fun _ => le_rfl) (h.drawn.counter t x hx)
        (h.drawn.wrote t x hx)
      obtain rfl : x = z := Option.some.inj (hx.symm.trans hz)
      exact ⟨rfl, rfl, fun _ hv => hv⟩
    · simp at hstep
  | run t env =>
    simp only [step, Option.bind_eq_bind, Option.bind_eq_some_iff] at hstep
    obtain ⟨x, hx, hstep⟩ := hstep
    split at hstep
    · next c hpc =>
      obtain ⟨r, hr, rfl⟩ := Option.map_eq_some_iff.mp hstep
      obtain ⟨hlook, hpass⟩ := hok x c hx hpc
      exact ⟨hl, h.drawn.finish hx hlook hr,
        h.chains.finish h.drawn h.locks hx hpc hlook hpass hr⟩
    · simp at hstep
  | commit t =>
    simp only [step, Option.bind_eq_bind, Option.bind_eq_some_iff] at hstep
    obtain ⟨x, hx, hstep⟩ := hstep
    split_ifs at hstep
    obtain rfl := Option.some.inj hstep
    refine h.silent hl rfl (fun z hz hne => ?_) rfl rfl (fun e => ?_) ?_
      fun _ => getIntraC_ne_zero x _
    · obtain rfl : x = z := Option.some.inj (hx.symm.trans hz)
      exact ⟨rfl, if_neg (h.drawn.wrote t x hx hne), fun _ hv => hv⟩
    · dsimp only
      by_cases he : e = x.epoch
      · subst he
        rw [update_self]
        exact le_drawIntra x _
      · rw [update_of_ne he]
    · dsimp only
      rw [update_self]
      exact getIntraC_le (h.drawn.counter t x hx)
  | unlock t =>
    simp only [step, Option.bind_eq_bind, Option.bind_eq_some_iff] at hstep
    obtain ⟨x, hx, hstep⟩ := hstep
    split at hstep
    · obtain rfl := Option.some.inj hstep
      refine h.silent hl rfl (fun z hz _ => ?_) rfl rfl (fun _ => le_rfl) (h.drawn.counter t x hx)
        (h.drawn.wrote t x hx)
      obtain rfl : x = z := Option.some.inj (hx.symm.trans hz)
      exact ⟨rfl, rfl, fun _ hv => hv⟩
    · simp at hstep
  | collect epoch =>
    simp only [step] at hstep
    split_ifs at hstep
    obtain rfl := Option.some.inj hstep
    refine ⟨hl, ⟨fun u y hy => ?_, h.drawn.wrote, h.drawn.vertex⟩, h.chains.congr rfl rfl⟩
    dsimp only
    by_cases he : y.epoch = epoch
    · rw [he, update_self]
      exact he ▸ h.drawn.counter u y hy
    · rw [update_of_ne he]
      exact h.drawn.counter u y hy
  | handOver epoch i vb =>
    simp only [step, Option.bind_eq_bind, Option.bind_eq_some_iff] at hstep
    obtain ⟨todo, -, ⟨v, slot⟩, -, hstep⟩ := hstep
    split_ifs at hstep
    obtain ⟨⟨n, w⟩, hw, hstep⟩ := Option.bind_eq_some_iff.mp hstep
    obtain rfl := Option.some.inj hstep
    obtain ⟨hstamped, hord⟩ := VertexEdges.transform_times (h.drawn.vertex v) hw
    refine ⟨hl, ⟨fun u y hy => ?_, h.drawn.wrote, fun k => ?_⟩, ⟨h.chains.accepted, fun k => ?_⟩⟩
    · dsimp only
      by_cases he : y.epoch = epoch
      · rw [he, update_self]
        exact he ▸ h.drawn.counter u y hy
      · rw [update_of_ne he]
        exact h.drawn.counter u y hy
    · dsimp only
      by_cases hk : k = v
      · subst hk
        rw [update_self]
        exact hstamped
      · rw [update_of_ne hk]
        exact h.drawn.vertex k
    · dsimp only
      by_cases hk : k = v
      · subst hk
        rw [update_self]
        exact hord (h.chains.vertex k)
      · rw [update_of_ne hk]
        exact h.chains.vertex k

/-- In every run whose writes meet the condition all version chains are time-ordered. -/
theorem chains_ordered {vertices : Nat → VertexEdges} (hv : ∀ v, (vertices v).Built)
    {es : List Event} (hok : Along (step .fineGrain S) (WriteOk S) (start vertices) es)
    (hrun : exec (step .fineGrain S) (start vertices) es = some s) : ChainsOrdered s :=
  (invariant_of_step (fun _ _ _ h hok hstep => chained_step h hok hstep) (chained_start hv) hok
    hrun).chains

end Run

section Runs

/-- A transaction that writes before it has drawn its timestamp meets the condition. -/
def FirstWriteOk (S : StdSort) (s : System) : Event → Prop
  | .run t env => ∀ x ∈ s.txns t, x.intra = 0 ∧
      match x.pc with
      | .inside c =>
        let p := (s.vertices c.src).prepare S env
        p.LookupRight c.dst ∧ (p.foundTime c.dst).e ≤ x.epoch
      | _ => True
  | _ => True

theorem firstWriteOk_run {S : StdSort} {s : System} {t : Nat} {env : Env} :
    (∀ x ∈ s.txns t, x.intra = 0 ∧ ∀ c ∈ x.pc.write,
      ((s.vertices c.src).prepare S env).LookupRight c.dst ∧
        (((s.vertices c.src).prepare S env).foundTime c.dst).e ≤ x.epoch) ↔
      FirstWriteOk S s (.run t env) := by
  refine forall₂_congr fun x _ => and_congr_right fun _ => ?_
  cases x.pc <;> simp [Pc.write]

instance (S : StdSort) (s : System) : ∀ e, Decidable (FirstWriteOk S s e)
  | .run _ _ => decidable_of_iff _ firstWriteOk_run
  | .register _ _ | .call _ _ | .lock _ | .commit _ | .unlock _ | .collect _ | .handOver _ _ _ =>
    isTrue trivial

theorem FirstWriteOk.writeOk (h : FirstWriteOk S s e) : WriteOk S s e := by
  cases e with
  | run t env =>
    intro x c hx hpc
    obtain ⟨hzero, hrest⟩ := h x hx
    rw [hpc] at hrest
    exact ⟨hrest.1, fun _ => ⟨fun hne => absurd hzero hne, hrest.2⟩⟩
  | _ => trivial

/-- Two transactions of one epoch write the same edge one after the other. -/
theorem chains_ordered_overwrite : ∃ s,
    exec (step .fineGrain .stable) (start fun _ => History.fresh.state)
      [.register 0 (writer 0 (by decide)), .register 1 (writer 1 (by decide)),
        .call 0 (insertCall 2 7 (by decide)), .lock 0, .run 0 History.freshEnv,
        .call 1 (insertCall 2 7 (by decide)), .commit 0, .unlock 0, .lock 1,
        .run 1 History.freshEnv] = some s ∧
      s.accepted.map Accepted.time = [⟨1, 1⟩, ⟨1, 2⟩] ∧ ChainsOrdered s := by
  obtain ⟨s, hrun, htimes⟩ : ∃ s, exec (step .fineGrain .stable) (start fun _ => History.fresh.state)
      [.register 0 (writer 0 (by decide)), .register 1 (writer 1 (by decide)),
        .call 0 (insertCall 2 7 (by decide)), .lock 0, .run 0 History.freshEnv,
        .call 1 (insertCall 2 7 (by decide)), .commit 0, .unlock 0, .lock 1,
        .run 1 History.freshEnv] = some s ∧ s.accepted.map Accepted.time = [⟨1, 1⟩, ⟨1, 2⟩] := by
    refine exists_exec ?_
    decide +kernel
  refine ⟨s, hrun, htimes, chains_ordered (S := .stable) (fun _ => ?_) ?_ hrun⟩
  · exact ⟨[], [], _, _, rfl, List.Pairwise.nil, by simp⟩
  · have hfirst : Along (step .fineGrain .stable) (FirstWriteOk .stable)
        (start fun _ => History.fresh.state) [.register 0 (writer 0 (by decide)),
          .register 1 (writer 1 (by decide)), .call 0 (insertCall 2 7 (by decide)), .lock 0,
          .run 0 History.freshEnv, .call 1 (insertCall 2 7 (by decide)), .commit 0, .unlock 0,
          .lock 1, .run 1 History.freshEnv] := by
      decide +kernel
    exact hfirst.mono fun s e => FirstWriteOk.writeOk

/-- Transaction 0 draws timestamp 1 on vertex 1; transaction 1 draws timestamp 2 and writes edge
2 -> 7; then transaction 0 overwrites this edge with time (1, 1). -/
theorem older_timestamp_overwrites : ¬∀ (S : StdSort) (vertices : Nat → VertexEdges)
    (es : List Event) (s : System), (∀ v, (vertices v).Built) →
      exec (step .fineGrain S) (start vertices) es = some s → ChainsOrdered s := by
  intro hall
  obtain ⟨s, hrun, hlast⟩ : ∃ s, exec (step .fineGrain .stable) (start fun _ => History.fresh.state)
      [.register 0 (writer 0 (by decide)), .register 1 (writer 1 (by decide)),
        .call 0 (insertCall 1 7 (by decide)), .lock 0, .run 0 History.freshEnv,
        .call 1 (insertCall 2 7 (by decide)), .lock 1, .run 1 History.freshEnv, .commit 1,
        .unlock 1, .call 0 (insertCall 2 7 (by decide)), .lock 0, .run 0 History.freshEnv] =
      some s ∧ s.accepted.getLast? = some ⟨0, 2, 7, some ⟨1, 2⟩, ⟨1, 1⟩⟩ := by
    refine exists_exec ?_
    decide +kernel
  have hbuilt : ∀ _ : Nat, History.fresh.state.Built := fun _ =>
    ⟨[], [], _, _, rfl, List.Pairwise.nil, by simp⟩
  have hlt := (hall _ _ _ s hbuilt hrun).accepted _ (List.mem_of_getLast? hlast) _ rfl
  exact absurd hlt (by decide)

end Runs

end System

end AVBGraph
