import AVBGraph.Transaction.Deadlock
import AVBGraph.Vertex.Stamps

namespace AVBGraph

open Framework Function

namespace VBData

variable {d : VBData}

/-- How often the lists of the threads below `n` name a TmpVersionBlock. -/
def count (d : VBData) (n : Nat) (p : Nat × Nat) : Nat := ((List.range n).flatMap d.vbVector).count p

theorem count_congr {d' : VBData} (h : d'.vbVector = d.vbVector) (n : Nat) (p : Nat × Nat) :
    d'.count n p = d.count n p := by
  simp only [count, h]

theorem count_pushback (n threadid : Nat) (p q : Nat × Nat) :
    (d.pushback q threadid).count n p = d.count n p + if threadid < n ∧ q = p then 1 else 0 := by
  unfold count pushback
  induction n with
  | zero => simp
  | succ n ih =>
    simp only [List.range_succ, List.flatMap_append, List.count_append, List.flatMap_cons,
      List.flatMap_nil, List.append_nil, ih]
    by_cases hn : n = threadid
    · subst hn
      have hcount : List.count p [q] = if q = p then 1 else 0 := by
        by_cases hqp : q = p <;> simp [hqp]
      simp only [update_self, List.count_append, hcount, lt_irrefl, false_and, if_false,
        Nat.lt_succ_self, true_and]
      omega
    · have hlt : threadid < n + 1 ↔ threadid < n := by omega
      rw [update_of_ne hn]
      simp only [hlt]
      omega

/-- Lists of higher threads that are empty do not count. -/
theorem count_mono {m n : Nat} (hmn : m ≤ n) (h : ∀ t, m ≤ t → d.vbVector t = [])
    (p : Nat × Nat) : d.count n p = d.count m p := by
  unfold count
  induction n, hmn using Nat.le_induction with
  | base => rfl
  | succ n hn ih => simp [List.range_succ, h n hn, ih]

end VBData

namespace System

variable {b : Build} {S : StdSort} {s s' : System} {e : Event} {t : Nat} {x : Txn} {c : Call}

/-- How often the VBData of an epoch registers the TmpVersionBlock of a vertex. -/
def registrations (s : System) (epoch v : Nat) : Nat :=
  (s.vbData epoch).count vbVectorLength (v, epoch % 16)

/-- commitVersionBlock of the epoch has run its loop to the end. -/
def Published (s : System) (epoch : Nat) : Prop := (s.vbData epoch).todo = some []

instance (s : System) (epoch : Nat) : Decidable (s.Published epoch) :=
  inferInstanceAs (Decidable (_ = _))

/-- Every write is made by a thread whose list commitVersionBlock collects, before its epoch is
committed, and into a slot whose last epoch is published. -/
def RegisterOk (s : System) : Event → Prop
  | .run t _ => ∀ x ∈ s.txns t, ∀ c, x.pc = .inside c →
      x.threadid < writeThread ∧ (s.vbData x.epoch).todo = none ∧
      let ts := (s.vertices c.src).stampAt (x.epoch % 16)
      ts = x.epoch ∨ ts = 0 ∨ s.Published ts
  | _ => True

/-- The TmpVersionBlocks that the VBData of an epoch registers and has handed over. -/
structure Registry (s : System) : Prop where
  threads : ∀ e n, writeThread ≤ n → (s.vbData e).vbVector n = []
  current : ∀ v k, let ts := (s.vertices v).stampAt k
    ts ≠ 0 → ts % 16 = k ∧ s.registrations ts v = 1
  zero : ∀ v, s.registrations 0 v = 0
  once : ∀ e v, s.registrations e v = 0 ∨
    (s.registrations e v = 1 ∧ ((s.vertices v).stampAt (e % 16) = e ∨ s.Published e))
  slot : ∀ e n, ∀ p ∈ (s.vbData e).vbVector n, p.2 = e % 16
  accepted : ∀ a ∈ s.accepted, s.registrations a.time.e a.src = 1
  before : ∀ e, (s.vbData e).todo = none → ∀ h ∈ s.handed, h.epoch ≠ e
  during : ∀ e todo, (s.vbData e).todo = some todo → (∀ p ∈ todo, p.2 = e % 16) ∧
    ∀ v, todo.count (v, e % 16) + s.handed.countP (fun h => h.epoch = e ∧ h.src = v) =
      s.registrations e v
  handed : ∀ h ∈ s.handed, h.slot = h.epoch % 16 ∧ h.timestamp = h.epoch

/-- Every written pair of vertex and epoch is registered once, and handed over once with a
VersionBlock of the epoch when the epoch is published. -/
def NothingForgotten (s : System) : Prop :=
  ∀ a ∈ s.accepted, s.registrations a.time.e a.src = 1 ∧
    (s.Published a.time.e → s.handed.filter (fun h => h.epoch = a.time.e ∧ h.src = a.src) =
      [⟨a.time.e, a.src, a.time.e % 16, a.time.e⟩])

theorem Registry.nothingForgotten (h : Registry s) : NothingForgotten s := by
  intro a ha
  refine ⟨h.accepted a ha, fun hpub => ?_⟩
  obtain ⟨-, hsum⟩ := h.during _ _ hpub
  have hone := hsum a.src
  rw [List.count_nil, Nat.zero_add, h.accepted a ha, List.countP_eq_length_filter,
    List.length_eq_one_iff] at hone
  obtain ⟨g, hg⟩ := hone
  have hmem : g ∈ s.handed ∧ g.epoch = a.time.e ∧ g.src = a.src := by
    have : g ∈ s.handed.filter fun h => h.epoch = a.time.e ∧ h.src = a.src := by
      rw [hg]
      exact List.mem_singleton_self g
    simpa using this
  obtain ⟨hslot, hts⟩ := h.handed g hmem.1
  rw [hg, ← hmem.2.1, ← hmem.2.2]
  cases g with
  | mk epoch src slot timestamp =>
    simp only at hslot hts
    rw [hslot, hts]

section Step

/-- A step that touches neither TmpVersionBlocks nor their lists. -/
theorem Registry.congr (h : Registry s)
    (hv : ∀ v, (s'.vertices v).stampAt = (s.vertices v).stampAt)
    (hvec : ∀ e, (s'.vbData e).vbVector = (s.vbData e).vbVector)
    (htodo : ∀ e, (s'.vbData e).todo = (s.vbData e).todo)
    (ha : ∀ a ∈ s'.accepted, s.registrations a.time.e a.src = 1) (hh : s'.handed = s.handed) :
    Registry s' := by
  have hreg : s'.registrations = s.registrations := by
    funext e v
    exact VBData.count_congr (hvec e) _ _
  have hpub : ∀ e, s'.Published e ↔ s.Published e := fun e => by rw [Published, htodo, Published]
  refine ⟨?_, ?_, ?_, ?_, ?_, ?_, ?_, ?_, ?_⟩
  · simpa only [hvec] using h.threads
  · simpa only [hv, hreg] using h.current
  · simpa only [hreg] using h.zero
  · simpa only [hv, hreg, hpub] using h.once
  · simpa only [hvec] using h.slot
  · simpa only [hreg] using ha
  · simpa only [htodo, hh] using h.before
  · simpa only [htodo, hh, hreg] using h.during
  · simpa only [hh] using h.handed

/-- A transaction that changes and a counter that is drawn leave the lists alone. -/
theorem vbVector_update {epoch : Nat} {d : VBData} (h : d.vbVector = (s.vbData epoch).vbVector)
    (e : Nat) : (update s.vbData epoch d e).vbVector = (s.vbData e).vbVector := by
  by_cases he : e = epoch
  · subst he
    rw [update_self, h]
  · rw [update_of_ne he]

theorem todo_update {epoch : Nat} {d : VBData} (h : d.todo = (s.vbData epoch).todo) (e : Nat) :
    (update s.vbData epoch d e).todo = (s.vbData e).todo := by
  by_cases he : e = epoch
  · subst he
    rw [update_self, h]
  · rw [update_of_ne he]

theorem drawIntra_lists (x : Txn) (d : VBData) :
    (x.drawIntra d).vbVector = d.vbVector ∧ (x.drawIntra d).todo = d.todo := by
  unfold Txn.drawIntra
  split_ifs <;> exact ⟨rfl, rfl⟩

/-- What a write does to vertices, lists and records. -/
theorem finish_fields (b : Build) (S : StdSort) (s : System) (t : Nat) (x : Txn) (c : Call)
    (env : Env) (r : WriteResult) :
    let s' := s.finish b S env t x c r
    let d := s.vbData x.epoch
    s'.vertices = update s.vertices c.src r.state ∧ s'.handed = s.handed ∧
      (∀ e, (s'.vbData e).todo = (s.vbData e).todo) ∧
      (∀ e, (s'.vbData e).vbVector = (update s.vbData x.epoch
        (if r.registered then d.pushback (c.src, x.epoch % 16) x.threadid else d) e).vbVector) ∧
      ∀ a ∈ s'.accepted, a ∈ s.accepted ∨
        (r.accepted = true ∧ a.src = c.src ∧ a.time.e = x.epoch) := by
  intro s' d
  have htodo : (if r.registered then d.pushback (c.src, x.epoch % 16) x.threadid else d).todo =
      d.todo := by
    split_ifs <;> rfl
  have hdraw : ∀ d' e, (update s.vbData x.epoch (x.drawIntra d') e).vbVector =
      (update s.vbData x.epoch d' e).vbVector := by
    intro d' e
    by_cases he : e = x.epoch
    · subst he
      simp only [update_self, drawIntra_lists]
    · simp only [update_of_ne he]
  unfold s' finish
  dsimp only
  cases hacc : r.accepted with
  | false =>
    rw [if_neg Bool.false_ne_true]
    exact ⟨rfl, rfl, todo_update htodo, fun _ => rfl, fun a ha => Or.inl ha⟩
  | true =>
    rw [if_pos rfl]
    cases b with
    | fineGrain =>
      refine ⟨rfl, rfl, todo_update ((drawIntra_lists _ _).2.trans htodo), hdraw _, fun a ha => ?_⟩
      refine (List.mem_append.mp ha).imp_right fun ha => ?_
      obtain rfl := List.mem_singleton.mp ha
      exact ⟨rfl, rfl, rfl⟩
    | coarse =>
      refine ⟨rfl, rfl, todo_update htodo, fun _ => rfl, fun a ha => ?_⟩
      refine (List.mem_append.mp ha).imp_right fun ha => ?_
      obtain rfl := List.mem_singleton.mp ha
      exact ⟨rfl, rfl, rfl⟩

theorem stampAt_vertices {v : Nat} {w : VertexEdges}
    (hf : w.stampAt = update (s.vertices c.src).stampAt (x.epoch % 16) x.epoch)
    (hv : s'.vertices = update s.vertices c.src w) (k : Nat) : (s'.vertices v).stampAt k =
      if v = c.src ∧ k = x.epoch % 16 then x.epoch else (s.vertices v).stampAt k := by
  rw [hv]
  by_cases hvc : v = c.src
  · subst hvc
    rw [update_self, hf]
    by_cases hk : k = x.epoch % 16
    · subst hk
      simp
    · simp [hk]
  · simp [hvc]

/-- The registration of a TmpVersionBlock that belonged to an older epoch. -/
theorem Registry.push (h : Registry s) (hth : x.threadid < writeThread)
    (hnone : (s.vbData x.epoch).todo = none)
    (hts : let ts := (s.vertices c.src).stampAt (x.epoch % 16)
      ts ≠ x.epoch ∧ (ts = 0 ∨ s.Published ts))
    (hv : ∀ v k, (s'.vertices v).stampAt k =
      if v = c.src ∧ k = x.epoch % 16 then x.epoch else (s.vertices v).stampAt k)
    (htodo : ∀ e, (s'.vbData e).todo = (s.vbData e).todo)
    (hvec : ∀ e, (s'.vbData e).vbVector = (update s.vbData x.epoch
      ((s.vbData x.epoch).pushback (c.src, x.epoch % 16) x.threadid) e).vbVector)
    (hh : s'.handed = s.handed)
    (ha : ∀ a ∈ s'.accepted, a ∈ s.accepted ∨ (a.src = c.src ∧ a.time.e = x.epoch)) :
    Registry s' := by
  have hlen : x.threadid < vbVectorLength := x.threadid_lt
  have hreg : ∀ e v, s'.registrations e v =
      s.registrations e v + if e = x.epoch ∧ v = c.src then 1 else 0 := by
    intro e v
    unfold registrations
    rw [VBData.count_congr (hvec e)]
    by_cases he : e = x.epoch
    · subst he
      rw [update_self, VBData.count_pushback]
      simp [hlen, eq_comm]
    · rw [update_of_ne he]
      simp [he]
  have hpub : ∀ e, s'.Published e ↔ s.Published e := fun e => by rw [Published, htodo, Published]
  -- the epoch did not register the vertex before
  have hzero : s.registrations x.epoch c.src = 0 := by
    rcases h.once x.epoch c.src with hzero | ⟨-, hstamp | hpub⟩
    · exact hzero
    · exact absurd hstamp hts.1
    · rw [Published, hnone] at hpub
      cases hpub
  refine ⟨fun e n hn => ?_, fun v k => ?_, fun v => ?_, fun e v => ?_, fun e n p hp => ?_,
    fun a haa => ?_, ?_, ?_, by rw [hh]; exact h.handed⟩
  · rw [hvec]
    by_cases he : e = x.epoch
    · subst he
      rw [update_self, VBData.pushback]
      have hne : n ≠ x.threadid := by omega
      simpa [hne] using h.threads x.epoch n hn
    · rw [update_of_ne he]
      exact h.threads e n hn
  · dsimp only
    rw [hv]
    split_ifs with hvk
    · obtain ⟨rfl, rfl⟩ := hvk
      intro _
      rw [hreg, hzero]
      simp
    · intro hne
      obtain ⟨hmod, hone⟩ := h.current v k hne
      refine ⟨hmod, ?_⟩
      rw [hreg, hone, if_neg]
      rintro ⟨he, rfl⟩
      exact hvk ⟨rfl, by rw [← hmod, he]⟩
  · rw [hreg, h.zero, if_neg]
    rintro ⟨he, -⟩
    exact absurd he.symm x.epoch_pos.ne'
  · rw [hreg, hpub, hv]
    by_cases hev : e = x.epoch ∧ v = c.src
    · obtain ⟨rfl, rfl⟩ := hev
      right
      simp [hzero]
    · rw [if_neg hev]
      refine (h.once e v).imp_right fun ⟨hone, hor⟩ => ⟨hone, ?_⟩
      split_ifs with hvk
      · -- the slot belonged to `e`, which is published
        obtain ⟨rfl, hmod⟩ := hvk
        right
        rcases hor with hstamp | hp
        · rw [hmod] at hstamp
          rcases hts.2 with hz | hp
          · have hezero : e = 0 := hstamp.symm.trans hz
            rw [hezero, h.zero] at hone
            cases hone
          · rwa [hstamp] at hp
        · exact hp
      · exact hor
  · rw [hvec] at hp
    by_cases he : e = x.epoch
    · subst he
      simp only [update_self, VBData.pushback] at hp
      by_cases hn : n = x.threadid
      · subst hn
        rw [update_self] at hp
        rcases List.mem_append.mp hp with hp | hp
        · exact h.slot _ _ p hp
        · rw [List.mem_singleton.mp hp]
      · rw [update_of_ne hn] at hp
        exact h.slot _ _ p hp
    · rw [update_of_ne he] at hp
      exact h.slot e n p hp
  · rw [hreg]
    rcases ha a haa with hold | ⟨hsrc, htime⟩
    · have hone := h.accepted a hold
      rw [hone, if_neg]
      rintro ⟨he, hs⟩
      rw [he, hs, hzero] at hone
      cases hone
    · rw [hsrc, htime, hzero]
      simp
  · intro e he
    rw [hh]
    exact h.before e (htodo e ▸ he)
  · intro e todo he
    rw [htodo] at he
    obtain ⟨hslot, hsum⟩ := h.during e todo he
    refine ⟨hslot, fun v => ?_⟩
    rw [hh, hsum v, hreg, if_neg, Nat.add_zero]
    rintro ⟨rfl, -⟩
    rw [hnone] at he
    cases he

theorem Registry.finish {env : Env} {r : WriteResult} (h : Registry s)
    (hok : x.threadid < writeThread ∧ (s.vbData x.epoch).todo = none ∧
      let ts := (s.vertices c.src).stampAt (x.epoch % 16)
      ts = x.epoch ∨ ts = 0 ∨ s.Published ts)
    (hr : s.runCall b S env x c = some r) : Registry (s.finish b S env t x c r) := by
  obtain ⟨hth, hnone, hts⟩ := hok
  obtain ⟨hvert, hh, htodo, hvec, hacc⟩ :=
    finish_fields b S s t x c env r
  set s' := s.finish b S env t x c r with hs'
  have hcases : VertexEdges.Registers (s.vertices c.src) (x.write (s.vbData x.epoch) c) r ∨
      (r.registered = false ∧ r.accepted = false ∧
        r.state.stampAt = (s.vertices c.src).stampAt) := by
    unfold runCall at hr
    split_ifs at hr
    · exact VertexEdges.delete_registers hr
    · exact Or.inl (VertexEdges.insert_registers hr)
  have hsame : r.registered = false → r.state.stampAt = (s.vertices c.src).stampAt →
      (r.accepted = true → s.registrations x.epoch c.src = 1) → Registry s' := by
    intro hreg hstamp hone
    apply h.congr (fun v => ?_) (fun e => ?_) htodo (fun a ha => ?_) hh
    · rw [hvert]
      by_cases hv : v = c.src
      · subst hv
        rw [update_self, hstamp]
      · rw [update_of_ne hv]
    · rw [hvec, hreg, if_neg Bool.false_ne_true, update_eq_self]
    · rcases hacc a ha with hold | ⟨hra, hsrc, htime⟩
      · exact h.accepted a hold
      · rw [hsrc, htime]
        exact hone hra
  rcases hcases with ⟨hreg, hstamp⟩ | ⟨hreg, href, hstamp⟩
  · by_cases heq : (s.vertices c.src).stampAt (x.epoch % 16) = x.epoch
    · -- the TmpVersionBlock belongs to the epoch already
      apply hsame
      · rw [hreg]
        exact decide_eq_false fun hne => hne heq
      · rw [hstamp]
        exact update_eq_self_iff.mpr heq.symm
      · intro _
        have hcur := (h.current c.src (x.epoch % 16) (by rw [heq]; exact x.epoch_pos.ne')).2
        rwa [heq] at hcur
    · have htrue : r.registered = true := by
        rw [hreg]
        exact decide_eq_true heq
      refine h.push hth hnone ⟨heq, hts.resolve_left heq⟩
        (fun v k => stampAt_vertices hstamp hvert k) htodo (fun e => ?_) hh fun a ha => ?_
      · rw [hvec, htrue, if_pos rfl]
      · exact (hacc a ha).imp_right And.right
  · apply hsame hreg hstamp
    intro hra
    rw [href] at hra
    cases hra

theorem Registry.collect (h : Registry s) {epoch : Nat} (hnone : (s.vbData epoch).todo = none)
    {d : VBData} (hd : d = { s.vbData epoch with todo := some (s.vbData epoch).thisVbVector }) :
    Registry { s with vbData := update s.vbData epoch d } := by
  subst hd
  set s' : System := { s with vbData := update s.vbData epoch _ } with hs'
  have hvec : ∀ e, (s'.vbData e).vbVector = (s.vbData e).vbVector := vbVector_update rfl
  have hreg : s'.registrations = s.registrations := by
    funext e v
    exact VBData.count_congr (hvec e) _ _
  have htodo : ∀ e, e ≠ epoch → (s'.vbData e).todo = (s.vbData e).todo := by
    intro e he
    simp only [hs', update_of_ne he]
  have hself : (s'.vbData epoch).todo = some (s.vbData epoch).thisVbVector := by
    simp only [hs', update_self]
  refine ⟨?_, ?_, ?_, fun e v => ?_, ?_, ?_, fun e he => ?_, fun e todo he => ?_, h.handed⟩
  · simpa only [hvec] using h.threads
  · rw [hreg]
    exact h.current
  · rw [hreg]
    exact h.zero
  · rw [hreg]
    refine (h.once e v).imp_right fun ⟨hone, hor⟩ => ⟨hone, hor.imp_right fun hpub => ?_⟩
    have hne : e ≠ epoch := by
      rintro rfl
      rw [Published, hnone] at hpub
      cases hpub
    rw [Published, htodo e hne]
    exact hpub
  · simpa only [hvec] using h.slot
  · rw [hreg]
    exact h.accepted
  · have hne : e ≠ epoch := by
      rintro rfl
      rw [hself] at he
      cases he
    exact h.before e (htodo e hne ▸ he)
  · rw [hreg]
    by_cases hne : e = epoch
    · subst hne
      rw [hself] at he
      obtain rfl := Option.some.inj he
      refine ⟨fun p hp => ?_, fun v => ?_⟩
      · obtain ⟨n, -, hn⟩ := List.mem_flatMap.mp hp
        exact h.slot e n p hn
      · have hzero : s'.handed.countP (fun g => g.epoch = e ∧ g.src = v) = 0 := by
          rw [List.countP_eq_zero]
          intro g hg
          simp [h.before e hnone g hg]
        rw [hzero, Nat.add_zero]
        exact (VBData.count_mono (by decide) (h.threads e) _).symm
    · rw [htodo e hne] at he
      exact h.during e todo he

/-- A TmpVersionBlock that waits for its Transform still belongs to its epoch. -/
theorem Registry.stamp_of_todo (h : Registry s) {epoch v slot : Nat} {todo : List (Nat × Nat)}
    (htodo : (s.vbData epoch).todo = some todo) (hmem : (v, slot) ∈ todo) :
    slot = epoch % 16 ∧ (s.vertices v).stampAt slot = epoch := by
  obtain ⟨hslot, hsum⟩ := h.during epoch todo htodo
  have hslot' : slot = epoch % 16 := hslot _ hmem
  refine ⟨hslot', ?_⟩
  rcases h.once epoch v with hzero | ⟨-, hst | hpub⟩
  · have hpos : 0 < todo.count (v, epoch % 16) := List.count_pos_iff.mpr (hslot' ▸ hmem)
    have := hsum v
    omega
  · rw [hslot', hst]
  · rw [Published, htodo] at hpub
    rw [Option.some.inj hpub] at hmem
    cases hmem

theorem Registry.handOver (h : Registry s) {epoch i slot : Nat} {todo : List (Nat × Nat)} {v : Nat}
    {w : VertexEdges} (htodo : (s.vbData epoch).todo = some todo) (hi : todo[i]? = some (v, slot))
    (hw : w.stampAt = (s.vertices v).stampAt) : Registry { s with
      vertices := update s.vertices v w
      vbData := update s.vbData epoch { s.vbData epoch with todo := some (todo.eraseIdx i) }
      handed := s.handed ++ [⟨epoch, v, slot, (s.vertices v).stampAt slot⟩] } := by
  set d : VBData := { s.vbData epoch with todo := some (todo.eraseIdx i) } with hd
  set g : HandOver := ⟨epoch, v, slot, (s.vertices v).stampAt slot⟩ with hg
  set s' : System := { s with
    vertices := update s.vertices v w
    vbData := update s.vbData epoch d
    handed := s.handed ++ [g] } with hs'
  have hvec : ∀ e, (s'.vbData e).vbVector = (s.vbData e).vbVector := vbVector_update rfl
  have hreg : s'.registrations = s.registrations := by
    funext e v
    exact VBData.count_congr (hvec e) _ _
  have hother : ∀ e, e ≠ epoch → (s'.vbData e).todo = (s.vbData e).todo := by
    intro e he
    simp only [hs', update_of_ne he]
  have hself : (s'.vbData epoch).todo = some (todo.eraseIdx i) := by
    simp only [hs', update_self, hd]
  have hstamp : ∀ k, (s'.vertices k).stampAt = (s.vertices k).stampAt := by
    intro k
    by_cases hk : k = v
    · subst hk
      simp only [hs', update_self, hw]
    · simp only [hs', update_of_ne hk]
  obtain ⟨hslot, hsum⟩ := h.during epoch todo htodo
  have hmem : (v, slot) ∈ todo := List.mem_of_getElem? hi
  obtain ⟨hslot', hts⟩ := h.stamp_of_todo htodo hmem
  obtain ⟨hlt, hget⟩ := List.getElem?_eq_some_iff.mp hi
  refine ⟨?_, ?_, ?_, fun e k => ?_, ?_, ?_, fun e he => ?_, fun e todo' he => ?_, fun q hq => ?_⟩
  · simpa only [hvec] using h.threads
  · simpa only [hreg, hstamp] using h.current
  · rw [hreg]
    exact h.zero
  · rw [hreg, hstamp]
    refine (h.once e k).imp_right fun ⟨hone, hor⟩ => ⟨hone, hor.imp_right fun hpub => ?_⟩
    have hne : e ≠ epoch := by
      rintro rfl
      rw [Published, htodo] at hpub
      rw [Option.some.inj hpub] at hmem
      cases hmem
    rw [Published, hother e hne]
    exact hpub
  · simpa only [hvec] using h.slot
  · rw [hreg]
    exact h.accepted
  · have hne : e ≠ epoch := by
      rintro rfl
      rw [hself] at he
      cases he
    intro q hq
    rcases List.mem_append.mp hq with hq | hq
    · exact h.before e (hother e hne ▸ he) q hq
    · obtain rfl := List.mem_singleton.mp hq
      exact hne.symm
  · rw [hreg]
    by_cases hne : e = epoch
    · subst hne
      rw [hself] at he
      obtain rfl := Option.some.inj he
      refine ⟨fun p hp => hslot p (List.mem_of_mem_eraseIdx hp), fun k => ?_⟩
      have hperm := (List.getElem_cons_eraseIdx_perm hlt).count_eq (k, e % 16)
      rw [hget, List.count_cons, hslot'] at hperm
      rw [← hsum k, ← hperm, List.countP_append]
      simp only [List.countP_cons, List.countP_nil, hg]
      by_cases hkv : v = k <;> simp [hkv]
      omega
    · have hzero : List.countP (fun q : HandOver => decide (q.epoch = e ∧ q.src = v)) [g] = 0 := by
        simp [hg, Ne.symm hne]
      rw [hother e hne] at he
      obtain ⟨hslot₁, hsum₁⟩ := h.during e todo' he
      refine ⟨hslot₁, fun k => ?_⟩
      rw [← hsum₁ k, List.countP_append]
      simp [hg, Ne.symm hne]
  · rcases List.mem_append.mp hq with hq | hq
    · exact h.handed q hq
    · obtain rfl := List.mem_singleton.mp hq
      exact ⟨hslot', hts⟩

/-- A step of one transaction outside its writes. -/
theorem Registry.silent (h : Registry s) (hv : s'.vertices = s.vertices)
    (hd : ∀ e, (s'.vbData e).vbVector = (s.vbData e).vbVector ∧
      (s'.vbData e).todo = (s.vbData e).todo)
    (ha : s'.accepted = s.accepted) (hh : s'.handed = s.handed) : Registry s' :=
  h.congr (fun v => by rw [hv]) (fun e => (hd e).1) (fun e => (hd e).2)
    (by rw [ha]; exact h.accepted) hh

theorem registry_step (h : Registry s) (hok : RegisterOk s e) (hstep : s.step b S e = some s') :
    Registry s' := by
  have hrefl : ∀ e, (s.vbData e).vbVector = (s.vbData e).vbVector ∧
      (s.vbData e).todo = (s.vbData e).todo := fun _ => ⟨rfl, rfl⟩
  cases e with
  | register t x =>
    simp only [step] at hstep
    split_ifs at hstep
    obtain rfl := Option.some.inj hstep
    exact h.silent rfl hrefl rfl rfl
  | call t c =>
    simp only [step, Option.bind_eq_bind, Option.bind_eq_some_iff] at hstep
    obtain ⟨x, -, hstep⟩ := hstep
    split_ifs at hstep
    obtain rfl := Option.some.inj hstep
    exact h.silent rfl hrefl rfl rfl
  | lock t =>
    simp only [step, Option.bind_eq_bind, Option.bind_eq_some_iff] at hstep
    obtain ⟨x, -, hstep⟩ := hstep
    split at hstep
    · split_ifs at hstep
      obtain rfl := Option.some.inj hstep
      exact h.silent rfl hrefl rfl rfl
    · simp at hstep
  | run t env =>
    simp only [step, Option.bind_eq_bind, Option.bind_eq_some_iff] at hstep
    obtain ⟨x, hx, hstep⟩ := hstep
    split at hstep
    · next c hpc =>
      obtain ⟨r, hr, rfl⟩ := Option.map_eq_some_iff.mp hstep
      exact h.finish (hok x hx c hpc) hr
    · simp at hstep
  | commit t =>
    simp only [step, Option.bind_eq_bind, Option.bind_eq_some_iff] at hstep
    obtain ⟨x, -, hstep⟩ := hstep
    split_ifs at hstep
    cases b with
    | fineGrain =>
      obtain rfl := Option.some.inj hstep
      obtain ⟨hvec, htodo⟩ := drawIntra_lists x (s.vbData x.epoch)
      exact h.silent rfl (fun e => ⟨vbVector_update hvec e, todo_update htodo e⟩) rfl rfl
    | coarse =>
      obtain rfl := Option.some.inj hstep
      exact h.silent rfl hrefl rfl rfl
  | unlock t =>
    simp only [step, Option.bind_eq_bind, Option.bind_eq_some_iff] at hstep
    obtain ⟨x, -, hstep⟩ := hstep
    split at hstep
    · obtain rfl := Option.some.inj hstep
      exact h.silent rfl hrefl rfl rfl
    · simp at hstep
  | collect epoch =>
    simp only [step] at hstep
    split_ifs at hstep with hnone
    obtain rfl := Option.some.inj hstep
    exact h.collect hnone rfl
  | handOver epoch i vb =>
    simp only [step, Option.bind_eq_bind, Option.bind_eq_some_iff] at hstep
    obtain ⟨todo, htodo, ⟨v, slot⟩, hi, hstep⟩ := hstep
    split_ifs at hstep
    obtain ⟨⟨n, w⟩, hw, hstep⟩ := Option.bind_eq_some_iff.mp hstep
    obtain rfl := Option.some.inj hstep
    exact h.handOver htodo hi (VertexEdges.stampAt_transform hw)

end Step

section Run

theorem registry_start {vertices : Nat → VertexEdges} (h : ∀ v k, (vertices v).stampAt k = 0) :
    Registry (start vertices) := by
  have hzero : ∀ e v, (start vertices).registrations e v = 0 := by
    intro e v
    have hnil : (List.range vbVectorLength).flatMap (fun _ => ([] : List (Nat × Nat))) = [] :=
      List.flatMap_eq_nil_iff.mpr fun _ _ => rfl
    simp [registrations, VBData.count, start, VBData.empty, hnil]
  refine ⟨fun _ _ _ => rfl, fun v k hne => absurd (h v k) hne, hzero 0, fun e v => Or.inl (hzero e v),
    ?_, ?_, ?_, ?_, ?_⟩
  · simp [start, VBData.empty]
  · simp [start]
  · simp [start]
  · simp [start, VBData.empty]
  · simp [start]

/-- In every run that starts before any write and meets the condition no registered write is
forgotten. -/
theorem nothing_forgotten {vertices : Nat → VertexEdges} (hv : ∀ v k, (vertices v).stampAt k = 0)
    {es : List Event} (hok : Along (step b S) RegisterOk (start vertices) es)
    (hrun : exec (step b S) (start vertices) es = some s) : NothingForgotten s :=
  (invariant_of_step (fun _ _ _ h hok hstep => registry_step h hok hstep) (registry_start hv) hok
    hrun).nothingForgotten

instance (s : System) : ∀ e, Decidable (RegisterOk s e)
  | .run t _ => decidable_of_iff (∀ x ∈ s.txns t, ∀ c ∈ x.pc.write,
      x.threadid < writeThread ∧ (s.vbData x.epoch).todo = none ∧
        ((s.vertices c.src).stampAt (x.epoch % 16) = x.epoch ∨
          (s.vertices c.src).stampAt (x.epoch % 16) = 0 ∨
          s.Published ((s.vertices c.src).stampAt (x.epoch % 16))))
      (by simp only [RegisterOk, Pc.mem_write])
  | .register _ _ | .call _ _ | .lock _ | .commit _ | .unlock _ | .collect _ | .handOver _ _ _ =>
    isTrue trivial

/-- One write of thread 3, its commit, and the publication of its epoch. -/
theorem nothing_forgotten_thread3 : ∃ s,
    exec (step .fineGrain .stable) (start fun _ => History.fresh.state)
      [.register 0 (writer 3 (by decide)), .call 0 (insertCall 2 7 (by decide)), .lock 0,
        .run 0 History.freshEnv, .commit 0, .unlock 0, .collect 1, .handOver 1 0 0] = some s ∧
      s.handed = [⟨1, 2, 1, 1⟩] ∧ NothingForgotten s := by
  obtain ⟨s, hrun, hhanded⟩ : ∃ s,
      exec (step .fineGrain .stable) (start fun _ => History.fresh.state)
        [.register 0 (writer 3 (by decide)), .call 0 (insertCall 2 7 (by decide)), .lock 0,
          .run 0 History.freshEnv, .commit 0, .unlock 0, .collect 1, .handOver 1 0 0] = some s ∧
        s.handed = [⟨1, 2, 1, 1⟩] := by
    refine exists_exec ?_
    decide +kernel
  exact ⟨s, hrun, hhanded, nothing_forgotten (b := .fineGrain) (S := .stable)
    (fun _ _ => rfl) (by decide +kernel) hrun⟩

/-- A write of thread 64 is registered in the list that commitVersionBlock does not collect. -/
theorem thread64_forgotten : ¬∀ (b : Build) (S : StdSort) (vertices : Nat → VertexEdges)
    (es : List Event) (s : System), (∀ v k, (vertices v).stampAt k = 0) →
      exec (step b S) (start vertices) es = some s → NothingForgotten s := by
  intro hall
  obtain ⟨s, hrun, hacc, hpub, hhanded⟩ : ∃ s,
      exec (step .fineGrain .stable) (start fun _ => History.fresh.state)
        [.register 0 (writer 64 (by decide)), .call 0 (insertCall 2 7 (by decide)), .lock 0,
          .run 0 History.freshEnv, .commit 0, .unlock 0, .collect 1] = some s ∧
        s.accepted = [⟨0, 2, 7, none, ⟨1, 1⟩⟩] ∧ s.Published 1 ∧ s.handed = [] := by
    refine exists_exec ?_
    decide +kernel
  have hone := (hall _ _ _ _ s (fun _ _ => rfl) hrun _ (by rw [hacc]; exact List.mem_singleton_self _)).2
    hpub
  rw [hhanded] at hone
  cases hone

end Run

end System

end AVBGraph
