import AVBGraph.Epoch.MinEpochUpdater
import AVBGraph.Vertex.Types

namespace AVBGraph.Finalize

open Framework Registration

/-- The updater thread in the loop of run_min_epoch_updater; `min` is update_min_version after its
loads of `cur_` and `no_more_txn_`. -/
inductive Updater
  | test
  | testEpochs
  | testStopped
  | loadCur
  | loadClosed (c : Nat)
  | min (u : MinEpochUpdater.Updater)
  | compare
  | compareClosed
  | compareCur
  | argument
  | argumentCur
  | committing
  | left
  deriving DecidableEq

/-- The thread that calls FinalizeNoMoreTxn. -/
inductive Finalizer
  | idle
  | stop
  | join
  | load
  | compare (target : Nat)
  | committing
  | done
  deriving DecidableEq

/-- AllVBManager with its two publishers: 0 is the updater, 1 the finalizer. -/
structure State where
  manager : Registration.State
  minEpoch : Nat
  noMoreTxn : Bool
  stopped : Bool
  updater : Updater
  finalizer : Finalizer

/-- `on` starts the updater. -/
def init (isCreate : Nat) (on : Bool) : State :=
  ⟨Registration.init isCreate, 0, false, false, if on then .test else .left, .idle⟩

/-- A step of the publisher `p` inside its call of commitVersionBlock; back in `idle` the caller
goes on. -/
def stepCommit (maxThreads : Nat) (s : State) (p : Nat) : Option State :=
  (Registration.step maxThreads s.manager (.publisher p)).map fun m => { s with manager := m }

/-- The caller enters commitVersionBlock. -/
def call (maxThreads : Nat) (s : State) (p cur : Nat) : Option State :=
  (Registration.step maxThreads s.manager (.call p cur)).map fun m => { s with manager := m }

def stepUpdater (maxThreads : Nat) (s : State) : Option State :=
  match s.updater with
  | .test => some { s with updater := if s.noMoreTxn then .testEpochs else .testStopped }
  | .testEpochs =>
    some { s with updater := if s.manager.readEpoch = s.manager.cur then .left else .testStopped }
  | .testStopped => some { s with updater := if s.stopped then .left else .loadCur }
  | .loadCur => some { s with updater := .loadClosed s.manager.cur }
  | .loadClosed c =>
    some { s with updater := .min (.storeMin s.minEpoch (c + s.noMoreTxn.toNat)) }
  | .min u =>
    (MinEpochUpdater.stepUpdater maxThreads ⟨s.manager, s.minEpoch, u⟩).map fun b =>
      { s with
        minEpoch := b.minEpoch
        updater := if b.updater = .compare then .compare else .min b.updater }
  | .compare =>
    some { s with
      updater := if s.manager.readEpoch + 1 < s.minEpoch then .argument else .compareClosed }
  | .compareClosed => some { s with updater := if s.noMoreTxn then .compareCur else .test }
  | .compareCur =>
    some { s with updater := if s.manager.readEpoch < s.manager.cur then .argument else .test }
  | .argument =>
    if s.noMoreTxn then some { s with updater := .argumentCur }
    else (call maxThreads s 0 s.minEpoch).map fun s => { s with updater := .committing }
  | .argumentCur =>
    (call maxThreads s 0 (s.manager.cur + 1)).map fun s => { s with updater := .committing }
  | .committing =>
    if s.manager.publishers 0 = .idle then some { s with updater := .test }
    else stepCommit maxThreads s 0
  | .left => none

/-- FinalizeNoMoreTxn; the join waits for the updater. -/
def stepFinalizer (maxThreads : Nat) (s : State) : Option State :=
  match s.finalizer with
  | .idle => some { s with noMoreTxn := true, finalizer := .stop }
  | .stop => some { s with stopped := true, finalizer := .join }
  | .join => if s.updater = .left then some { s with finalizer := .load } else none
  | .load => some { s with finalizer := .compare (s.manager.cur + 1) }
  | .compare target =>
    if s.manager.readEpoch + 1 < target then
      (call maxThreads s 1 target).map fun s => { s with finalizer := .committing }
    else some { s with finalizer := .done }
  | .committing =>
    if s.manager.publishers 1 = .idle then some { s with finalizer := .done }
    else stepCommit maxThreads s 1
  | .done => none

inductive Event
  | writer (w : Nat) (create : Bool)
  | updater
  | noMoreTxn
  | finalizer
  deriving DecidableEq

/-- A second call of NoMoreTxn has no effect and is no event. -/
def step (maxThreads : Nat) (s : State) : Event → Option State
  | .writer w create =>
    (Registration.step maxThreads s.manager (.writer w create)).map fun m => { s with manager := m }
  | .updater => stepUpdater maxThreads s
  | .noMoreTxn => if s.noMoreTxn then none else some { s with noMoreTxn := true }
  | .finalizer => stepFinalizer maxThreads s

/-- All writers have been joined before the write phase is closed, and none comes after it. -/
def Joined (maxThreads : Nat) (s : State) : Event → Prop
  | .writer _ _ => s.noMoreTxn = false
  | .updater => True
  | .noMoreTxn => ∀ w < maxThreads, s.manager.writers w = .idle
  | .finalizer => s.finalizer = .idle → ∀ w < maxThreads, s.manager.writers w = .idle

instance decidableJoined (maxThreads : Nat) (s : State) : ∀ e, Decidable (Joined maxThreads s e)
  | .writer _ _ => inferInstanceAs (Decidable (s.noMoreTxn = false))
  | .updater => inferInstanceAs (Decidable True)
  | .noMoreTxn => inferInstanceAs (Decidable (∀ w < maxThreads, s.manager.writers w = .idle))
  | .finalizer =>
    inferInstanceAs
      (Decidable (s.finalizer = .idle → ∀ w < maxThreads, s.manager.writers w = .idle))

/-- The read timestamp that registerROTransaction gives to a reader that stays in the loop once;
`intra` are the counters of the VBData. -/
def readTs (intra : Nat → Nat) (m : Registration.State) : Composite :=
  let re := m.readEpoch
  let vbdata := if re + 1 ≤ m.cur then m.activeTxns m.readEpochCur else none
  match vbdata with
  | some e => if e = re + 1 then ⟨re + 1, intra e⟩ else ⟨re, intraMax⟩
  | none => ⟨re, intraMax⟩

/-! ### commitVersionBlock when the write phase is closed -/

/-- A call whose argument is at most `cur_ + 1`. -/
def PublisherOk (s : Registration.State) (p : Nat) : Publisher → Prop
  | .idle => True
  | .waiting c => c ≤ s.cur + 1
  | .first c | .advance c | .next c => s.mtx = some p ∧ c ≤ s.cur + 1
  | .test c vb => s.mtx = some p ∧ c ≤ s.cur + 1 ∧
      (s.readEpoch + 1 < c → vb = some (s.readEpoch + 1))
  | .transform c vb | .push c vb => s.mtx = some p ∧ c ≤ s.cur + 1 ∧
      vb = some (s.readEpoch + 1) ∧ s.readEpoch + 1 < c
  | .loadRead c => s.mtx = some p ∧ c ≤ s.cur + 1 ∧ s.readEpoch + 1 < c
  | .storeRead c r => s.mtx = some p ∧ c ≤ s.cur + 1 ∧ r = s.readEpoch ∧ s.readEpoch + 1 < c
  | .unlock => s.mtx = some p

/-- No writer is left: the unpublished epochs up to `cur_` are in the ring, and the log goes on. -/
structure Closed (maxThreads : Nat) (s : Registration.State) : Prop where
  joined : ∀ w < maxThreads, s.writers w = .idle
  read_le : s.readEpoch ≤ s.cur
  cur_le : s.cur ≤ s.readEpoch + 16
  ring : ∀ e, s.readEpoch < e → e ≤ s.cur → s.activeTxns (e % 16) = some e
  publishers : ∀ p, PublisherOk s p (s.publishers p)
  log : LogOk s s.phase

variable {n : Nat}

theorem closed_of_inv {s : Registration.State} (h : Registration.Inv n s)
    (hjoined : ∀ w < n, s.writers w = .idle) : Closed n s where
  joined := hjoined
  read_le := h.read_lt.le
  cur_le := h.cur_le
  ring := h.ring
  publishers := by
    intro p
    have hok := h.publishers p
    cases hpc : s.publishers p with
    | idle => trivial
    | waiting c =>
      rw [hpc] at hok
      exact Nat.le_succ_of_le hok.1
    | first c | advance c | next c =>
      rw [hpc] at hok
      exact ⟨hok.1, Nat.le_succ_of_le hok.2.1⟩
    | test c vb =>
      rw [hpc] at hok
      exact ⟨hok.1, Nat.le_succ_of_le hok.2.1.1, fun _ => hok.2.2⟩
    | transform c vb | push c vb =>
      rw [hpc] at hok
      exact ⟨hok.1, Nat.le_succ_of_le hok.2.1.1, hok.2.2⟩
    | loadRead c =>
      rw [hpc] at hok
      exact ⟨hok.1, Nat.le_succ_of_le hok.2.1.1, hok.2.2⟩
    | storeRead c r =>
      rw [hpc] at hok
      exact ⟨hok.1, Nat.le_succ_of_le hok.2.1.1, hok.2.2⟩
    | unlock =>
      rw [hpc] at hok
      exact hok
  log := h.log

/-- Outside of `mtx_` a call only relies on its argument. -/
theorem PublisherOk.frame {s t : Registration.State} {p : Nat} {pc : Publisher}
    (h : PublisherOk s p pc) (hcur : t.cur = s.cur)
    (hmtx : s.mtx = some p → t.mtx = some p ∧ t.readEpoch = s.readEpoch) : PublisherOk t p pc := by
  cases pc with
  | idle => trivial
  | waiting c => simpa only [PublisherOk, hcur] using h
  | first c | advance c | next c => exact ⟨(hmtx h.1).1, hcur ▸ h.2⟩
  | test c vb =>
    obtain ⟨hm, ha, hvb⟩ := h
    exact ⟨(hmtx hm).1, hcur ▸ ha, (hmtx hm).2 ▸ hvb⟩
  | transform c vb | push c vb =>
    obtain ⟨hm, ha, hvb, hlt⟩ := h
    exact ⟨(hmtx hm).1, hcur ▸ ha, (hmtx hm).2 ▸ hvb, (hmtx hm).2 ▸ hlt⟩
  | loadRead c =>
    obtain ⟨hm, ha, hlt⟩ := h
    exact ⟨(hmtx hm).1, hcur ▸ ha, (hmtx hm).2 ▸ hlt⟩
  | storeRead c r =>
    obtain ⟨hm, ha, hr, hlt⟩ := h
    exact ⟨(hmtx hm).1, hcur ▸ ha, (hmtx hm).2 ▸ hr, (hmtx hm).2 ▸ hlt⟩
  | unlock => exact (hmtx h).1

/-- A step of one call. -/
theorem closed_publisher_of {s t : Registration.State} {p : Nat} {pc : Publisher} (h : Closed n s)
    (hpub : t.publishers = Function.update s.publishers p pc)
    (hframe : t.cur = s.cur ∧ t.activeTxns = s.activeTxns ∧ t.writers = s.writers)
    (hre : s.readEpoch ≤ t.readEpoch) (hle : t.readEpoch ≤ t.cur)
    (hmtx : ∀ q, q ≠ p → s.mtx = some q → t.mtx = some q ∧ t.readEpoch = s.readEpoch)
    (hpc : PublisherOk t p pc) (hlog : LogOk t t.phase) : Closed n t := by
  obtain ⟨hcur, htx, hwr⟩ := hframe
  have hroom := h.cur_le
  refine ⟨fun w hw => hwr ▸ h.joined w hw, hle, by omega, fun e h0 h1 => ?_, ?_, hlog⟩
  · rw [htx]
    exact h.ring e (by omega) (by omega)
  · rw [hpub]
    exact forall_update.mpr ⟨hpc, fun q hq => (h.publishers q).frame hcur (hmtx q hq)⟩

theorem Closed.publisher {s t : Registration.State} {p : Nat} (h : Closed n s)
    (ht : stepPublisher s p = some t) : Closed n t := by
  have hok := h.publishers p
  have hle := h.read_le
  have hlog := h.log
  -- the holder of mtx_ excludes the others
  have alone (hm : s.mtx = some p) {t : Registration.State} : ∀ q, q ≠ p → s.mtx = some q →
      t.mtx = some q ∧ t.readEpoch = s.readEpoch := by
    intro q hq hmq
    exact absurd (Option.some.inj (hmq.symm.trans hm)) hq
  have phase (hm : s.mtx = some p) : s.phase = s.publishers p := by rw [State.phase, hm]; rfl
  have ring (c : Nat) (hc : c ≤ s.cur + 1) (hlt : s.readEpoch + 1 < c)
      (hcursor : s.readEpochCur = (s.readEpoch + 1) % 16) :
      s.activeTxns s.readEpochCur = some (s.readEpoch + 1) :=
    hcursor ▸ h.ring _ (Nat.lt_succ_self _) (by omega)
  -- the steps that only move on
  have move (pc : Publisher) (hm : s.mtx = some p) (hpc : PublisherOk s p pc) (hl : LogOk s pc) :
      Closed n (setPublisher s p pc) := by
    refine closed_publisher_of h rfl ⟨rfl, rfl, rfl⟩ le_rfl hle (alone hm) ?_ ?_
    · cases pc <;> exact hpc
    · have hph : (setPublisher s p pc).phase = pc := by simp [State.phase, setPublisher, hm]
      rw [hph]
      cases pc <;> exact hl
  unfold stepPublisher at ht
  cases hpc : s.publishers p with
  | idle => simp [hpc] at ht
  | waiting cur =>
    simp only [hpc] at ht hok
    split_ifs at ht with hm
    obtain rfl := Option.some.inj ht
    refine closed_publisher_of h rfl ⟨rfl, rfl, rfl⟩ le_rfl hle ?_ ⟨rfl, hok⟩ ?_
    · intro q _ hmq
      rw [hm] at hmq
      cases hmq
    · simpa [State.phase, hm, setPublisher, LogOk] using hlog
  | first cur | next cur =>
    simp only [hpc] at ht hok
    obtain ⟨hm, harg⟩ := hok
    rw [phase hm, hpc] at hlog
    obtain rfl := Option.some.inj ht
    exact move _ hm ⟨hm, harg, fun hlt => ring cur harg hlt hlog.2.2⟩ hlog
  | test cur vb =>
    simp only [hpc] at ht hok
    obtain ⟨hm, harg, hvb⟩ := hok
    rw [phase hm, hpc] at hlog
    obtain rfl := Option.some.inj ht
    split_ifs with hlt
    · exact move _ hm ⟨hm, harg, hvb hlt, hlt⟩ hlog
    · exact move _ hm hm hlog
  | transform cur vb =>
    simp only [hpc] at ht hok
    obtain ⟨hm, harg, rfl, hlt⟩ := hok
    rw [phase hm, hpc] at hlog
    obtain ⟨htr, henq, hcur⟩ := hlog
    obtain rfl := Option.some.inj ht
    refine closed_publisher_of h rfl ⟨rfl, rfl, rfl⟩ le_rfl hle (alone hm)
      ⟨hm, harg, rfl, hlt⟩ ?_
    simp [State.phase, hm, setPublisher, LogOk, upTo_succ, htr, henq, hcur]
  | push cur vb =>
    simp only [hpc] at ht hok
    obtain ⟨hm, harg, rfl, hlt⟩ := hok
    rw [phase hm, hpc] at hlog
    obtain ⟨htr, henq, hcur⟩ := hlog
    obtain rfl := Option.some.inj ht
    refine closed_publisher_of h rfl ⟨rfl, rfl, rfl⟩ le_rfl hle (alone hm) ⟨hm, harg, hlt⟩ ?_
    simp [State.phase, hm, setPublisher, LogOk, upTo_succ, htr, henq, hcur]
  | loadRead cur =>
    simp only [hpc] at ht hok
    obtain ⟨hm, harg, hlt⟩ := hok
    rw [phase hm, hpc] at hlog
    obtain rfl := Option.some.inj ht
    exact move _ hm ⟨hm, harg, rfl, hlt⟩ hlog
  | storeRead cur r =>
    simp only [hpc] at ht hok
    obtain ⟨hm, harg, rfl, hlt⟩ := hok
    rw [phase hm, hpc] at hlog
    obtain ⟨htr, henq, hcur⟩ := hlog
    obtain rfl := Option.some.inj ht
    refine closed_publisher_of h rfl ⟨rfl, rfl, rfl⟩ (Nat.le_succ _) ?_ ?_ ⟨hm, harg⟩ ?_
    · -- the argument is at most `cur_ + 1`, so the epoch that becomes published is at most `cur_`
      simp only [setPublisher]
      omega
    · intro q hq hmq
      exact absurd (Option.some.inj (hmq.symm.trans hm)) hq
    · simp [State.phase, hm, setPublisher, LogOk, htr, henq, hcur]
  | advance cur =>
    simp only [hpc] at ht hok
    obtain ⟨hm, harg⟩ := hok
    rw [phase hm, hpc] at hlog
    obtain ⟨htr, henq, hcur⟩ := hlog
    obtain rfl := Option.some.inj ht
    refine closed_publisher_of h rfl ⟨rfl, rfl, rfl⟩ le_rfl hle (alone hm) ⟨hm, harg⟩ ?_
    have hnext : (if s.readEpochCur = 15 then 0 else s.readEpochCur + 1) =
        (s.readEpoch + 1) % 16 := by
      split_ifs <;> omega
    simp [State.phase, hm, setPublisher, LogOk, htr, henq, hnext]
  | unlock =>
    simp only [hpc] at ht hok
    rw [phase hok, hpc] at hlog
    obtain rfl := Option.some.inj ht
    refine closed_publisher_of h rfl ⟨rfl, rfl, rfl⟩ le_rfl hle ?_ trivial hlog
    intro q hq hmq
    exact absurd (Option.some.inj (hmq.symm.trans hok)) hq

theorem Closed.call {s t : Registration.State} {p c : Nat} (h : Closed n s) (hc : c ≤ s.cur + 1)
    (ht : Registration.step n s (.call p c) = some t) : Closed n t := by
  rw [Registration.step] at ht
  split_ifs at ht with hp
  obtain rfl := Option.some.inj ht
  have hlog := h.log
  refine closed_publisher_of h rfl ⟨rfl, rfl, rfl⟩ le_rfl h.read_le (fun q _ hmq => ⟨hmq, rfl⟩) hc ?_
  by_cases hm : s.mtx = some p
  · have hph : s.phase = .idle := by simp [State.phase, hm, hp]
    rw [hph] at hlog
    simpa [State.phase, setPublisher, hm, LogOk] using hlog
  · have hph : (setPublisher s p (.waiting c)).phase = s.phase := by
      cases hq : s.mtx with
      | none => simp [State.phase, setPublisher, hq]
      | some q =>
        have hne : q ≠ p := fun h => hm (h ▸ hq)
        simp [State.phase, setPublisher, hq, hne]
    rw [hph]
    cases hpc : s.phase <;> rw [hpc] at hlog <;> exact hlog

/-! ### Whose turn it is -/

/-- The call holds `mtx_`. -/
def inside : Publisher → Bool
  | .idle | .waiting _ => false
  | _ => true

/-- Only a call inside holds `mtx_`, and only the updater and the finalizer call. -/
structure Turns (s : State) : Prop where
  holder : ∀ q, s.manager.mtx = some q → inside (s.manager.publishers q) = true
  updater : s.updater ≠ .committing → s.manager.publishers 0 = .idle
  finalizer : s.finalizer ≠ .committing → s.manager.publishers 1 = .idle
  others : ∀ p, p ≠ 0 → p ≠ 1 → s.manager.publishers p = .idle

theorem stepPublisher_turn {s t : Registration.State} {p : Nat}
    (hin : inside (s.publishers p) = true → s.mtx = some p)
    (ht : stepPublisher s p = some t) :
    (∀ q, q ≠ p → t.publishers q = s.publishers q) ∧
      ∀ q, t.mtx = some q → inside (t.publishers q) = true := by
  have move (pc : Publisher) (hm : s.mtx = some p) (hpc : inside pc = true) {t : Registration.State}
      (hpub : t.publishers = Function.update s.publishers p pc) (hmtx : t.mtx = s.mtx) :
      (∀ q, q ≠ p → t.publishers q = s.publishers q) ∧
        ∀ q, t.mtx = some q → inside (t.publishers q) = true := by
    refine ⟨fun q hq => by rw [hpub, Function.update_of_ne hq], fun q hq => ?_⟩
    obtain rfl : p = q := Option.some.inj (hm.symm.trans (hmtx.symm.trans hq))
    rw [hpub, Function.update_self]
    exact hpc
  unfold stepPublisher at ht
  cases hpc : s.publishers p with
  | idle => simp [hpc] at ht
  | waiting cur =>
    simp only [hpc] at ht
    split_ifs at ht with hm
    obtain rfl := Option.some.inj ht
    refine ⟨fun q hq => Function.update_of_ne hq _ _, fun q hq => ?_⟩
    obtain rfl : p = q := Option.some.inj hq
    simp [setPublisher, inside]
  | first cur | loadRead cur | next cur =>
    simp only [hpc] at ht
    obtain rfl := Option.some.inj ht
    exact move _ (hin (by rw [hpc]; rfl)) rfl rfl rfl
  | storeRead cur r | advance cur =>
    simp only [hpc] at ht
    obtain rfl := Option.some.inj ht
    exact move _ (hin (by rw [hpc]; rfl)) rfl rfl rfl
  | test cur vb =>
    simp only [hpc] at ht
    obtain rfl := Option.some.inj ht
    exact move _ (hin (by rw [hpc]; rfl)) (by split_ifs <;> rfl) rfl rfl
  | transform cur vb | push cur vb =>
    simp only [hpc] at ht
    obtain ⟨e, -, rfl⟩ := Option.map_eq_some_iff.mp ht
    exact move _ (hin (by rw [hpc]; rfl)) rfl rfl rfl
  | unlock =>
    simp only [hpc] at ht
    obtain rfl := Option.some.inj ht
    exact ⟨fun q hq => Function.update_of_ne hq _ _, fun q hq => by simp [setPublisher] at hq⟩

theorem stepWriter_turn (s : Registration.State) (w : Nat) (create : Bool) :
    (stepWriter s w create).publishers = s.publishers ∧ (stepWriter s w create).mtx = s.mtx := by
  unfold stepWriter
  cases s.writers w with
  | registered cur vb pc =>
    cases pc with
    | cas =>
      simp only [stepCreation]
      split_ifs <;> exact ⟨rfl, rfl⟩
    | _ => exact ⟨rfl, rfl⟩
  | _ => exact ⟨rfl, rfl⟩

theorem inside_of_registration {s : Registration.State} {p : Nat} {pc : Publisher}
    (h : Registration.PublisherOk n s p pc) (hin : inside pc = true) : s.mtx = some p := by
  cases pc with
  | idle | waiting => cases hin
  | unlock => exact h
  | _ => exact h.1

theorem PublisherOk.inside {s : Registration.State} {p : Nat} {pc : Publisher}
    (h : PublisherOk s p pc) (hin : Finalize.inside pc = true) : s.mtx = some p := by
  cases pc with
  | idle | waiting => cases hin
  | unlock => exact h
  | _ => exact h.1

/-! ### The invariant of the system -/

/-- The positions of the updater inside update_min_version. -/
def inMin : MinEpochUpdater.Updater → Bool
  | .storeMin _ _ | .scanning _ _ _ | .lower _ _ | .keep _ _ => true
  | _ => false

/-- The updater before the write phase is closed. -/
def UpdaterOpen (n : Nat) (m : Registration.State) (minEpoch : Nat) : Updater → Prop
  | .min u => inMin u = true ∧ MinEpochUpdater.UpdaterOk n ⟨m, minEpoch, u⟩ u
  | .loadClosed c => ArgOk n m minEpoch ∧ c ≤ m.cur
  | .testEpochs | .compareCur | .argumentCur => False
  | _ => ArgOk n m minEpoch

/-- The bounds that update_min_version works with. -/
def MinBounded (bound minEpoch : Nat) : MinEpochUpdater.Updater → Prop
  | .storeMin last c => last ≤ bound ∧ c ≤ bound
  | .scanning last _ _ | .keep last _ => last ≤ bound ∧ minEpoch ≤ bound
  | .lower last min2 => last ≤ bound ∧ minWith minEpoch min2 ≤ bound
  | _ => False

/-- The updater once the write phase is closed. -/
def UpdaterClosed (cur minEpoch : Nat) : Updater → Prop
  | .min u => MinBounded (cur + 1) minEpoch u
  | .loadClosed c => minEpoch ≤ cur + 1 ∧ c ≤ cur
  | _ => minEpoch ≤ cur + 1

/-- The argument of a call. -/
def arg : Publisher → Option Nat
  | .waiting c | .first c | .test c _ | .transform c _ | .push c _ | .loadRead c | .storeRead c _
  | .advance c | .next c => some c
  | .idle | .unlock => none

/-- The call publishes all epochs, or has published them. -/
def Finishing (m : Registration.State) (p : Nat) : Prop :=
  match arg (m.publishers p) with
  | some c => c = m.cur + 1
  | none => m.readEpoch = m.cur

def FinalizerOk (s : State) : Finalizer → Prop
  | .idle | .stop => True
  | .join => s.stopped = true
  | .load => s.stopped = true ∧ s.updater = .left
  | .compare target => s.stopped = true ∧ s.updater = .left ∧ target = s.manager.cur + 1
  | .committing => s.stopped = true ∧ s.updater = .left ∧ Finishing s.manager 1
  | .done => s.stopped = true ∧ s.updater = .left ∧ s.manager.readEpoch = s.manager.cur

structure Inv (n : Nat) (s : State) : Prop where
  turns : Turns s
  opened : s.noMoreTxn = false →
    Registration.Inv n s.manager ∧ UpdaterOpen n s.manager s.minEpoch s.updater ∧
      s.finalizer = .idle
  closed : s.noMoreTxn = true →
    Closed n s.manager ∧ UpdaterClosed s.manager.cur s.minEpoch s.updater ∧
      FinalizerOk s s.finalizer
  left : s.updater = .left → s.stopped = true ∨
    s.noMoreTxn = true ∧ s.manager.readEpoch = s.manager.cur

theorem inv_init (n isCreate : Nat) : Inv n (init isCreate true) where
  turns := ⟨by simp [init, Registration.init], fun _ => rfl, fun _ => rfl, fun _ _ _ => rfl⟩
  opened := fun _ =>
    ⟨Registration.inv_init n isCreate, ⟨Nat.zero_le _, fun _ _ _ _ => Nat.zero_le _⟩, rfl⟩
  closed := nofun
  left := nofun

/-- When the write phase closes the updater may be anywhere in its round. -/
theorem UpdaterOpen.close {m : Registration.State} {minEpoch : Nat} {u : Updater}
    (h : UpdaterOpen n m minEpoch u) : UpdaterClosed m.cur minEpoch u := by
  have bound {c : Nat} (hc : ArgOk n m c) : c ≤ m.cur + 1 := Nat.le_succ_of_le hc.1
  cases u with
  | min u =>
    obtain ⟨hin, hok⟩ := h
    cases u with
    | idle | compare | committing => cases hin
    | storeMin last c => exact ⟨bound hok.1, Nat.le_succ_of_le hok.2⟩
    | scanning last i min2 => exact ⟨bound hok.1, Nat.le_succ_of_le hok.2.2.1⟩
    | lower last min2 | keep last min2 => exact ⟨bound hok.1, bound hok.2⟩
  | loadClosed c => exact ⟨bound h.1, h.2⟩
  | testEpochs | compareCur | argumentCur => exact h.elim
  | test | testStopped | loadCur | compare | compareClosed | argument | committing | left =>
    exact bound h

/-- A step of update_min_version while writers may register. -/
theorem UpdaterOpen.min_step {m : Registration.State} {minEpoch : Nat} {u : MinEpochUpdater.Updater}
    {b : MinEpochUpdater.State} (h : UpdaterOpen n m minEpoch (.min u)) (hinv : Registration.Inv n m)
    (hb : MinEpochUpdater.stepUpdater n ⟨m, minEpoch, u⟩ = some b) : b.manager = m ∧
      UpdaterOpen n m b.minEpoch (if b.updater = .compare then .compare else .min b.updater) := by
  obtain ⟨hin, hok⟩ := h
  obtain ⟨-, hok'⟩ := MinEpochUpdater.inv_updater ⟨hinv, hok⟩ hb
  unfold MinEpochUpdater.stepUpdater at hb
  cases u with
  | idle | compare | committing => cases hin
  | storeMin last c | lower last min2 =>
    obtain rfl := Option.some.inj hb
    exact ⟨rfl, rfl, hok'⟩
  | scanning last i min2 =>
    simp only at hb
    split_ifs at hb
    · obtain rfl := Option.some.inj hb
      exact ⟨rfl, rfl, hok'⟩
    · obtain rfl := Option.some.inj hb
      exact ⟨rfl, rfl, hok'⟩
  | keep last min2 =>
    obtain rfl := Option.some.inj hb
    exact ⟨rfl, hok'⟩

/-- A step of update_min_version once the write phase is closed. -/
theorem UpdaterClosed.min_step {m : Registration.State} {minEpoch : Nat}
    {u : MinEpochUpdater.Updater} {b : MinEpochUpdater.State}
    (h : UpdaterClosed m.cur minEpoch (.min u))
    (hb : MinEpochUpdater.stepUpdater n ⟨m, minEpoch, u⟩ = some b) : b.manager = m ∧
      UpdaterClosed m.cur b.minEpoch (if b.updater = .compare then .compare else .min b.updater) := by
  unfold MinEpochUpdater.stepUpdater at hb
  cases u with
  | idle | compare | committing => exact h.elim
  | storeMin last c =>
    obtain rfl := Option.some.inj hb
    exact ⟨rfl, h⟩
  | scanning last i min2 =>
    simp only at hb
    split_ifs at hb
    · obtain rfl := Option.some.inj hb
      exact ⟨rfl, h⟩
    · obtain rfl := Option.some.inj hb
      exact ⟨rfl, h.1, (minWith_le _ _).trans h.2⟩
  | lower last min2 =>
    obtain rfl := Option.some.inj hb
    exact ⟨rfl, h⟩
  | keep last min2 =>
    obtain rfl := Option.some.inj hb
    refine ⟨rfl, ?_⟩
    simp only [if_true, UpdaterClosed]
    split_ifs
    · exact h.1
    · exact h.2

theorem Finishing.publisher {s t : Registration.State} {p : Nat} (h : Finishing s p)
    (hclosed : Closed n s) (ht : stepPublisher s p = some t) : Finishing t p := by
  have hle := hclosed.read_le
  unfold Finishing at h
  unfold stepPublisher at ht
  cases hpc : s.publishers p with
  | idle => simp [hpc] at ht
  | waiting cur =>
    simp only [hpc, arg] at ht h
    split_ifs at ht
    obtain rfl := Option.some.inj ht
    simpa [Finishing, setPublisher, arg] using h
  | transform cur vb | push cur vb =>
    simp only [hpc, arg] at ht h
    obtain ⟨e, -, rfl⟩ := Option.map_eq_some_iff.mp ht
    simpa [Finishing, setPublisher, arg] using h
  | test cur vb =>
    simp only [hpc, arg] at ht h
    obtain rfl := Option.some.inj ht
    split_ifs with hlt
    · simpa [Finishing, setPublisher, arg] using h
    · have hall : s.readEpoch = s.cur := by omega
      simpa [Finishing, setPublisher, arg] using hall
  | first cur | loadRead cur | storeRead cur r | advance cur | next cur | unlock =>
    simp only [hpc, arg] at ht h
    obtain rfl := Option.some.inj ht
    simpa [Finishing, setPublisher, arg] using h

/-! ### The steps of the threads -/

theorem inv_writer {s : State} {w : Nat} {create : Bool} {m : Registration.State} (h : Inv n s)
    (hopen : s.noMoreTxn = false)
    (hm : Registration.step n s.manager (.writer w create) = some m) :
    Inv n { s with manager := m } := by
  obtain ⟨hman, hupd, hfin⟩ := h.opened hopen
  have hman' := Registration.inv_step _ (.writer w create) _ hman trivial hm
  have hturn : m.publishers = s.manager.publishers ∧ m.mtx = s.manager.mtx := by
    rw [Registration.step] at hm
    split_ifs at hm
    obtain rfl := Option.some.inj hm
    exact stepWriter_turn s.manager w create
  refine ⟨⟨?_, ?_, ?_, ?_⟩, fun _ => ⟨hman', ?_, hfin⟩, fun hc => absurd hc (by simp [hopen]), ?_⟩
  · rw [hturn.1, hturn.2]
    exact h.turns.holder
  · rw [hturn.1]
    exact h.turns.updater
  · rw [hturn.1]
    exact h.turns.finalizer
  · rw [hturn.1]
    exact h.turns.others
  · cases hu : s.updater with
    | min u =>
      rw [hu] at hupd
      exact ⟨hupd.1, hupd.2.manager hman hm⟩
    | loadClosed c =>
      rw [hu] at hupd
      exact ⟨hupd.1.step hman hm, hupd.2.trans (hman.step_mono hm).1⟩
    | testEpochs | compareCur | argumentCur =>
      rw [hu] at hupd
      exact hupd.elim
    | test | testStopped | loadCur | compare | compareClosed | argument | committing | left =>
      rw [hu] at hupd
      exact hupd.step hman hm
  · intro hleft
    rcases h.left hleft with hs | ⟨hc, -⟩
    · exact .inl hs
    · rw [hopen] at hc
      cases hc

/-- NoMoreTxn, or the first store of FinalizeNoMoreTxn. -/
theorem inv_close {s : State} (h : Inv n s) (hjoined : s.noMoreTxn = false →
    ∀ w < n, s.manager.writers w = .idle) {f : Finalizer} (hf : f = .idle ∨ f = .stop)
    (hidle : s.finalizer = .idle) : Inv n { s with noMoreTxn := true, finalizer := f } := by
  have hturns : f ≠ .committing → s.manager.publishers 1 = .idle := fun _ =>
    h.turns.finalizer (by simp [hidle])
  have hfin : FinalizerOk { s with noMoreTxn := true, finalizer := f } f := by
    rcases hf with rfl | rfl <;> trivial
  refine ⟨⟨h.turns.holder, h.turns.updater, hturns, h.turns.others⟩, nofun, fun _ => ?_, ?_⟩
  · cases hopen : s.noMoreTxn with
    | false =>
      obtain ⟨hman, hupd, -⟩ := h.opened hopen
      exact ⟨closed_of_inv hman (hjoined hopen), hupd.close, hfin⟩
    | true =>
      obtain ⟨hclosed, hupd, -⟩ := h.closed hopen
      exact ⟨hclosed, hupd, hfin⟩
  · intro hleft
    exact (h.left hleft).imp_right fun hr => ⟨rfl, hr.2⟩

/-- A call of commitVersionBlock leaves the other threads alone. -/
theorem call_turn {s t : State} {p c : Nat} (ht : call n s p c = some t) :
    ∃ m, Registration.step n s.manager (.call p c) = some m ∧ t = { s with manager := m } ∧
      m = setPublisher s.manager p (.waiting c) := by
  obtain ⟨m, hm, rfl⟩ := Option.map_eq_some_iff.mp ht
  refine ⟨m, hm, rfl, ?_⟩
  rw [Registration.step] at hm
  split_ifs at hm
  exact (Option.some.inj hm).symm

/-- While the updater runs, the finalizer has not got past its join. -/
theorem FinalizerOk.updater {s t : State} {f : Finalizer} (h : FinalizerOk s f)
    (hleft : s.updater ≠ .left) (hstopped : t.stopped = s.stopped) : FinalizerOk t f := by
  cases f with
  | idle | stop => trivial
  | join => exact hstopped.trans h
  | load => exact absurd h.2 hleft
  | compare | committing | done => exact absurd h.2.1 hleft

/-- A step of the updater between its calls. -/
theorem Inv.setUpdater {s : State} (h : Inv n s) (minEpoch : Nat) (u : Updater)
    (hleft : s.updater ≠ .left) (hidle : s.manager.publishers 0 = .idle)
    (hopen : s.noMoreTxn = false → UpdaterOpen n s.manager minEpoch u)
    (hclosed : s.noMoreTxn = true → UpdaterClosed s.manager.cur minEpoch u)
    (hend : u = .left → s.stopped = true ∨
      s.noMoreTxn = true ∧ s.manager.readEpoch = s.manager.cur) :
    Inv n { s with minEpoch := minEpoch, updater := u } := by
  refine ⟨⟨h.turns.holder, fun _ => hidle, h.turns.finalizer, h.turns.others⟩, fun ho => ?_,
    fun hc => ?_, hend⟩
  · obtain ⟨hman, -, hfin⟩ := h.opened ho
    exact ⟨hman, hopen ho, hfin⟩
  · obtain ⟨hman, -, hfin⟩ := h.closed hc
    exact ⟨hman, hclosed hc, hfin.updater hleft rfl⟩

theorem Turns.call {s : State} (h : Turns s) {p c : Nat} (hp : s.manager.publishers p = .idle)
    {u : Updater} {f : Finalizer} (hu : u ≠ .committing → p ≠ 0 ∧ s.updater ≠ .committing)
    (hf : f ≠ .committing → p ≠ 1 ∧ s.finalizer ≠ .committing) (hp' : p = 0 ∨ p = 1) :
    Turns { s with
      manager := setPublisher s.manager p (.waiting c), updater := u, finalizer := f } := by
  have hother (q : Nat) (hq : q ≠ p) :
      (setPublisher s.manager p (.waiting c)).publishers q = s.manager.publishers q :=
    Function.update_of_ne hq _ _
  refine ⟨fun q hq => ?_, fun hne => ?_, fun hne => ?_, fun q h0 h1 => ?_⟩
  · have hin := h.holder q hq
    have hne : q ≠ p := by
      rintro rfl
      rw [hp] at hin
      cases hin
    simp only [hother q hne]
    exact hin
  · simp only [hother 0 (Ne.symm (hu hne).1)]
    exact h.updater (hu hne).2
  · simp only [hother 1 (Ne.symm (hf hne).1)]
    exact h.finalizer (hf hne).2
  · have hne : q ≠ p := by omega
    simp only [hother q hne]
    exact h.others q h0 h1

theorem Turns.commit {s : State} {m : Registration.State} {p : Nat} (h : Turns s)
    (hin : inside (s.manager.publishers p) = true → s.manager.mtx = some p)
    (hm : stepPublisher s.manager p = some m) (hu : p = 0 → s.updater = .committing)
    (hf : p = 1 → s.finalizer = .committing) (hp : p = 0 ∨ p = 1) :
    Turns { s with manager := m } := by
  obtain ⟨hother, hholder⟩ := stepPublisher_turn hin hm
  refine ⟨hholder, fun hne => ?_, fun hne => ?_, fun q h0 h1 => ?_⟩
  · rw [hother 0 fun h0 => hne (hu h0.symm)]
    exact h.updater hne
  · rw [hother 1 fun h1 => hne (hf h1.symm)]
    exact h.finalizer hne
  · rw [hother q (by omega)]
    exact h.others q h0 h1

/-- A publisher of the system inside its call. -/
theorem Inv.inside {s : State} (h : Inv n s) (p : Nat)
    (hin : inside (s.manager.publishers p) = true) : s.manager.mtx = some p := by
  cases hopen : s.noMoreTxn with
  | false => exact inside_of_registration ((h.opened hopen).1.publishers p) hin
  | true => exact ((h.closed hopen).1.publishers p).inside hin

/-- The updater calls commitVersionBlock. -/
theorem Inv.callUpdater {s t : State} {c : Nat} (h : Inv n s) (hleft : s.updater ≠ .left)
    (hidle : s.manager.publishers 0 = .idle) (ht : call n s 0 c = some t)
    (hopen : s.noMoreTxn = false → ArgOk n s.manager c ∧ ArgOk n s.manager s.minEpoch)
    (hclosed : s.noMoreTxn = true → c ≤ s.manager.cur + 1 ∧ s.minEpoch ≤ s.manager.cur + 1) :
    Inv n { t with updater := .committing } := by
  obtain ⟨m, hm, rfl, rfl⟩ := call_turn ht
  refine ⟨?_, fun ho => ?_, fun hc => ?_, nofun⟩
  · exact h.turns.call hidle (fun hne => absurd rfl hne)
      (fun hne => ⟨Nat.zero_ne_one, hne⟩) (.inl rfl)
  · obtain ⟨hman, -, hfin⟩ := h.opened ho
    exact ⟨Registration.inv_step _ (.call 0 c) _ hman (hopen ho).1 hm,
      ArgOk.step (hopen ho).2 hman hm, hfin⟩
  · obtain ⟨hman, -, hfin⟩ := h.closed hc
    exact ⟨hman.call (hclosed hc).1 hm, (hclosed hc).2, hfin.updater hleft rfl⟩

theorem Inv.commitUpdater {s t : State} (h : Inv n s) (hu : s.updater = .committing)
    (ht : stepCommit n s 0 = some t) : Inv n t := by
  obtain ⟨m, hm, rfl⟩ := Option.map_eq_some_iff.mp ht
  have hpub : stepPublisher s.manager 0 = some m := hm
  refine ⟨?_, fun ho => ?_, fun hc => ?_, fun hl => ?_⟩
  · exact h.turns.commit (h.inside 0) hpub (fun _ => hu) nofun (.inl rfl)
  · obtain ⟨hman, hupd, hfin⟩ := h.opened ho
    simp only [hu] at hupd ⊢
    exact ⟨Registration.inv_step _ (.publisher 0) _ hman trivial hm, ArgOk.step hupd hman hm, hfin⟩
  · obtain ⟨hman, hupd, hfin⟩ := h.closed hc
    have hcur := (stepPublisher_frame hpub).1
    simp only [hu] at hupd ⊢
    refine ⟨hman.publisher hpub, ?_, hfin.updater (by simp [hu]) rfl⟩
    simpa only [UpdaterClosed, hcur] using hupd
  · simp [hu] at hl

theorem inv_updater {s t : State} (h : Inv n s) (ht : stepUpdater n s = some t) : Inv n t := by
  have hopen := fun ho => (h.opened ho).2.1
  have hclosed := fun hc => (h.closed hc).2.1
  have hturn := h.turns.updater
  -- a step that only moves on
  have move (u : Updater) (hleft : s.updater ≠ .left) (hcommit : s.updater ≠ .committing)
      (ho : s.noMoreTxn = false → UpdaterOpen n s.manager s.minEpoch u)
      (hc : s.noMoreTxn = true → UpdaterClosed s.manager.cur s.minEpoch u)
      (hend : u = .left → s.stopped = true ∨
        s.noMoreTxn = true ∧ s.manager.readEpoch = s.manager.cur) :
      Inv n { s with updater := u } :=
    h.setUpdater s.minEpoch u hleft (hturn hcommit) ho hc hend
  unfold stepUpdater at ht
  cases hu : s.updater with
  | left => simp [hu] at ht
  | test =>
    simp only [hu] at ht hopen hclosed
    obtain rfl := Option.some.inj ht
    refine move _ (by simp [hu]) (by simp [hu]) (fun ho => ?_) (fun hc => ?_) (fun hl => ?_)
    · rw [ho]
      exact hopen ho
    · rw [hc]
      exact hclosed hc
    · split_ifs at hl
  | testEpochs =>
    simp only [hu] at ht hopen hclosed
    obtain rfl := Option.some.inj ht
    refine move _ (by simp [hu]) (by simp [hu]) (fun ho => (hopen ho).elim) (fun hc => ?_)
      (fun hl => ?_)
    · split_ifs <;> exact hclosed hc
    · split_ifs at hl with heq
      cases ho : s.noMoreTxn with
      | false => exact (hopen ho).elim
      | true => exact .inr ⟨rfl, heq⟩
  | testStopped =>
    simp only [hu] at ht hopen hclosed
    obtain rfl := Option.some.inj ht
    refine move _ (by simp [hu]) (by simp [hu]) (fun ho => ?_) (fun hc => ?_) (fun hl => ?_)
    · split_ifs <;> exact hopen ho
    · split_ifs <;> exact hclosed hc
    · split_ifs at hl with hs
      exact .inl hs
  | loadCur =>
    simp only [hu] at ht hopen hclosed
    obtain rfl := Option.some.inj ht
    exact move _ (by simp [hu]) (by simp [hu]) (fun ho => ⟨hopen ho, le_rfl⟩)
      (fun hc => ⟨hclosed hc, le_rfl⟩) nofun
  | loadClosed c =>
    simp only [hu] at ht hopen hclosed
    obtain rfl := Option.some.inj ht
    refine move _ (by simp [hu]) (by simp [hu]) (fun ho => ?_) (fun hc => ?_) nofun
    · obtain ⟨harg, hle⟩ := hopen ho
      rw [ho]
      exact ⟨rfl, harg, hle⟩
    · obtain ⟨hmin, hle⟩ := hclosed hc
      rw [hc]
      exact ⟨hmin, Nat.succ_le_succ hle⟩
  | min u =>
    simp only [hu] at ht hopen hclosed
    obtain ⟨b, hb, rfl⟩ := Option.map_eq_some_iff.mp ht
    refine h.setUpdater b.minEpoch _ (by simp [hu]) (hturn (by simp [hu])) (fun ho => ?_)
      (fun hc => ?_) (fun hl => ?_)
    · exact ((hopen ho).min_step (h.opened ho).1 hb).2
    · exact ((hclosed hc).min_step hb).2
    · split_ifs at hl
  | compare =>
    simp only [hu] at ht hopen hclosed
    obtain rfl := Option.some.inj ht
    refine move _ (by simp [hu]) (by simp [hu]) (fun ho => ?_) (fun hc => ?_) (fun hl => ?_)
    · split_ifs <;> exact hopen ho
    · split_ifs <;> exact hclosed hc
    · split_ifs at hl
  | compareClosed =>
    simp only [hu] at ht hopen hclosed
    obtain rfl := Option.some.inj ht
    refine move _ (by simp [hu]) (by simp [hu]) (fun ho => ?_) (fun hc => ?_) (fun hl => ?_)
    · rw [ho]
      exact hopen ho
    · rw [hc]
      exact hclosed hc
    · split_ifs at hl
  | compareCur =>
    simp only [hu] at ht hopen hclosed
    obtain rfl := Option.some.inj ht
    refine move _ (by simp [hu]) (by simp [hu]) (fun ho => (hopen ho).elim) (fun hc => ?_)
      (fun hl => ?_)
    · split_ifs <;> exact hclosed hc
    · split_ifs at hl
  | argument =>
    simp only [hu] at ht hopen hclosed
    split_ifs at ht with hc
    · obtain rfl := Option.some.inj ht
      exact move _ (by simp [hu]) (by simp [hu]) (fun ho => by rw [ho] at hc; cases hc)
        hclosed nofun
    · obtain ⟨r, hr, rfl⟩ := Option.map_eq_some_iff.mp ht
      exact h.callUpdater (by simp [hu]) (hturn (by simp [hu])) hr
        (fun ho => ⟨hopen ho, hopen ho⟩) fun hc' => absurd hc' hc
  | argumentCur =>
    simp only [hu] at ht hopen hclosed
    obtain ⟨r, hr, rfl⟩ := Option.map_eq_some_iff.mp ht
    exact h.callUpdater (by simp [hu]) (hturn (by simp [hu])) hr (fun ho => (hopen ho).elim)
      fun hc => ⟨le_rfl, hclosed hc⟩
  | committing =>
    simp only [hu] at ht hopen hclosed
    split_ifs at ht with hidle
    · obtain rfl := Option.some.inj ht
      exact h.setUpdater s.minEpoch .test (by simp [hu]) hidle hopen hclosed nofun
    · exact h.commitUpdater hu ht

theorem inv_finalizer {s t : State} (h : Inv n s)
    (hjoined : s.finalizer = .idle → ∀ w < n, s.manager.writers w = .idle)
    (ht : stepFinalizer n s = some t) : Inv n t := by
  -- past its first store the write phase is closed
  have hphase (hf : s.finalizer ≠ .idle) : s.noMoreTxn = true := by
    by_contra hopen
    exact hf (h.opened (Bool.eq_false_iff.mpr hopen)).2.2
  have move (stopped : Bool) (f : Finalizer) (hf : s.finalizer ≠ .idle)
      (hcommit : s.manager.publishers 1 = .idle)
      (hstopped : s.stopped = true → stopped = true)
      (hok : FinalizerOk { s with stopped := stopped, finalizer := f } f) :
      Inv n { s with stopped := stopped, finalizer := f } := by
    refine ⟨⟨h.turns.holder, h.turns.updater, fun _ => hcommit, h.turns.others⟩,
      fun ho => ?_, fun hc => ?_, fun hl => (h.left hl).imp_left hstopped⟩
    · exact absurd (hphase hf) (by simpa using ho)
    · obtain ⟨hman, hupd, -⟩ := h.closed hc
      exact ⟨hman, hupd, hok⟩
  have hturn := h.turns.finalizer
  unfold stepFinalizer at ht
  cases hf : s.finalizer with
  | idle =>
    simp only [hf] at ht
    obtain rfl := Option.some.inj ht
    exact inv_close h (fun _ => hjoined hf) (.inr rfl) hf
  | stop =>
    simp only [hf] at ht
    obtain rfl := Option.some.inj ht
    exact move true .join (by simp [hf]) (hturn (by simp [hf])) (fun _ => rfl) rfl
  | join =>
    simp only [hf] at ht
    split_ifs at ht with hleft
    obtain rfl := Option.some.inj ht
    have hok := (h.closed (hphase (by simp [hf]))).2.2
    rw [hf] at hok
    exact move s.stopped .load (by simp [hf]) (hturn (by simp [hf])) id ⟨hok, hleft⟩
  | load =>
    simp only [hf] at ht
    obtain rfl := Option.some.inj ht
    have hok := (h.closed (hphase (by simp [hf]))).2.2
    rw [hf] at hok
    exact move s.stopped _ (by simp [hf]) (hturn (by simp [hf])) id ⟨hok.1, hok.2, rfl⟩
  | compare target =>
    simp only [hf] at ht
    have hc := hphase (by simp [hf])
    obtain ⟨hman, hupd, hok⟩ := h.closed hc
    rw [hf] at hok
    obtain ⟨hstopped, hleft, rfl⟩ := hok
    have hle := hman.read_le
    have hidle := hturn (by simp [hf])
    split_ifs at ht with hlt
    · obtain ⟨r, hr, rfl⟩ := Option.map_eq_some_iff.mp ht
      obtain ⟨m, hm, rfl, rfl⟩ := call_turn hr
      refine ⟨?_, fun ho => absurd hc (by simpa using ho), fun _ => ⟨hman.call le_rfl hm, hupd, ?_⟩,
        fun _ => .inl hstopped⟩
      · exact h.turns.call hidle (fun hne => ⟨Nat.one_ne_zero, hne⟩) (fun hne => absurd rfl hne)
          (.inr rfl)
      · exact ⟨hstopped, hleft, by simp [Finishing, setPublisher, arg]⟩
    · obtain rfl := Option.some.inj ht
      have hread : s.manager.readEpoch = s.manager.cur := by omega
      exact move s.stopped .done (by simp [hf]) hidle id ⟨hstopped, hleft, hread⟩
  | committing =>
    simp only [hf] at ht
    have hc := hphase (by simp [hf])
    obtain ⟨hman, hupd, hok⟩ := h.closed hc
    rw [hf] at hok
    obtain ⟨hstopped, hleft, hfinishing⟩ := hok
    split_ifs at ht with hidle
    · obtain rfl := Option.some.inj ht
      have hread : s.manager.readEpoch = s.manager.cur := by
        simpa [Finishing, hidle, arg] using hfinishing
      exact move s.stopped .done (by simp [hf]) hidle id ⟨hstopped, hleft, hread⟩
    · obtain ⟨m, hm, rfl⟩ := Option.map_eq_some_iff.mp ht
      have hpub : stepPublisher s.manager 1 = some m := hm
      have hcur := (stepPublisher_frame hpub).1
      refine ⟨?_, fun ho => absurd hc (by simpa using ho), fun _ => ⟨hman.publisher hpub, ?_, ?_⟩,
        fun _ => .inl hstopped⟩
      · exact h.turns.commit (h.inside 1) hpub (fun h0 => absurd h0 Nat.one_ne_zero) (fun _ => hf)
          (.inr rfl)
      · simpa only [hcur] using hupd
      · simp only [hf]
        exact ⟨hstopped, hleft, hfinishing.publisher hman hpub⟩
  | done => simp [hf] at ht

theorem inv_step (s : State) (e : Event) (t : State) (h : Inv n s) (hok : Joined n s e)
    (ht : step n s e = some t) : Inv n t := by
  cases e with
  | writer w create =>
    obtain ⟨m, hm, rfl⟩ := Option.map_eq_some_iff.mp ht
    exact inv_writer h hok hm
  | updater => exact inv_updater h ht
  | noMoreTxn =>
    rw [step] at ht
    split_ifs at ht with hc
    obtain rfl := Option.some.inj ht
    have hidle := (h.opened (by simpa using hc)).2.2
    have := inv_close h (fun _ => hok) (.inl rfl) hidle
    rwa [← hidle] at this
  | finalizer => exact inv_finalizer h hok ht

/-! ### The end of the write phase -/

/-- All epochs are published, each once and in order, and a reader that registers sees all of them. -/
structure AllPublished (m : Registration.State) : Prop where
  read : m.readEpoch = m.cur
  transformed : m.transformed = Registration.upTo m.cur
  enqueued : m.enqueued = Registration.upTo m.cur
  readTs : ∀ intra, Finalize.readTs intra m = ⟨m.cur, intraMax⟩

theorem Inv.allPublished {s : State} (h : Inv n s) (hc : s.noMoreTxn = true)
    (hupd : s.updater = .left) (hfin : s.finalizer ≠ .committing)
    (hread : s.manager.readEpoch = s.manager.cur) : AllPublished s.manager := by
  have hidle (q : Nat) : s.manager.publishers q = .idle := by
    by_cases h0 : q = 0
    · rw [h0]
      exact h.turns.updater (by simp [hupd])
    · by_cases h1 : q = 1
      · rw [h1]
        exact h.turns.finalizer hfin
      · exact h.turns.others q h0 h1
  have hphase : s.manager.phase = .idle := by
    unfold State.phase
    cases hm : s.manager.mtx with
    | none => rfl
    | some q => exact hidle q
  have hlog := (h.closed hc).1.log
  rw [hphase] at hlog
  obtain ⟨htr, henq, -⟩ := hlog
  rw [hread] at htr henq
  refine ⟨hread, htr, henq, fun intra => ?_⟩
  simp [readTs, hread]

/-- The end of the write phase, in every interleaving of the writers, the updater, NoMoreTxn and
FinalizeNoMoreTxn in which the writers are joined first: no epoch is published under a writer, and
when the updater ends by itself or FinalizeNoMoreTxn returns, everything is published once and in
order. -/
theorem finalize_spec (n isCreate : Nat) (es : List Event) (s : State)
    (hok : Along (step n) (Joined n) (init isCreate true) es)
    (hrun : exec (step n) (init isCreate true) es = some s) :
    (∀ p cur vb, s.manager.publishers p = .transform cur vb →
      ∃ e, vb = some e ∧ ∀ w < n, ∀ c ∈ (s.manager.writers w).epoch, e < c) ∧
    (s.updater = .left → s.stopped = false → AllPublished s.manager) ∧
    (s.finalizer = .done → AllPublished s.manager) := by
  have hinv : Inv n s := invariant_of_step inv_step (inv_init n isCreate) hok hrun
  refine ⟨fun p cur vb hp => ?_, fun hleft hstopped => ?_, fun hdone => ?_⟩
  · cases hopen : s.noMoreTxn with
    | false =>
      have hok := (hinv.opened hopen).1.publishers p
      rw [hp] at hok
      obtain ⟨-, harg, rfl, hlt⟩ := hok
      exact ⟨_, rfl, fun w hw c hc => hlt.trans_le (harg.2 w hw c hc)⟩
    | true =>
      obtain ⟨hman, -, -⟩ := hinv.closed hopen
      have hok := hman.publishers p
      rw [hp] at hok
      refine ⟨_, hok.2.2.1, fun w hw c hc => ?_⟩
      rw [hman.joined w hw] at hc
      cases hc
  · obtain hs | ⟨hc, hread⟩ := hinv.left hleft
    · rw [hstopped] at hs
      cases hs
    · refine hinv.allPublished hc hleft (fun hcommit => ?_) hread
      have hfin := (hinv.closed hc).2.2
      rw [hcommit] at hfin
      exact Bool.false_ne_true (hstopped.symm.trans hfin.1)
  · have hc : s.noMoreTxn = true := by
      by_contra hopen
      have := (hinv.opened (Bool.eq_false_iff.mpr hopen)).2.2
      rw [hdone] at this
      cases this
    have hfin := (hinv.closed hc).2.2
    rw [hdone] at hfin
    exact hinv.allPublished hc hfin.2.1 (by simp [hdone]) hfin.2.2

/-- Writer 0 opens epoch 2 and leaves, and the updater is stopped before its first round. -/
def stopEarly : List Event :=
  .writer 0 false :: List.replicate 14 (.writer 0 true) ++ [.finalizer, .finalizer] ++
    List.replicate 3 .updater

theorem finalize_spec_stopEarly :
    ∃ s : State, s.finalizer = .done ∧ s.manager.cur = 2 ∧ AllPublished s.manager := by
  obtain ⟨s, hrun, hdone, hcur⟩ :
      ∃ s, exec (step 1) (init 0 true) (stopEarly ++ List.replicate 22 .finalizer) = some s ∧
        s.finalizer = .done ∧ s.manager.cur = 2 := exists_exec (by decide)
  have hok : Along (step 1) (Joined 1) (init 0 true)
      (stopEarly ++ List.replicate 22 .finalizer) := by decide
  exact ⟨s, hdone, hcur, (finalize_spec 1 0 _ s hok hrun).2.2 hdone⟩

/-! ### FinalizeNoMoreTxn returns -/

/-- The steps of a call up to its next test, or to its end. -/
def callLeft : Publisher → Nat
  | .waiting _ | .advance _ => 10
  | .first _ | .next _ => 9
  | .test _ _ => 8
  | .transform _ _ => 7
  | .push _ _ => 6
  | .loadRead _ => 5
  | .storeRead _ _ => 4
  | .unlock => 1
  | .idle => 0

def minLeft (n : Nat) : MinEpochUpdater.Updater → Nat
  | .storeMin _ _ => 23 + n
  | .scanning _ i _ => 22 + (n - i)
  | .lower _ _ => 21
  | .keep _ _ => 20
  | _ => 0

/-- The steps of the updater up to its next call, or to its end when it is stopped. -/
def updaterLeft (n : Nat) : Updater → Nat
  | .loadCur => 25 + n
  | .loadClosed _ => 24 + n
  | .min u => minLeft n u
  | .compare => 19
  | .compareClosed => 18
  | .compareCur => 17
  | .argument => 16
  | .argumentCur => 15
  | .committing => 4
  | .test => 3
  | .testEpochs => 2
  | .testStopped => 1
  | .left => 0

def finalizerLeft : Finalizer → Nat
  | .idle => 16
  | .stop => 15
  | .join => 14
  | .load => 13
  | .compare _ => 12
  | .committing => 1
  | .done => 0

/-- The steps of a publication, for every epoch that is not published. -/
def roomLeft (m : Registration.State) : Nat := 8 * (m.cur + 1 - m.readEpoch)

def potential (n : Nat) (s : State) : Nat :=
  roomLeft s.manager + callLeft (s.manager.publishers 0) + callLeft (s.manager.publishers 1) +
    updaterLeft n s.updater + finalizerLeft s.finalizer

theorem Closed.callLeft_lt {s t : Registration.State} {p : Nat} (h : Closed n s)
    (ht : stepPublisher s p = some t) :
    roomLeft t + callLeft (t.publishers p) < roomLeft s + callLeft (s.publishers p) := by
  have hok := h.publishers p
  unfold stepPublisher at ht
  cases hpc : s.publishers p with
  | idle => simp [hpc] at ht
  | waiting cur =>
    simp only [hpc] at ht
    split_ifs at ht
    obtain rfl := Option.some.inj ht
    simp [setPublisher, callLeft, roomLeft]
  | test cur vb =>
    simp only [hpc] at ht
    obtain rfl := Option.some.inj ht
    split_ifs <;> simp [setPublisher, callLeft, roomLeft]
  | transform cur vb | push cur vb =>
    simp only [hpc] at ht
    obtain ⟨e, -, rfl⟩ := Option.map_eq_some_iff.mp ht
    simp [setPublisher, callLeft, roomLeft]
  | storeRead cur r =>
    rw [hpc] at hok
    obtain ⟨-, harg, rfl, hlt⟩ := hok
    simp only [hpc] at ht
    obtain rfl := Option.some.inj ht
    simp only [setPublisher, callLeft, roomLeft, Function.update_self]
    omega
  | first cur | loadRead cur | advance cur | next cur | unlock =>
    simp only [hpc] at ht
    obtain rfl := Option.some.inj ht
    simp [setPublisher, callLeft, roomLeft]

theorem Closed.exists_publisher {s : Registration.State} {p : Nat} (h : Closed n s)
    (hp : s.publishers p ≠ .idle) (hfree : ∀ q, s.mtx = some q → q = p)
    (hholder : ∀ q, s.mtx = some q → inside (s.publishers q) = true) :
    ∃ t, stepPublisher s p = some t := by
  have hok := h.publishers p
  unfold stepPublisher
  cases hpc : s.publishers p with
  | idle => exact absurd hpc hp
  | waiting cur =>
    have hnone : s.mtx = none := by
      cases hm : s.mtx with
      | none => rfl
      | some q =>
        have hin := hholder q hm
        rw [hfree q hm, hpc] at hin
        cases hin
    exact ⟨_, if_pos hnone⟩
  | transform cur vb | push cur vb =>
    rw [hpc] at hok
    obtain ⟨-, -, rfl, -⟩ := hok
    exact ⟨_, rfl⟩
  | _ => exact ⟨_, rfl⟩

theorem minLeft_lt {m : Registration.State} {minEpoch : Nat} {u : MinEpochUpdater.Updater}
    {b : MinEpochUpdater.State} (h : UpdaterClosed m.cur minEpoch (.min u))
    (hb : MinEpochUpdater.stepUpdater n ⟨m, minEpoch, u⟩ = some b) :
    updaterLeft n (if b.updater = .compare then .compare else .min b.updater) < minLeft n u := by
  unfold MinEpochUpdater.stepUpdater at hb
  cases u with
  | idle | compare | committing => exact h.elim
  | storeMin last c | lower last min2 | keep last min2 =>
    obtain rfl := Option.some.inj hb
    simp [updaterLeft, minLeft]
  | scanning last i min2 =>
    simp only at hb
    split_ifs at hb with hi
    · obtain rfl := Option.some.inj hb
      simp only [reduceCtorEq, if_false, updaterLeft, minLeft]
      omega
    · obtain rfl := Option.some.inj hb
      simp only [reduceCtorEq, if_false, updaterLeft, minLeft]
      omega

/-- FinalizeNoMoreTxn is past its store to `stopped`. -/
def Stopping (s : State) : Prop := s.finalizer ≠ .idle ∧ s.finalizer ≠ .stop

theorem Inv.stopping {s : State} (h : Inv n s) (hs : Stopping s) :
    s.noMoreTxn = true ∧ s.stopped = true := by
  have hc : s.noMoreTxn = true := by
    by_contra hopen
    exact hs.1 (h.opened (Bool.eq_false_iff.mpr hopen)).2.2
  refine ⟨hc, ?_⟩
  have hfin := (h.closed hc).2.2
  cases hf : s.finalizer with
  | idle => exact absurd hf hs.1
  | stop => exact absurd hf hs.2
  | join =>
    rw [hf] at hfin
    exact hfin
  | load | compare | committing | done =>
    rw [hf] at hfin
    exact hfin.1

theorem potential_commit {s t : State} {p : Nat} (h : Inv n s) (hc : s.noMoreTxn = true)
    (hp : p = 0 ∨ p = 1) (ht : stepCommit n s p = some t) :
    potential n t < potential n s ∧ t.updater = s.updater ∧ t.finalizer = s.finalizer := by
  obtain ⟨m, hm, rfl⟩ := Option.map_eq_some_iff.mp ht
  have hpub : stepPublisher s.manager p = some m := hm
  have hlt := (h.closed hc).1.callLeft_lt hpub
  have hother := (stepPublisher_turn (h.inside p) hpub).1
  refine ⟨?_, rfl, rfl⟩
  unfold potential
  rcases hp with rfl | rfl
  · simp only [hother 1 Nat.one_ne_zero]
    omega
  · simp only [hother 0 Nat.zero_ne_one]
    omega

theorem potential_call {s t : State} {p c : Nat} (hp : p = 0 ∨ p = 1)
    (hidle : s.manager.publishers p = .idle) (ht : call n s p c = some t) :
    potential n t = potential n s + 10 ∧ t.updater = s.updater ∧ t.finalizer = s.finalizer := by
  obtain ⟨m, -, rfl, rfl⟩ := call_turn ht
  refine ⟨?_, rfl, rfl⟩
  unfold potential
  rcases hp with rfl | rfl
  · have hidle' : callLeft (s.manager.publishers 0) = 0 := by rw [hidle]; rfl
    have hcall : callLeft (Publisher.waiting c) = 10 := rfl
    simp only [setPublisher, roomLeft, Function.update_self,
      Function.update_of_ne Nat.one_ne_zero, hidle', hcall]
    omega
  · have hidle' : callLeft (s.manager.publishers 1) = 0 := by rw [hidle]; rfl
    have hcall : callLeft (Publisher.waiting c) = 10 := rfl
    simp only [setPublisher, roomLeft, Function.update_self,
      Function.update_of_ne Nat.zero_ne_one, hidle', hcall]
    omega

theorem potential_updater {s t : State} (h : Inv n s) (hs : Stopping s)
    (ht : stepUpdater n s = some t) :
    potential n t < potential n s ∧ t.finalizer = s.finalizer := by
  obtain ⟨hc, hstopped⟩ := h.stopping hs
  -- a step that only moves on
  have move (minEpoch : Nat) (u : Updater) (hlt : updaterLeft n u < updaterLeft n s.updater) :
      potential n { s with minEpoch := minEpoch, updater := u } < potential n s ∧
        s.finalizer = s.finalizer := by
    refine ⟨?_, rfl⟩
    simp only [potential]
    omega
  have hupd := (h.closed hc).2.1
  unfold stepUpdater at ht
  cases hu : s.updater with
  | left => simp [hu] at ht
  | test | testStopped | compareClosed =>
    simp only [hu, hc, hstopped, if_true] at ht
    obtain rfl := Option.some.inj ht
    refine move s.minEpoch _ ?_
    simp [hu, updaterLeft]
  | testEpochs | compare | compareCur =>
    simp only [hu] at ht
    obtain rfl := Option.some.inj ht
    refine move s.minEpoch _ ?_
    rw [hu]
    split_ifs <;> simp [updaterLeft]
  | loadCur | loadClosed c =>
    simp only [hu] at ht
    obtain rfl := Option.some.inj ht
    refine move s.minEpoch _ ?_
    simp only [hu, updaterLeft, minLeft]
    omega
  | min u =>
    simp only [hu] at ht hupd
    obtain ⟨b, hb, rfl⟩ := Option.map_eq_some_iff.mp ht
    refine move b.minEpoch _ ?_
    rw [hu]
    exact minLeft_lt hupd hb
  | argument =>
    simp only [hu, hc, if_true] at ht
    obtain rfl := Option.some.inj ht
    refine move s.minEpoch _ ?_
    simp [hu, updaterLeft]
  | argumentCur =>
    simp only [hu] at ht
    obtain ⟨r, hr, rfl⟩ := Option.map_eq_some_iff.mp ht
    obtain ⟨hpot, hru, hrf⟩ := potential_call (.inl rfl) (h.turns.updater (by simp [hu])) hr
    refine ⟨?_, hrf⟩
    simp only [potential, hru, hu, updaterLeft] at hpot ⊢
    omega
  | committing =>
    simp only [hu] at ht
    split_ifs at ht
    · obtain rfl := Option.some.inj ht
      refine move s.minEpoch _ ?_
      simp [hu, updaterLeft]
    · obtain ⟨hlt, -, hf⟩ := potential_commit h hc (.inl rfl) ht
      exact ⟨hlt, hf⟩

theorem potential_finalizer {s t : State} (h : Inv n s) (hs : Stopping s)
    (ht : stepFinalizer n s = some t) : potential n t < potential n s ∧ Stopping t := by
  obtain ⟨hc, -⟩ := h.stopping hs
  have move (f : Finalizer) (hlt : finalizerLeft f < finalizerLeft s.finalizer)
      (hf : f ≠ .idle ∧ f ≠ .stop) :
      potential n { s with finalizer := f } < potential n s ∧
        Stopping { s with finalizer := f } := by
    refine ⟨?_, hf⟩
    simp only [potential]
    omega
  unfold stepFinalizer at ht
  cases hf : s.finalizer with
  | idle => exact absurd hf hs.1
  | stop => exact absurd hf hs.2
  | join =>
    simp only [hf] at ht
    split_ifs at ht
    obtain rfl := Option.some.inj ht
    exact move _ (by rw [hf]; decide) ⟨nofun, nofun⟩
  | load =>
    simp only [hf] at ht
    obtain rfl := Option.some.inj ht
    exact move _ (by rw [hf]; exact Nat.lt_succ_self _) ⟨nofun, nofun⟩
  | compare target =>
    simp only [hf] at ht
    split_ifs at ht
    · obtain ⟨r, hr, rfl⟩ := Option.map_eq_some_iff.mp ht
      obtain ⟨hpot, hru, hrf⟩ := potential_call (.inr rfl) (h.turns.finalizer (by simp [hf])) hr
      refine ⟨?_, nofun, nofun⟩
      simp only [potential, hrf, hf, finalizerLeft] at hpot ⊢
      omega
    · obtain rfl := Option.some.inj ht
      exact move _ (by rw [hf]; exact Nat.succ_pos _) ⟨nofun, nofun⟩
  | committing =>
    simp only [hf] at ht
    split_ifs at ht
    · obtain rfl := Option.some.inj ht
      exact move _ (by rw [hf]; decide) ⟨nofun, nofun⟩
    · obtain ⟨hlt, -, htf⟩ := potential_commit h hc (.inr rfl) ht
      exact ⟨hlt, by rw [Stopping, htf]; exact hs⟩
  | done => simp [hf] at ht

theorem potential_step {s t : State} {e : Event} (h : Inv n s ∧ Stopping s) (hok : Joined n s e)
    (ht : step n s e = some t) : (Inv n t ∧ Stopping t) ∧ potential n t < potential n s := by
  obtain ⟨hinv, hs⟩ := h
  have hinv' := inv_step s e t hinv hok ht
  have hc := (hinv.stopping hs).1
  cases e with
  | writer w create =>
    have hopen : s.noMoreTxn = false := hok
    rw [hc] at hopen
    cases hopen
  | updater =>
    obtain ⟨hlt, hf⟩ := potential_updater hinv hs ht
    exact ⟨⟨hinv', by rw [Stopping, hf]; exact hs⟩, hlt⟩
  | noMoreTxn => simp [step, hc] at ht
  | finalizer =>
    obtain ⟨hlt, hs'⟩ := potential_finalizer hinv hs ht
    exact ⟨⟨hinv', hs'⟩, hlt⟩

/-- Nobody waits in vain: the updater until it has left, and then the finalizer, can go on. -/
theorem Inv.exists_step {s : State} (h : Inv n s) (hs : Stopping s) (hdone : s.finalizer ≠ .done) :
    (∃ t, step n s .updater = some t) ∨ ∃ t, step n s .finalizer = some t := by
  obtain ⟨hc, -⟩ := h.stopping hs
  obtain ⟨hman, hupd, hfin⟩ := h.closed hc
  have hholder := h.turns.holder
  -- mtx_ is free or in the hands of the only thread that calls
  have hfree (p : Nat) (hothers : ∀ q, q ≠ p → s.manager.publishers q = .idle) (q : Nat)
      (hq : s.manager.mtx = some q) : q = p := by
    by_contra hne
    have hin := hholder q hq
    rw [hothers q hne] at hin
    cases hin
  have hcommit (p : Nat) (hothers : ∀ q, q ≠ p → s.manager.publishers q = .idle)
      (hp : s.manager.publishers p ≠ .idle) : ∃ t, stepCommit n s p = some t := by
    obtain ⟨m, hm⟩ := hman.exists_publisher hp (hfree p hothers) hholder
    exact ⟨{ s with manager := m }, Option.map_eq_some_iff.mpr ⟨m, hm, rfl⟩⟩
  have hcall (p c : Nat) (hp : s.manager.publishers p = .idle) : ∃ t, call n s p c = some t :=
    ⟨_, Option.map_eq_some_iff.mpr ⟨_, if_pos hp, rfl⟩⟩
  by_cases hleft : s.updater = .left
  · refine .inr ?_
    have hidle := h.turns.updater (by simp [hleft])
    simp only [step]
    unfold stepFinalizer
    cases hf : s.finalizer with
    | idle | stop | load => exact ⟨_, rfl⟩
    | join => exact ⟨_, if_pos hleft⟩
    | compare target =>
      simp only
      split_ifs
      · obtain ⟨r, hr⟩ := hcall 1 target (h.turns.finalizer (by simp [hf]))
        exact ⟨_, Option.map_eq_some_iff.mpr ⟨r, hr, rfl⟩⟩
      · exact ⟨_, rfl⟩
    | committing =>
      simp only
      split_ifs with hp
      · exact ⟨_, rfl⟩
      · refine hcommit 1 (fun q hq => ?_) hp
        by_cases h0 : q = 0
        · rw [h0]
          exact hidle
        · exact h.turns.others q h0 hq
    | done => exact absurd hf hdone
  · refine .inl ?_
    have hidle : s.manager.publishers 1 = .idle := by
      refine h.turns.finalizer fun hf => hleft ?_
      rw [hf] at hfin
      exact hfin.2.1
    simp only [step]
    unfold stepUpdater
    cases hu : s.updater with
    | left => exact absurd hu hleft
    | min u =>
      rw [hu] at hupd
      simp only
      cases u with
      | idle | compare | committing => exact hupd.elim
      | scanning last i min2 =>
        simp only [MinEpochUpdater.stepUpdater]
        split_ifs <;> exact ⟨_, rfl⟩
      | storeMin last c | lower last min2 | keep last min2 => exact ⟨_, rfl⟩
    | argument =>
      simp only [hc, if_true]
      exact ⟨_, rfl⟩
    | argumentCur =>
      obtain ⟨r, hr⟩ := hcall 0 (s.manager.cur + 1) (h.turns.updater (by simp [hu]))
      exact ⟨_, Option.map_eq_some_iff.mpr ⟨r, hr, rfl⟩⟩
    | committing =>
      simp only
      split_ifs with hp
      · exact ⟨_, rfl⟩
      · refine hcommit 0 (fun q hq => ?_) hp
        by_cases h1 : q = 1
        · rw [h1]
          exact hidle
        · exact h.turns.others q hq h1
    | _ => exact ⟨_, rfl⟩

theorem Inv.potential_le {s : State} (h : Inv n s) (hs : Stopping s) : potential n s ≤ n + 200 := by
  obtain ⟨hc, -⟩ := h.stopping hs
  have hroom := (h.closed hc).1.cur_le
  have hcall (pc : Publisher) : callLeft pc ≤ 10 := by
    cases pc <;> simp [callLeft]
  have hupdater (u : Updater) : updaterLeft n u ≤ 25 + n := by
    cases u with
    | min u =>
      cases u <;> simp only [updaterLeft, minLeft] <;> omega
    | _ =>
      simp only [updaterLeft]
      omega
  have hfinalizer : finalizerLeft s.finalizer ≤ 14 := by
    cases hf : s.finalizer with
    | idle => exact absurd hf hs.1
    | stop => exact absurd hf hs.2
    | _ => simp [finalizerLeft]
  have h0 := hcall (s.manager.publishers 0)
  have h1 := hcall (s.manager.publishers 1)
  have hu := hupdater s.updater
  unfold potential roomLeft
  omega

/-- FinalizeNoMoreTxn returns: once it has stopped the updater, one of the two threads can always
go on until it is done, and together they take boundedly many steps. -/
theorem finalize_returns (n isCreate : Nat) (es : List Event) (s : State)
    (hok : Along (step n) (Joined n) (init isCreate true) es)
    (hrun : exec (step n) (init isCreate true) es = some s) (hs : Stopping s) :
    (s.finalizer ≠ .done →
      (∃ t, step n s .updater = some t) ∨ ∃ t, step n s .finalizer = some t) ∧
    ∀ fs t, Along (step n) (Joined n) s fs → exec (step n) s fs = some t →
      fs.length ≤ n + 200 := by
  have hinv : Inv n s := invariant_of_step inv_step (inv_init n isCreate) hok hrun
  refine ⟨hinv.exists_step hs, fun fs t hfs ht => ?_⟩
  have hpaid := hfs.length_add_le (fun _ _ _ h hok => potential_step h hok) ⟨hinv, hs⟩ ht
  have hle := hinv.potential_le hs
  omega

theorem finalize_returns_stopEarly :
    ∃ s t : State, exec (step 1) s (List.replicate 22 .finalizer) = some t ∧
      t.finalizer = .done ∧ (List.replicate 22 Event.finalizer).length ≤ 1 + 200 := by
  obtain ⟨s, hrun, hs, hnext⟩ :
      ∃ s, exec (step 1) (init 0 true) stopEarly = some s ∧
        (s.finalizer ≠ .idle ∧ s.finalizer ≠ .stop) ∧
        (exec (step 1) s (List.replicate 22 .finalizer)).any (fun t => t.finalizer = .done) ∧
        Along (step 1) (Joined 1) s (List.replicate 22 .finalizer) := exists_exec (by decide)
  have hok : Along (step 1) (Joined 1) (init 0 true) stopEarly := by decide
  obtain ⟨t, ht, hdone⟩ := exists_exec (P := fun t : State => t.finalizer = .done) hnext.1
  exact ⟨s, t, ht, hdone, (finalize_returns 1 0 stopEarly s hok hrun hs).2 _ t hnext.2 ht⟩

end AVBGraph.Finalize
