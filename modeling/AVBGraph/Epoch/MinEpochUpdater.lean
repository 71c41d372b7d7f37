import AVBGraph.Framework.SlotMin
import AVBGraph.Epoch.RingInvariant

namespace AVBGraph.MinEpochUpdater

open Framework Registration

/-- The write half of one round of run_min_epoch_updater: update_min_version with its locals
`last` and `min2`, then the call of commitVersionBlock. -/
inductive Updater
  | idle
  | storeMin (last c : Nat)
  | scanning (last i : Nat) (min2 : Option Nat)
  | lower (last : Nat) (min2 : Option Nat)
  | keep (last : Nat) (min2 : Option Nat)
  | compare
  | committing
  deriving DecidableEq

/-- AllVBManager with its updater thread, which is publisher 0. -/
structure State where
  manager : Registration.State
  minEpoch : Nat
  updater : Updater

def init (isCreate : Nat) : State := ⟨Registration.init isCreate, 0, .idle⟩

/-- no_more_txn_ is 0; `none` is a blocked step of commitVersionBlock. -/
def stepUpdater (maxThreads : Nat) (s : State) : Option State :=
  match s.updater with
  | .idle => some { s with updater := .storeMin s.minEpoch s.manager.cur }
  | .storeMin last c => some { s with minEpoch := c, updater := .scanning last 0 none }
  | .scanning last i min2 =>
    if i < maxThreads then
      let min2 := minSlot min2 (s.manager.activeTransactions i)
      some { s with updater := .scanning last (i + 1) min2 }
    else some { s with updater := .lower last min2 }
  | .lower last min2 =>
    some { s with minEpoch := minWith s.minEpoch min2, updater := .keep last min2 }
  | .keep last min2 =>
    let minEpoch := if s.minEpoch < last ∧ min2 ≠ none then last else s.minEpoch
    some { s with minEpoch := minEpoch, updater := .compare }
  | .compare =>
    if s.manager.readEpoch + 1 < s.minEpoch then
      (Registration.step maxThreads s.manager (.call 0 s.minEpoch)).map fun m =>
        { s with manager := m, updater := .committing }
    else some { s with updater := .idle }
  | .committing =>
    if s.manager.publishers 0 = .idle then some { s with updater := .idle }
    else (Registration.step maxThreads s.manager (.publisher 0)).map fun m =>
      { s with manager := m }

inductive Event
  | writer (w : Nat) (create : Bool)
  | updater
  deriving DecidableEq

def step (maxThreads : Nat) (s : State) : Event → Option State
  | .writer w create =>
    (Registration.step maxThreads s.manager (.writer w create)).map fun m => { s with manager := m }
  | .updater => stepUpdater maxThreads s

/-- A bound that covers `cur_` and the slots scanned so far. -/
def Covered (maxThreads : Nat) (s : State) (i : Nat) (min2 : Option Nat) : Prop :=
  s.minEpoch ≤ s.manager.cur ∧ ∀ w < maxThreads, ∀ c ∈ (s.manager.writers w).epoch,
    s.minEpoch ≤ c ∨ i ≤ w ∨ minWith s.minEpoch min2 ≤ c

def UpdaterOk (maxThreads : Nat) (s : State) : Updater → Prop
  | .idle | .compare | .committing => ArgOk maxThreads s.manager s.minEpoch
  | .storeMin last c => ArgOk maxThreads s.manager last ∧ c ≤ s.manager.cur
  | .scanning last i min2 =>
    ArgOk maxThreads s.manager last ∧ i ≤ maxThreads ∧ Covered maxThreads s i min2
  | .lower last min2 => ArgOk maxThreads s.manager last ∧
      ArgOk maxThreads s.manager (minWith s.minEpoch min2)
  | .keep last _ => ArgOk maxThreads s.manager last ∧ ArgOk maxThreads s.manager s.minEpoch

structure Inv (maxThreads : Nat) (s : State) : Prop where
  manager : Registration.Inv maxThreads s.manager
  updater : UpdaterOk maxThreads s s.updater

theorem inv_init (maxThreads isCreate : Nat) : Inv maxThreads (init isCreate) :=
  ⟨Registration.inv_init maxThreads isCreate, Nat.zero_le _, fun _ _ _ _ => Nat.zero_le _⟩

/-- A step of the manager keeps what the updater has established so far: a writer that
registers later takes an epoch from `cur_` on. -/
theorem UpdaterOk.manager {n : Nat} {s : State} {m : Registration.State} {u : Updater}
    {e : Registration.Event} (h : UpdaterOk n s u) (hinv : Registration.Inv n s.manager)
    (hm : Registration.step n s.manager e = some m) : UpdaterOk n { s with manager := m } u := by
  cases u with
  | idle | compare | committing => exact ArgOk.step h hinv hm
  | storeMin last c => exact ⟨h.1.step hinv hm, h.2.trans (hinv.step_mono hm).1⟩
  | lower last min2 | keep last min2 => exact ⟨h.1.step hinv hm, h.2.step hinv hm⟩
  | scanning last i min2 =>
    obtain ⟨harg, hi, hle, hcov⟩ := h
    obtain ⟨hcur, hep⟩ := hinv.step_mono hm
    refine ⟨harg.step hinv hm, hi, hle.trans hcur, fun w hw c hc => ?_⟩
    rcases hep w c hc with hc | rfl
    · exact hcov w hw c hc
    · exact Or.inl hle

theorem inv_updater {n : Nat} {s t : State} (h : Inv n s) (ht : stepUpdater n s = some t) :
    Inv n t := by
  obtain ⟨hman, hok⟩ := h
  unfold stepUpdater at ht
  cases hu : s.updater with
  | idle =>
    simp only [hu] at ht hok
    obtain rfl := Option.some.inj ht
    exact ⟨hman, hok, le_rfl⟩
  | storeMin last c =>
    simp only [hu] at ht hok
    obtain rfl := Option.some.inj ht
    -- nothing scanned yet, so every slot is still ahead
    exact ⟨hman, hok.1, Nat.zero_le n, hok.2, fun w _ _ _ => Or.inr (Or.inl (Nat.zero_le w))⟩
  | scanning last i min2 =>
    simp only [hu] at ht hok
    obtain ⟨harg, hi, hle, hcov⟩ := hok
    split_ifs at ht with hin
    · obtain rfl := Option.some.inj ht
      refine ⟨hman, harg, hin, hle, fun w hw c hc => ?_⟩
      rcases hcov w hw c hc with hc' | hc' | hc'
      · exact Or.inl hc'
      · rcases Nat.lt_or_eq_of_le hc' with hlt | rfl
        · exact Or.inr (Or.inl hlt)
        · -- the slot of a registered writer holds its epoch
          simp only [(hman.registered hc).slot]
          exact Or.inr (Or.inr (minWith_minSlot_le_right _ _ _))
      · exact Or.inr (Or.inr ((minWith_minSlot_le_left _ _ _).trans hc'))
    · obtain rfl := Option.some.inj ht
      have hmin := minWith_le s.minEpoch min2
      refine ⟨hman, harg, hmin.trans hle, fun w hw c hc => ?_⟩
      rcases hcov w hw c hc with hc' | hc' | hc'
      · exact hmin.trans hc'
      · omega
      · exact hc'
  | lower last min2 =>
    simp only [hu] at ht hok
    obtain rfl := Option.some.inj ht
    exact ⟨hman, hok⟩
  | keep last min2 =>
    simp only [hu] at ht hok
    obtain rfl := Option.some.inj ht
    refine ⟨hman, ?_⟩
    simp only [UpdaterOk]
    split_ifs
    · exact hok.1
    · exact hok.2
  | compare =>
    simp only [hu] at ht hok
    split_ifs at ht
    · obtain ⟨m, hm, rfl⟩ := Option.map_eq_some_iff.mp ht
      exact ⟨Registration.inv_step _ (.call 0 s.minEpoch) _ hman hok hm, ArgOk.step hok hman hm⟩
    · obtain rfl := Option.some.inj ht
      exact ⟨hman, hok⟩
  | committing =>
    simp only [hu] at ht hok
    split_ifs at ht
    · obtain rfl := Option.some.inj ht
      exact ⟨hman, hok⟩
    · obtain ⟨m, hm, rfl⟩ := Option.map_eq_some_iff.mp ht
      exact ⟨Registration.inv_step _ (.publisher 0) _ hman trivial hm, ArgOk.step hok hman hm⟩

theorem inv_step {n : Nat} (s : State) (e : Event) (t : State) (h : Inv n s) (_ : True)
    (ht : step n s e = some t) : Inv n t := by
  cases e with
  | writer w create =>
    obtain ⟨m, hm, rfl⟩ := Option.map_eq_some_iff.mp ht
    have hman := Registration.inv_step _ (.writer w create) _ h.manager trivial hm
    exact ⟨hman, h.updater.manager h.manager hm⟩
  | updater => exact inv_updater h ht

/-- Under the background updater no epoch is published below a registered writer: while
commitVersionBlock is about to transform the VBData of `e` every registered epoch is above
`e`, and a registered epoch is always above `read_epoch_`. -/
theorem no_publication_under_writer (n isCreate : Nat) (es : List Event) (s : State)
    (hrun : exec (step n) (init isCreate) es = some s) :
    (∀ p cur vb, s.manager.publishers p = .transform cur vb →
      ∃ e, vb = some e ∧ ∀ w, ∀ c ∈ (s.manager.writers w).epoch, e < c) ∧
    ∀ w, ∀ c ∈ (s.manager.writers w).epoch, s.manager.readEpoch < c := by
  have hinv := invariant_of_step inv_step (inv_init n isCreate) (along_true _ _ _) hrun
  refine ⟨fun p cur vb hp => ?_, fun w c hc => (hinv.manager.registered hc).unpublished⟩
  have hok := hinv.manager.publishers p
  rw [hp] at hok
  obtain ⟨-, harg, rfl, hlt⟩ := hok
  refine ⟨_, rfl, fun w c hc => ?_⟩
  exact hlt.trans_le (harg.2 w (hinv.manager.registered hc).thread c hc)

/-- Writer 0 opens epoch 2, writer 1 registers in it, and a round of the updater follows until
epoch 1 is about to be transformed. -/
def transformUnderWriter : List Event :=
  .writer 0 false :: List.replicate 14 (.writer 0 true) ++ List.replicate 5 (.writer 1 false) ++
    List.replicate 11 .updater

theorem no_publication_under_writer_epoch2 :
    ∃ s : State, s.manager.publishers 0 = .transform 2 (some 1) ∧
      (s.manager.writers 1).epoch = some 2 ∧ s.manager.readEpoch < 2 := by
  obtain ⟨s, hrun, hp, hw⟩ : ∃ s, exec (step 2) (init 0) transformUnderWriter = some s ∧
      s.manager.publishers 0 = .transform 2 (some 1) ∧ (s.manager.writers 1).epoch = some 2 :=
    exists_exec (by decide)
  exact ⟨s, hp, hw, (no_publication_under_writer 2 0 transformUnderWriter s hrun).2 1 2 hw⟩

end AVBGraph.MinEpochUpdater
