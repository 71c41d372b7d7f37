import AVBGraph.Framework.Run
import AVBGraph.Framework.SlotMin
import AVBGraph.Vertex.VersionChain

namespace AVBGraph.ReadGuard

open Framework

/-- registerROTransaction and deregisterROTransaction of one reader slot, one shared access
a step; `idle` is outside of a registration. -/
inductive Reader
  | idle
  | retry
  | loaded (re : Nat)
  | stored (re : Nat)
  | reading (re : Nat)
  deriving DecidableEq

/-- One round of the updater: the read half of update_min_version, GC, commitVersionBlock. -/
inductive Updater
  | idle
  | loadedRead (r : Nat)
  | scanning (i : Nat) (min1 : Option Nat)
  | collecting
  | collected
  | committing
  | published
  deriving DecidableEq

structure State where
  readEpoch : Nat
  activeReadEpochs : Nat → Option Nat
  minReadEpoch : Nat
  oldestEpoch : Nat
  vbQue : List Nat
  deleted : List Nat
  readers : Nat → Reader
  updater : Updater

def init : State := ⟨0, fun _ => none, 0, 0, [], [], fun _ => .idle, .idle⟩

/-- The test of GC on the front of the queue. -/
def expired (b : Build) (watermark epoch : Nat) : Bool :=
  match b with
  | .fineGrain => epoch < watermark
  | .coarse => epoch ≤ watermark

def stepReader (s : State) (w : Nat) : State :=
  match s.readers w with
  | .idle | .retry => { s with readers := Function.update s.readers w (.loaded s.readEpoch) }
  | .loaded re =>
    { s with
      activeReadEpochs := Function.update s.activeReadEpochs w (some re)
      readers := Function.update s.readers w (.stored re) }
  | .stored re =>
    let pc := if re < s.minReadEpoch then Reader.retry else Reader.reading re
    { s with readers := Function.update s.readers w pc }
  | .reading _ =>
    { s with
      activeReadEpochs := Function.update s.activeReadEpochs w none
      readers := Function.update s.readers w .idle }

def stepUpdater (b : Build) (maxThreads : Nat) (s : State) : State :=
  match s.updater with
  | .idle => { s with updater := .loadedRead s.readEpoch }
  | .loadedRead r => { s with minReadEpoch := r, updater := .scanning 0 none }
  | .scanning i m =>
    if i < maxThreads then { s with updater := .scanning (i + 1) (minSlot m (s.activeReadEpochs i)) }
    else { s with minReadEpoch := minWith s.minReadEpoch m, updater := .collecting }
  | .collecting =>
    match s.vbQue with
    | [] => { s with updater := .collected }
    | e :: q =>
      if expired b s.minReadEpoch e then { s with vbQue := q, deleted := e :: s.deleted }
      else { s with updater := .collected }
  | .collected => { s with oldestEpoch := s.minReadEpoch, updater := .committing }
  | .committing => { s with updater := .idle }
  -- read_epoch_++ after the push of the VBData
  | .published => { s with readEpoch := s.readEpoch + 1, updater := .committing }

inductive Event
  | reader (w : Nat)
  | updater
  | publish
  deriving DecidableEq

/-- How many epochs a round publishes depends on the writers and is left open. -/
def step (b : Build) (maxThreads : Nat) (s : State) : Event → Option State
  | .reader w => if w < maxThreads then some (stepReader s w) else none
  | .updater => some (stepUpdater b maxThreads s)
  | .publish =>
    if s.updater = .committing then
      some { s with vbQue := s.vbQue ++ [s.readEpoch + 1], updater := .published }
    else none

/-- The watermark that this step is about to store is not below the one of the last GC. -/
def KeepsWatermark (maxThreads : Nat) (s : State) (e : Event) : Prop :=
  match e, s.updater with
  | .updater, .scanning i m => i = maxThreads → s.oldestEpoch ≤ minWith s.minReadEpoch m
  | _, _ => True

instance (n : Nat) (s : State) (e : Event) : Decidable (KeepsWatermark n s e) := by
  unfold KeepsWatermark
  split <;> infer_instance

theorem expired_mono {b : Build} {v w e : Nat} (h : v ≤ w) (he : expired b v e = true) :
    expired b w e = true := by
  cases b <;> simp only [expired, decide_eq_true_eq] at he ⊢ <;> omega

/-- The bound under which an epoch was deleted at the latest. -/
def State.watermark (s : State) : Nat :=
  match s.updater with
  | .collecting | .collected => s.minReadEpoch
  | _ => s.oldestEpoch

/-- What the updater has seen, or will see, of a reader that left the registration loop. -/
def Guarded (s : State) (w re : Nat) : Prop :=
  match s.updater with
  | .scanning i m => s.minReadEpoch ≤ re ∨ i ≤ w ∨ minWith s.minReadEpoch m ≤ re
  | _ => s.minReadEpoch ≤ re

def ReaderOk (maxThreads : Nat) (s : State) (w : Nat) : Reader → Prop
  | .stored re => s.activeReadEpochs w = some re
  | .reading re => s.activeReadEpochs w = some re ∧ w < maxThreads ∧ s.oldestEpoch ≤ re ∧
      Guarded s w re
  | _ => True

structure Inv (b : Build) (maxThreads : Nat) (s : State) : Prop where
  oldest_le : s.oldestEpoch ≤ s.minReadEpoch
  min_le : s.minReadEpoch ≤ s.readEpoch
  loadedRead : ∀ r, s.updater = .loadedRead r → s.oldestEpoch ≤ r ∧ r ≤ s.readEpoch
  scanning : ∀ i m, s.updater = .scanning i m → i ≤ maxThreads
  readers : ∀ w, ReaderOk maxThreads s w (s.readers w)
  deleted : ∀ e ∈ s.deleted, expired b s.watermark e = true

theorem inv_init (b : Build) (maxThreads : Nat) : Inv b maxThreads init := by
  constructor <;> simp [init, ReaderOk]

theorem guarded_of_min_le {s : State} {w re : Nat} (h : s.minReadEpoch ≤ re) :
    Guarded s w re := by
  unfold Guarded
  split
  · exact Or.inl h
  · exact h

/-- The slot of another reader and the state of the updater are all that a reader relies on. -/
theorem ReaderOk.congr {n : Nat} {s t : State} {w : Nat} {pc : Reader}
    (hs : t.activeReadEpochs w = s.activeReadEpochs w) (ho : t.oldestEpoch = s.oldestEpoch)
    (hm : t.minReadEpoch = s.minReadEpoch) (hu : t.updater = s.updater)
    (h : ReaderOk n s w pc) : ReaderOk n t w pc := by
  cases pc with
  | idle | retry | loaded => trivial
  | stored re => rw [ReaderOk, hs]; exact h
  | reading re => rw [ReaderOk, Guarded, hs, ho, hm, hu]; exact h

theorem inv_setReader {b : Build} {n : Nat} {s : State} {w : Nat} (h : Inv b n s)
    (slot : Option Nat) (pc : Reader)
    (hpc : ReaderOk n { s with activeReadEpochs := Function.update s.activeReadEpochs w slot } w pc) :
    Inv b n { s with
      activeReadEpochs := Function.update s.activeReadEpochs w slot
      readers := Function.update s.readers w pc } := by
  refine ⟨h.oldest_le, h.min_le, h.loadedRead, h.scanning, ?_, h.deleted⟩
  refine forall_update.mpr ⟨hpc.congr rfl rfl rfl rfl, fun v hv => ?_⟩
  exact (h.readers v).congr (Function.update_of_ne hv _ _) rfl rfl rfl

theorem inv_reader {b : Build} {n : Nat} {s : State} {w : Nat} (h : Inv b n s) (hw : w < n) :
    Inv b n (stepReader s w) := by
  have keep (pc : Reader) (hpc : ReaderOk n s w pc) :
      Inv b n { s with readers := Function.update s.readers w pc } := by
    have hh := inv_setReader h (w := w) (s.activeReadEpochs w) pc
      (by rwa [Function.update_eq_self])
    rwa [Function.update_eq_self] at hh
  have hok := h.readers w
  unfold stepReader
  split
  · exact keep _ trivial
  · exact keep _ trivial
  · exact inv_setReader h _ _ (by simp [ReaderOk])
  · rename_i re hr
    have hslot : s.activeReadEpochs w = some re := by simpa only [ReaderOk, hr] using hok
    have hold := h.oldest_le
    refine keep _ ?_
    split_ifs with hlt
    · trivial
    · exact ⟨hslot, hw, by omega, guarded_of_min_le (by omega)⟩
  · exact inv_setReader h _ _ trivial

/-- A step of the updater that leaves the slots and the readers alone. -/
theorem ReaderOk.mono {n : Nat} {s t : State} {w : Nat} {pc : Reader} (h : ReaderOk n s w pc)
    (hs : t.activeReadEpochs = s.activeReadEpochs)
    (hg : ∀ re, s.activeReadEpochs w = some re → w < n → s.oldestEpoch ≤ re → Guarded s w re →
      t.oldestEpoch ≤ re ∧ Guarded t w re) : ReaderOk n t w pc := by
  cases pc with
  | idle | retry | loaded => trivial
  | stored re => rw [ReaderOk, hs]; exact h
  | reading re =>
    obtain ⟨hslot, hw, ho, hgd⟩ := h
    exact ⟨by rw [hs]; exact hslot, hw, hg re hslot hw ho hgd⟩

theorem inv_updater {b : Build} {n : Nat} {s : State} (h : Inv b n s)
    (hk : KeepsWatermark n s .updater) : Inv b n (stepUpdater b n s) := by
  obtain ⟨hold, hmin, hload, hscan, hread, hdel⟩ := h
  unfold stepUpdater
  split
  · -- idle
    rename_i hu
    refine ⟨hold, hmin, ?_, by simp, fun w => ?_, ?_⟩
    · rintro r ⟨⟩; exact ⟨hold.trans hmin, le_rfl⟩
    · refine (hread w).mono rfl fun re _ _ ho hg => ⟨ho, ?_⟩
      simpa only [Guarded, hu] using hg
    · simpa only [State.watermark, hu] using hdel
  · -- min_read_epoch = read_epoch_: nothing scanned yet, so every slot is still ahead
    rename_i r hu
    obtain ⟨hr, hr'⟩ := hload r hu
    refine ⟨hr, hr', by simp, ?_, fun w => ?_, ?_⟩
    · rintro i m ⟨⟩; exact Nat.zero_le n
    · exact (hread w).mono rfl fun re _ _ ho _ => ⟨ho, .inr (.inl (Nat.zero_le w))⟩
    · simpa only [State.watermark, hu] using hdel
  · rename_i i m hu
    split_ifs with hi
    · -- the load of one slot
      refine ⟨hold, hmin, by simp, ?_, fun w => ?_, ?_⟩
      · rintro j m' ⟨⟩; exact hi
      · refine (hread w).mono rfl fun re hslot _ ho hg => ⟨ho, ?_⟩
        simp only [Guarded, hu] at hg ⊢
        rcases hg with hg | hg | hg
        · exact .inl hg
        · rcases Nat.lt_or_eq_of_le hg with hg | rfl
          · exact .inr (.inl hg)
          · rw [hslot]; exact .inr (.inr (minWith_minSlot_le_right _ _ _))
        · exact .inr (.inr ((minWith_minSlot_le_left _ _ _).trans hg))
      · simpa only [State.watermark, hu] using hdel
    · -- the store of the new watermark
      have hin : i = n := by have := hscan i m hu; omega
      have hkeep : s.oldestEpoch ≤ minWith s.minReadEpoch m := by
        simp only [KeepsWatermark, hu] at hk
        exact hk hin
      have hle := minWith_le s.minReadEpoch m
      refine ⟨hkeep, hle.trans hmin, by simp, by simp, fun w => ?_, ?_⟩
      · refine (hread w).mono rfl fun re _ hw ho hg => ⟨ho, ?_⟩
        simp only [Guarded, hu] at hg ⊢
        rcases hg with hg | hg | hg
        · exact hle.trans hg
        · omega
        · exact hg
      · intro e he
        have hh := hdel e he
        simp only [State.watermark, hu] at hh ⊢
        exact expired_mono hkeep hh
  · -- GC
    rename_i hu
    have guard (w re : Nat) (hg : Guarded s w re) : s.minReadEpoch ≤ re := by
      simpa only [Guarded, hu] using hg
    split
    · refine ⟨hold, hmin, by simp, by simp, fun w => ?_, ?_⟩
      · exact (hread w).mono rfl fun re _ _ ho hg => ⟨ho, guard w re hg⟩
      · simpa only [State.watermark, hu] using hdel
    · rename_i e q _
      split_ifs with he
      · refine ⟨hold, hmin, hload, hscan, fun w => ?_, ?_⟩
        · exact (hread w).mono rfl fun re _ _ ho hg => ⟨ho, by simpa only [Guarded, hu] using hg⟩
        · simp only [State.watermark, hu, List.mem_cons] at hdel ⊢
          rintro d (rfl | hd)
          · exact he
          · exact hdel d hd
      · refine ⟨hold, hmin, by simp, by simp, fun w => ?_, ?_⟩
        · exact (hread w).mono rfl fun re _ _ ho hg => ⟨ho, guard w re hg⟩
        · simpa only [State.watermark, hu] using hdel
  · -- g_oldest_epoch catches up with the watermark
    rename_i hu
    refine ⟨le_rfl, hmin, by simp, by simp, fun w => ?_, ?_⟩
    · refine (hread w).mono rfl fun re _ _ _ hg => ?_
      simp only [Guarded, hu] at hg
      exact ⟨hg, hg⟩
    · simpa only [State.watermark, hu] using hdel
  · rename_i hu
    refine ⟨hold, hmin, by simp, by simp, fun w => ?_, ?_⟩
    · exact (hread w).mono rfl fun re _ _ ho hg => ⟨ho, by simpa only [Guarded, hu] using hg⟩
    · simpa only [State.watermark, hu] using hdel
  · rename_i hu
    refine ⟨hold, by simp only; omega, by simp, by simp, fun w => ?_, ?_⟩
    · exact (hread w).mono rfl fun re _ _ ho hg => ⟨ho, by simpa only [Guarded, hu] using hg⟩
    · simpa only [State.watermark, hu] using hdel

theorem inv_publish {b : Build} {n : Nat} {s : State} (h : Inv b n s)
    (hu : s.updater = .committing) (q : List Nat) :
    Inv b n { s with vbQue := q, updater := .published } := by
  refine ⟨h.oldest_le, h.min_le, by simp, by simp, fun w => ?_, ?_⟩
  · refine (h.readers w).mono rfl fun re _ _ ho hg => ⟨ho, ?_⟩
    simpa only [Guarded, hu] using hg
  · have := h.deleted
    simpa only [State.watermark, hu] using this

theorem inv_step {b : Build} {n : Nat} (s : State) (e : Event) (t : State) (h : Inv b n s)
    (hk : KeepsWatermark n s e) (ht : step b n s e = some t) : Inv b n t := by
  cases e with
  | reader w =>
    rw [step] at ht
    split_ifs at ht with hw
    obtain rfl := Option.some.inj ht
    exact inv_reader h hw
  | updater =>
    obtain rfl := Option.some.inj ht
    exact inv_updater h hk
  | publish =>
    rw [step] at ht
    split_ifs at ht with hu
    obtain rfl := Option.some.inj ht
    exact inv_publish h hu _

/-- What GC has deleted expired for the epoch of every reader in the critical region. -/
theorem Inv.reading {b : Build} {n : Nat} {s : State} (h : Inv b n s) {w re : Nat}
    (hw : s.readers w = .reading re) : ∀ e ∈ s.deleted, expired b re e = true := by
  intro e he
  have hok := h.readers w
  rw [hw] at hok
  obtain ⟨-, -, hold, hg⟩ := hok
  refine expired_mono ?_ (h.deleted e he)
  unfold State.watermark
  split
  · rename_i hu; simpa only [Guarded, hu] using hg
  · rename_i hu; simpa only [Guarded, hu] using hg
  · exact hold

/-- The blocks that a reader of an epoch dereferences through for_each_edge. -/
def chainReads (b : Build) (version : Nat) (m : VersionBlockManager) : List VersionBlock :=
  match b with
  | .fineGrain => if version ≤ m.endEpoch then walkReads .fineGrain version m.vbs else []
  | .coarse => if version < m.endEpoch then walkReads .coarse version m.vbs else []

/-- The epochs at which a reader registered with `re` may scan. -/
def ScansAt (b : Build) (re version : Nat) : Prop :=
  match b with
  | .fineGrain => re ≤ version
  | .coarse => version = re

theorem chainReads_live {b : Build} {re version : Nat} {m : VersionBlockManager}
    (hm : Linked m.endEpoch m.vbs) (hv : ScansAt b re version) :
    ∀ vb ∈ chainReads b version m, expired b re vb.timestamp = false := by
  intro vb hvb
  cases b with
  | fineGrain =>
    simp only [chainReads] at hvb
    split_ifs at hvb with hle
    · have hh := walkReads_fineGrain hm hle vb hvb
      simp only [ScansAt] at hv
      simp only [expired, decide_eq_false_iff_not]
      omega
    · simp at hvb
  | coarse =>
    simp only [chainReads] at hvb
    split_ifs at hvb with hlt
    · have hh := walkReads_coarse hm hlt vb hvb
      simp only [ScansAt] at hv
      simp only [expired, decide_eq_false_iff_not]
      omega
    · simp at hvb

/-- As long as the watermark never moves backwards, GC frees no VBData that a registered
reader can reach, and every block that the reader dereferences is live. -/
theorem registered_reader_safe (b : Build) (n : Nat) (es : List Event) (s : State)
    (hrun : exec (step b n) init es = some s)
    (hok : Along (step b n) (KeepsWatermark n) init es)
    (w re : Nat) (hw : s.readers w = .reading re) :
    (∀ e ∈ s.deleted, expired b re e = true) ∧
    ∀ m : VersionBlockManager, Linked m.endEpoch m.vbs →
      (∀ version, ScansAt b re version →
        ∀ vb ∈ chainReads b version m, vb.timestamp ∉ s.deleted) ∧
      ∀ vb ∈ VersionBlockManager.degreeReads re m.endEpoch m.vbs, vb.timestamp ∉ s.deleted := by
  have hinv := invariant_of_step inv_step (inv_init b n) hok hrun
  have hdel := hinv.reading hw
  refine ⟨hdel, fun m hm => ⟨fun version hv vb hvb hd => ?_, fun vb hvb hd => ?_⟩⟩
  · have hh := chainReads_live hm hv vb hvb
    rw [hdel _ hd] at hh
    cases hh
  · have hh := degreeReads_gt hm vb hvb
    have he := hdel _ hd
    cases b <;> simp only [expired, decide_eq_true_eq] at he <;> omega

/-- Two rounds of the updater: the first publishes epochs 1 and 2, the second collects. -/
def twoRounds : List Event :=
  List.replicate 6 .updater ++ [.publish, .updater, .publish, .updater, .updater] ++
    List.replicate 9 .updater

theorem registered_reader_safe_twoRounds :
    ∃ s : State, s.deleted = [1] ∧ s.readers 0 = .reading 2 ∧
      ∀ e ∈ s.deleted, expired .fineGrain 2 e = true := by
  let es := twoRounds ++ List.replicate 3 (.reader 0)
  obtain ⟨s, hrun, hdel, hre⟩ : ∃ s, exec (step .fineGrain 1) init es = some s ∧
      s.deleted = [1] ∧ s.readers 0 = .reading 2 := exists_exec (by decide +kernel)
  exact ⟨s, hdel, hre, (registered_reader_safe .fineGrain 1 es s hrun (by decide) 0 2 hre).1⟩

def ReadersSafe (b : Build) : Prop :=
  ∀ n es s, exec (step b n) init es = some s → ∀ w re, s.readers w = .reading re →
    ∀ e ∈ s.deleted, expired b re e = true

/-- A reader loads epoch 0, two rounds pass, and its late store pulls the watermark back to 0
before it re-checks: it reads at epoch 0 although the VBData of epoch 1 is gone. -/
def staleStore : List Event :=
  [.reader 0] ++ twoRounds ++ [.reader 0, .updater, .updater, .updater, .updater, .reader 0]

theorem staleStore_unsafe : ¬ ReadersSafe .fineGrain ∧ ¬ ReadersSafe .coarse := by
  constructor <;> intro h
  · obtain ⟨s, hrun, hre, hdel⟩ : ∃ s, exec (step .fineGrain 1) init staleStore = some s ∧
        s.readers 0 = .reading 0 ∧ 1 ∈ s.deleted := exists_exec (by decide +kernel)
    exact absurd (h 1 staleStore s hrun 0 0 hre 1 hdel) (by decide)
  · obtain ⟨s, hrun, hre, hdel⟩ : ∃ s, exec (step .coarse 1) init staleStore = some s ∧
        s.readers 0 = .reading 0 ∧ 1 ∈ s.deleted := exists_exec (by decide +kernel)
    exact absurd (h 1 staleStore s hrun 0 0 hre 1 hdel) (by decide)

end AVBGraph.ReadGuard
